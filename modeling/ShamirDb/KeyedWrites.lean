/-
# Lists of writes to the places of a table

A write gives one place a value; a list of writes is applied to a table first write first.
What a place holds afterwards depends on the last write to it only (`apply_eq`), so two
lists with the same last writes do the same, and a list applied twice does what it does once.
-/
import Mathlib.Logic.Function.Basic
import Mathlib.Data.List.Basic

namespace KeyedWrites

open List Option Function

/-- One write: the place and the value it gets. -/
structure Write (K β : Type*) where
  key : K
  value : β
  deriving DecidableEq

variable {K β : Type*} [DecidableEq K] {k : K} {ws : List (Write K β)}

/-- The table after the writes, in order. -/
def apply (ws : List (Write K β)) (m : K → β) : K → β :=
  ws.foldl (fun m w => update m w.key w.value) m

/-- What the last write to `k` leaves there, if there is one. -/
def last (k : K) : List (Write K β) → Option β
  | [] => none
  | w :: ws => (last k ws).or (if w.key = k then some w.value else none)

@[simp] theorem apply_nil (m : K → β) : apply [] m = m := rfl

@[simp] theorem apply_cons (w : Write K β) (ws : List (Write K β)) (m : K → β) :
    apply (w :: ws) m = apply ws (update m w.key w.value) := rfl

/-- Writes one after the other. -/
theorem apply_append (ws vs : List (Write K β)) (m : K → β) :
    apply (ws ++ vs) m = apply vs (apply ws m) := by
  simp [apply]

@[simp] theorem last_nil (k : K) : last k ([] : List (Write K β)) = none := rfl

/-- The last value of the first write's key. -/
theorem last_cons_self (w : Write K β) (ws : List (Write K β)) :
    last w.key (w :: ws) = some ((last w.key ws).getD w.value) := by
  rw [last, if_pos rfl]
  cases last w.key ws <;> rfl

/-- A write to another key. -/
theorem last_cons_of_ne {w : Write K β} (h : w.key ≠ k) (ws : List (Write K β)) :
    last k (w :: ws) = last k ws := by
  rw [last, if_neg h, or_none]

/-- **A place holds what the last write to it says**, or what it held before. -/
theorem apply_eq (ws : List (Write K β)) (m : K → β) (k : K) :
    apply ws m k = (last k ws).getD (m k) := by
  induction ws generalizing m with
  | nil => rfl
  | cons w ws ih =>
    rw [apply_cons, ih]
    by_cases hk : w.key = k
    · subst hk
      rw [last_cons_self, update_self, getD_some]
    · rw [last_cons_of_ne hk, update_of_ne (Ne.symm hk)]

/-- The later part decides. -/
theorem last_append (k : K) (ws vs : List (Write K β)) :
    last k (ws ++ vs) = (last k vs).or (last k ws) := by
  induction ws with
  | nil => simp
  | cons w ws ih => rw [cons_append, last, ih, last, Option.or_assoc]

/-- A key without a write. -/
theorem last_eq_none_iff : last k ws = none ↔ ∀ w ∈ ws, w.key ≠ k := by
  induction ws with
  | nil => simp
  | cons w ws ih =>
    by_cases hk : w.key = k
    · subst hk
      simp [last_cons_self]
    · rw [last_cons_of_ne hk, ih]
      simp [hk]

/-- Leaving out writes to other places does not matter to `k`. -/
theorem last_filter {p : Write K β → Bool} (h : ∀ w ∈ ws, w.key = k → p w = true) :
    last k (ws.filter p) = last k ws := by
  induction ws with
  | nil => rfl
  | cons w ws ih =>
    have hold := ih fun v hv => h v (mem_cons_of_mem _ hv)
    by_cases hk : w.key = k
    · rw [filter_cons_of_pos (h w (by simp) hk), last, last, hold]
    · by_cases hp : p w = true
      · rw [filter_cons_of_pos hp, last, last, hold]
      · rw [filter_cons_of_neg hp, hold, last_cons_of_ne hk]

/-! ## Lists of lists -/

variable {α : Type*} {k : K} {f : α → List (Write K β)} {ts : List α} {v : β}

/-- No part writes the key. -/
theorem last_flatMap_eq_none_iff :
    last k (ts.flatMap f) = none ↔ ∀ t ∈ ts, last k (f t) = none := by
  induction ts with
  | nil => simp
  | cons t ts ih =>
    rw [flatMap_cons, last_append, or_eq_none_iff, ih]
    simp [and_comm]

/-- The newest part that writes the key decides. -/
theorem last_flatMap_of_newest :
    ∀ {ts : List α} {p : Nat} {t : α}, ts[p]? = some t → last k (f t) = some v →
      (∀ (q : Nat) (u : α), p < q → ts[q]? = some u → last k (f u) = none) →
      last k (ts.flatMap f) = some v
  | [], p, t, ht, _, _ => absurd ht (by simp)
  | u :: ts, 0, t, ht, hv, hq => by
    obtain rfl : u = t := by simpa using ht
    have hrest : last k (ts.flatMap f) = none := by
      rw [last_flatMap_eq_none_iff]
      intro w hw
      obtain ⟨q, hq', hwq⟩ := getElem_of_mem hw
      refine hq (q + 1) w (Nat.succ_pos q) ?_
      rw [getElem?_cons_succ, getElem?_eq_getElem hq', hwq]
    rw [flatMap_cons, last_append, hrest, hv, none_or]
  | u :: ts, p + 1, t, ht, hv, hq => by
    have hrest : last k (ts.flatMap f) = some v :=
      last_flatMap_of_newest ht hv fun q w hpq hw => hq (q + 1) w (Nat.succ_lt_succ hpq) hw
    rw [flatMap_cons, last_append, hrest, some_or]

/-- Conversely, a last write has a last part it comes from. -/
theorem exists_newest (h : last k (ts.flatMap f) = some v) :
    ∃ (p : Nat) (t : α), ts[p]? = some t ∧ last k (f t) = some v ∧
      ∀ (q : Nat) (u : α), p < q → ts[q]? = some u → last k (f u) = none := by
  induction ts with
  | nil => simp at h
  | cons t ts ih =>
    rw [flatMap_cons, last_append] at h
    cases hrest : last k (ts.flatMap f) with
    | some w =>
      rw [hrest] at h
      obtain ⟨p, u, hu, hv, hq⟩ := ih (h ▸ hrest)
      refine ⟨p + 1, u, hu, hv, fun q x hpq hx => ?_⟩
      cases q with
      | zero => omega
      | succ q => exact hq q x (by omega) hx
    | none =>
      rw [hrest] at h
      refine ⟨0, t, rfl, h, fun q x hpq hx => ?_⟩
      cases q with
      | zero => omega
      | succ q => exact last_flatMap_eq_none_iff.1 hrest x (mem_of_getElem? hx)

/-- In a list that is ordered by `r`, the parts with a write are before that part. -/
theorem exists_newest_of_pairwise {r : α → α → Prop} (hr : ts.Pairwise r)
    (h : last k (ts.flatMap f) = some v) :
    ∃ t ∈ ts, last k (f t) = some v ∧ ∀ u ∈ ts, last k (f u) ≠ none → u = t ∨ r u t := by
  obtain ⟨p, t, ht, hv, hlater⟩ := exists_newest h
  refine ⟨t, mem_of_getElem? ht, hv, fun u hu hk => ?_⟩
  obtain ⟨q, hq, hqu⟩ := getElem_of_mem hu
  obtain ⟨hp, hpt⟩ := List.getElem?_eq_some_iff.1 ht
  rcases Nat.lt_trichotomy q p with hlt | rfl | hgt
  · exact Or.inr (hqu ▸ hpt ▸ pairwise_iff_getElem.1 hr q p hq hp hlt)
  · exact Or.inl (hqu.symm.trans hpt)
  · exact absurd (hlater q u hgt (by rw [getElem?_eq_getElem hq, hqu])) hk

end KeyedWrites
