/-
# Rows addressed by a key and a version

A table of versioned rows gives each key and version at most one value.  This file
has the operations a multi-version store performs on such a table (setting and
clearing rows, one at a time or as a batch) and the search for a key's newest row at or
below a version.
-/
import Mathlib.Order.Nat
import Mathlib.Tactic.Common

/-- A table of rows: the value of each key at each version. -/
abbrev VersionedRows (K α : Type) := K → Nat → Option α

namespace VersionedRows

open List

variable {K α : Type} [DecidableEq K]

/-! ## Setting and clearing rows -/

/-- Sets (`some`) or clears (`none`) one row. -/
def set (rows : VersionedRows K α) (k : K) (v : Nat) (x : Option α) : VersionedRows K α :=
  fun k' v' => if k' = k ∧ v' = v then x else rows k' v'

section

variable (rows : VersionedRows K α)
include rows

@[simp] theorem set_self (k : K) (v : Nat) (x : Option α) : rows.set k v x k v = x := by simp [set]

theorem set_of_ne {k k' : K} {v v' : Nat} (x : Option α)
    (h : v' ≠ v) : rows.set k v x k' v' = rows k' v' := by simp [set, h]

/-- A row after `set` is the row set or an old one. -/
theorem set_eq (k : K) (v : Nat) (x : Option α) (k' : K) (v' : Nat) :
    (k' = k ∧ v' = v ∧ rows.set k v x k' v' = x) ∨ rows.set k v x k' v' = rows k' v' := by
  by_cases h : k' = k ∧ v' = v
  · exact .inl ⟨h.1, h.2, by simp [h]⟩
  · exact .inr (by simp [set, h])

/-- A row after another one was cleared is cleared or as it was. -/
theorem set_none_eq (k : K) (v : Nat) (k' : K) (v' : Nat) :
    rows.set k v none k' v' = none ∨ rows.set k v none k' v' = rows k' v' :=
  (rows.set_eq k v none k' v').imp_left fun h => h.2.2

end

/-- Sets a batch of rows; of two values for one row the later one stays. -/
def setAll (rows : VersionedRows K α) : List (K × Nat × α) → VersionedRows K α
  | [] => rows
  | (k, v, x) :: rest => (rows.set k v (some x)).setAll rest

/-- Clears a batch of rows. -/
def clearAll (rows : VersionedRows K α) : List (K × Nat) → VersionedRows K α
  | [] => rows
  | (k, v) :: rest => (rows.set k v none).clearAll rest

/-- A batch sets its rows only. -/
theorem setAll_eq (rows : VersionedRows K α) (batch : List (K × Nat × α)) (k : K) (v : Nat) :
    (∃ x, (k, v, x) ∈ batch ∧ rows.setAll batch k v = some x) ∨
      rows.setAll batch k v = rows k v := by
  induction batch generalizing rows with
  | nil => exact .inr rfl
  | cons entry rest ih =>
    obtain ⟨k₀, v₀, x₀⟩ := entry
    rcases ih (rows.set k₀ v₀ (some x₀)) with ⟨x, hx, heq⟩ | hold
    · exact .inl ⟨x, mem_cons_of_mem _ hx, heq⟩
    · rcases rows.set_eq k₀ v₀ (some x₀) k v with ⟨hk, hv, hset⟩ | hset
      · subst hk hv
        exact .inl ⟨x₀, mem_cons_self, hold.trans hset⟩
      · exact .inr (hold.trans hset)

/-- A batch clears its rows only. -/
theorem clearAll_eq (rows : VersionedRows K α) (batch : List (K × Nat)) (k : K) (v : Nat) :
    ((k, v) ∈ batch ∧ rows.clearAll batch k v = none) ∨
      ((k, v) ∉ batch ∧ rows.clearAll batch k v = rows k v) := by
  induction batch generalizing rows with
  | nil => exact .inr ⟨not_mem_nil, rfl⟩
  | cons entry rest ih =>
    obtain ⟨k₀, v₀⟩ := entry
    rcases ih (rows.set k₀ v₀ none) with ⟨hmem, hnone⟩ | ⟨hmem, hold⟩
    · exact .inl ⟨mem_cons_of_mem _ hmem, hnone⟩
    by_cases h : k = k₀ ∧ v = v₀
    · obtain ⟨rfl, rfl⟩ := h
      exact .inl ⟨mem_cons_self, hold.trans (set_self _ _ _ _)⟩
    · refine .inr ⟨?_, hold.trans (by simp [set, h])⟩
      simp only [mem_cons, Prod.mk.injEq, not_or]
      exact ⟨h, hmem⟩

theorem of_clearAll {rows : VersionedRows K α} {batch : List (K × Nat)} {k : K} {v : Nat}
    (h : rows.clearAll batch k v ≠ none) : rows k v ≠ none := by
  rcases rows.clearAll_eq batch k v with ⟨-, hnone⟩ | ⟨-, hold⟩
  · exact absurd hnone h
  · exact hold ▸ h

end VersionedRows

/-! ## The newest row at or below a version -/

namespace VersionedRows

variable {α : Type}

/-- The newest row of a timeline at or below a version, with its version. -/
def newest (line : Nat → Option α) : Nat → Option (Nat × α)
  | 0 => (line 0).map (0, ·)
  | n + 1 =>
    match line (n + 1) with
    | some x => some (n + 1, x)
    | none => newest line n

variable {line : Nat → Option α} {n m : Nat}

/-- The newest version is the last one that is set. -/
theorem newest_eq_some {v : Nat} {x : α} :
    newest line n = some (v, x) ↔
      v ≤ n ∧ line v = some x ∧ ∀ w, v < w → w ≤ n → line w = none := by
  induction n with
  | zero =>
    simp only [newest, Option.map_eq_some_iff, Prod.mk.injEq, Nat.le_zero]
    constructor
    · rintro ⟨y, hy, rfl, rfl⟩
      exact ⟨rfl, hy, fun w hw hw0 => absurd hw0 (by omega)⟩
    · rintro ⟨rfl, hx, -⟩
      exact ⟨x, hx, rfl, rfl⟩
  | succ n ih =>
    rw [newest]
    cases hline : line (n + 1) with
    | some y =>
      simp only [Option.some.injEq, Prod.mk.injEq]
      constructor
      · rintro ⟨rfl, rfl⟩
        exact ⟨le_rfl, hline, fun w hw hwn => absurd hwn (by omega)⟩
      rintro ⟨hv, hx, hnone⟩
      have hvn : n + 1 = v := by
        by_contra hne
        exact absurd (hnone (n + 1) (by omega) le_rfl) (by simp [hline])
      subst hvn
      exact ⟨rfl, Option.some.inj (hline.symm.trans hx)⟩
    | none =>
      rw [ih]
      constructor
      · rintro ⟨hv, hx, hnone⟩
        refine ⟨by omega, hx, fun w hw hwn => ?_⟩
        rcases Nat.lt_or_ge n w with hlt | hge
        · rwa [show w = n + 1 by omega]
        · exact hnone w hw hge
      · rintro ⟨hv, hx, hnone⟩
        have hvn : v ≠ n + 1 := fun heq => by
          rw [heq, hline] at hx
          simp at hx
        exact ⟨by omega, hx, fun w hw hwn => hnone w hw (by omega)⟩

/-- Or none is set. -/
theorem newest_eq_none : newest line n = none ↔ ∀ v, v ≤ n → line v = none := by
  induction n with
  | zero => simp [newest]
  | succ n ih =>
    rw [newest]
    cases hline : line (n + 1) with
    | some y =>
      simp only [reduceCtorEq, false_iff, not_forall]
      exact ⟨n + 1, le_rfl, by simp [hline]⟩
    | none =>
      rw [ih]
      constructor
      · intro h v hv
        rcases Nat.lt_or_ge n v with hlt | hge
        · rwa [show v = n + 1 by omega]
        · exact h v hge
      · exact fun h v hv => h v (by omega)

/-- The newest row depends on the rows at or below the version only. -/
theorem newest_congr {line line' : Nat → Option α} (h : ∀ v, v ≤ n → line v = line' v) :
    newest line n = newest line' n := by
  induction n with
  | zero => simp [newest, h 0]
  | succ n ih =>
    rw [newest, newest, h (n + 1) le_rfl, ih fun v hv => h v (by omega)]

end VersionedRows
