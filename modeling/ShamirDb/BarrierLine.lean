/-
# Barriers in a line of items

Items and barriers stand in one line that is worked off from its head.  A barrier `w` vouches
for the items numbered up to `w`: when it is reached, each of them has to be accounted for.
`Guarded` says that this is going to be so: an item up to `w` is accounted for already, or it
stands in front of the barrier.

The rules follow the life of the line: both kinds are added at the end and leave at the head.
`Guarded.forget` is for an item that loses the account it had and stands in the line instead;
it must not stand behind a barrier that vouches for it.
-/
import Mathlib.Data.List.Basic

namespace BarrierLine

open List

/-- What stands in the line: an item with its number, or a barrier. -/
inductive Msg (E : Type*) where
  | event (version : Nat) (event : E)
  | barrier (through : Nat)
  deriving DecidableEq

variable {E : Type*}

/-- The message is the item numbered `v`. -/
def Msg.isEvent (v : Nat) : Msg E → Bool
  | .event u _ => u == v
  | .barrier _ => false

/-- The item numbered `v` stands in the line. -/
def holds (line : List (Msg E)) (v : Nat) : Prop := ∃ m ∈ line, m.isEvent v = true

instance (line : List (Msg E)) (v : Nat) : Decidable (holds line v) :=
  inferInstanceAs (Decidable (∃ m ∈ line, m.isEvent v = true))

/-- The item `v` stands behind a barrier that vouches for it. -/
def behind (v : Nat) : List (Msg E) → Bool
  | [] => false
  | .event _ _ :: rest => behind v rest
  | .barrier w :: rest => (decide (v ≤ w) && decide (holds rest v)) || behind v rest

/-- Every barrier finds the items it vouches for accounted for (`ok`), given that those in
front of it are by then. -/
def Guarded (needed : Nat → Prop) : List (Msg E) → (Nat → Prop) → Prop
  | [], _ => True
  | .event v _ :: rest, ok => Guarded needed rest fun u => ok u ∨ u = v
  | .barrier w :: rest, ok => (∀ v ≤ w, needed v → ok v) ∧ Guarded needed rest ok

variable {needed needed' ok ok' : Nat → Prop} {line : List (Msg E)} {v w : Nat} {e : E}

@[simp] theorem holds_nil (v : Nat) : ¬ holds ([] : List (Msg E)) v := by
  simp [holds]

@[simp] theorem holds_event (u : Nat) (e : E) (rest : List (Msg E)) (v : Nat) :
    holds (.event u e :: rest) v ↔ u = v ∨ holds rest v := by
  simp [holds, Msg.isEvent]

@[simp] theorem holds_barrier (w : Nat) (rest : List (Msg E)) (v : Nat) :
    holds (.barrier w :: rest) v ↔ holds rest v := by
  simp [holds, Msg.isEvent]

theorem holds_append (line rest : List (Msg E)) (v : Nat) :
    holds (line ++ rest) v ↔ holds line v ∨ holds rest v := by
  simp [holds, or_and_right, exists_or]

/-- More accounts, fewer needs. -/
theorem Guarded.mono (h : Guarded needed line ok) (hok : ∀ v, needed' v → ok v → ok' v)
    (hneed : ∀ v, ∀ m ∈ line, ∀ w, m = .barrier w → v ≤ w → needed' v → needed v) :
    Guarded needed' line ok' := by
  induction line generalizing ok ok' with
  | nil => trivial
  | cons m rest ih =>
    have hrest : ∀ v, ∀ m ∈ rest, ∀ w, m = .barrier w → v ≤ w → needed' v → needed v :=
      fun v m hm => hneed v m (mem_cons_of_mem _ hm)
    cases m with
    | event u e => exact ih h (fun v hv hok' => hok'.imp_left (hok v hv)) hrest
    | barrier w =>
      refine ⟨fun v hv hn => ?_, ih h.2 hok hrest⟩
      exact hok v hn (h.1 v hv (hneed v _ mem_cons_self w rfl hv hn))

/-- More versions may be settled. -/
theorem Guarded.mono_ok (h : Guarded needed line ok) (hok : ∀ v, ok v → ok' v) :
    Guarded needed line ok' :=
  h.mono (fun v _ => hok v) fun _ _ _ _ _ _ hn => hn

/-- An event at the end guards as before. -/
theorem guarded_concat_event (v : Nat) (e : E) :
    Guarded needed (line ++ [.event v e]) ok ↔ Guarded needed line ok := by
  induction line generalizing ok with
  | nil => simp [Guarded]
  | cons m rest ih => cases m <;> simp [Guarded, ih]

/-- A barrier asks for all versions up to its own. -/
theorem guarded_concat_barrier (w : Nat) :
    Guarded needed (line ++ [.barrier w]) ok ↔
      Guarded needed line ok ∧ ∀ v ≤ w, needed v → ok v ∨ holds line v := by
  induction line generalizing ok with
  | nil => simp [Guarded]
  | cons m rest ih =>
    cases m with
    | event u e =>
      simp only [cons_append, Guarded, ih, holds_event, or_assoc, eq_comm]
    | barrier w' => simp only [cons_append, Guarded, ih, holds_barrier, and_assoc]

/-- The head is worked off and then accounted for. -/
theorem Guarded.pop_event (h : Guarded needed (.event v e :: line) ok)
    (hok : ∀ u, ok u → ok' u) (hv : ok' v) : Guarded needed line ok' := by
  refine Guarded.mono_ok h ?_
  rintro u (hu | rfl)
  · exact hok u hu
  · exact hv

/-- **An item loses its account.**  It stands in the line, in front of all barriers that
vouch for it. -/
theorem Guarded.forget (h : Guarded needed line ok) (hok : ∀ u, ok u → ok' u ∨ u = v)
    (hv : ok' v ∨ holds line v) (hbehind : behind v line = false) : Guarded needed line ok' := by
  induction line generalizing ok ok' with
  | nil => trivial
  | cons m rest ih =>
    cases m with
    | event u e =>
      refine ih h ?_ ?_ hbehind
      · rintro x (hx | rfl)
        · exact (hok x hx).imp_left .inl
        · exact .inl (.inr rfl)
      · rcases hv with hv | hv
        · exact .inl (.inl hv)
        · rcases (holds_event _ _ _ _).1 hv with rfl | hv
          · exact .inl (.inr rfl)
          · exact .inr hv
    | barrier w =>
      rw [behind, Bool.or_eq_false_iff, Bool.and_eq_false_iff] at hbehind
      rw [holds_barrier] at hv
      refine ⟨fun x hx hn => ?_, ih h.2 hok hv hbehind.2⟩
      rcases hok x (h.1 x hx hn) with hx' | rfl
      · exact hx'
      -- the barrier vouches for the item, so the item is not behind it
      rcases hv with hv | hv
      · exact hv
      · rcases hbehind.1 with hle | hnot
        · exact absurd hx (of_decide_eq_false hle)
        · exact absurd hv (of_decide_eq_false hnot)

end BarrierLine
