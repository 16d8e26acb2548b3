/-
# Byte strings in lexicographic order

Codes that keep their order when something is appended.  Two strings of which neither starts
the other are told apart before either ends, so what follows them does not matter.  A
prefix-free code is one whose words are pairwise of this kind; the words of such a code can
be followed by a suffix, or by the next word, and still be compared and taken apart.
-/
import Mathlib.Tactic.Common
import Mathlib.Data.List.Lex

namespace ByteOrder

open List

/-! ## Strings that part -/

/-- Neither string is the start of the other. -/
def Apart (a b : List UInt8) : Prop := ¬ a <+: b ∧ ¬ b <+: a

variable {a b : List UInt8}

theorem Apart.symm (h : Apart a b) : Apart b a := ⟨h.2, h.1⟩

/-- What follows two strings that part does not change their order. -/
theorem Apart.append_lt_append (h : Apart a b) (u v : List UInt8) : a ++ u < b ++ v ↔ a < b := by
  induction a generalizing b with
  | nil => exact absurd nil_prefix h.1
  | cons c a ih =>
    cases b with
    | nil => exact absurd nil_prefix h.2
    | cons d b =>
      rw [cons_append, cons_append, cons_lt_cons_iff, cons_lt_cons_iff]
      by_cases hcd : c = d
      · subst hcd
        have hab : Apart a b := by
          constructor
          · intro hp
            exact h.1 ((prefix_cons_inj c).2 hp)
          · intro hp
            exact h.2 ((prefix_cons_inj c).2 hp)
        rw [ih hab]
      · simp [hcd]

/-- What follows two keys that are apart decides nothing. -/
theorem Apart.append_le_append (h : Apart a b) (u v : List UInt8) : a ++ u ≤ b ++ v ↔ a ≤ b := by
  rw [← List.not_lt, ← List.not_lt, h.symm.append_lt_append]

/-- A common start does not change the order. -/
theorem append_lt_append_left (a b c : List UInt8) : a ++ b < a ++ c ↔ b < c := by
  induction a with
  | nil => exact Iff.rfl
  | cons d a ih =>
    rw [cons_append, cons_append, cons_lt_cons_iff, ih]
    simp

theorem append_le_append_left (a b c : List UInt8) : a ++ b ≤ a ++ c ↔ b ≤ c := by
  rw [← List.not_lt, ← List.not_lt, append_lt_append_left]

/-- A key between two with one head has that head. -/
theorem starts_of_between {a b c k : List UInt8} (hlo : a ++ b ≤ k) (hhi : k ≤ a ++ c) :
    a <+: k := by
  induction a generalizing k with
  | nil => exact nil_prefix
  | cons d a ih =>
    cases k with
    | nil => simp [le_nil] at hlo
    | cons e k =>
      rw [cons_append, cons_le_cons_iff] at hlo hhi
      rcases hlo with hlt | ⟨rfl, hlo⟩
      · rcases hhi with hgt | ⟨rfl, -⟩
        · rw [UInt8.lt_iff_toNat_lt] at hlt hgt
          omega
        · simp at hlt
      · rcases hhi with hgt | ⟨-, hhi⟩
        · simp at hgt
        · exact (prefix_cons_inj d).2 (ih hlo hhi)

/-- No string of at most `n` bytes is above `n` bytes of ones. -/
theorem le_replicate_ff {n : Nat} {a : List UInt8} (h : a.length ≤ n) : a ≤ replicate n 0xFF := by
  induction n generalizing a with
  | zero =>
    rw [eq_nil_of_length_eq_zero (Nat.le_zero.1 h)]
    exact nil_le _
  | succ n ih =>
    cases a with
    | nil => exact nil_le _
    | cons b a =>
      rw [replicate_succ, cons_le_cons_iff]
      by_cases hb : b = 0xFF
      · exact Or.inr ⟨hb, ih (by simpa using h)⟩
      · refine Or.inl ?_
        have hlt := b.toNat_lt
        have hne : b.toNat ≠ 255 := fun heq => hb (UInt8.toNat_inj.1 heq)
        change b.toNat < 255
        omega

/-- Ascending lists of the same elements are equal. -/
theorem eq_of_ascending {α : Type*} {key : α → List UInt8} {xs ys : List α}
    (hx : xs.Pairwise fun a b => key a < key b) (hy : ys.Pairwise fun a b => key a < key b)
    (h : ∀ a, a ∈ xs ↔ a ∈ ys) : xs = ys := by
  have hnodup : ∀ {l : List α}, l.Pairwise (fun a b => key a < key b) → l.Nodup := by
    intro l hl
    refine hl.imp fun hab heq => ?_
    rw [heq] at hab
    exact List.lt_irrefl _ hab
  refine List.Perm.eq_of_pairwise ?_ hx hy ((perm_ext_iff_of_nodup (hnodup hx) (hnodup hy)).2 h)
  intro a b _ _ hab hba
  exact absurd (List.lt_trans hab hba) (List.lt_irrefl _)

/-! ## Strings with a terminator -/

/-- A zero byte is written as `0 1`, the end as `0 0`. -/
def escape : List UInt8 → List UInt8
  | [] => [0, 0]
  | b :: bs => if b = 0 then 0 :: 1 :: escape bs else b :: escape bs

theorem escape_zero (bs : List UInt8) : escape (0 :: bs) = 0 :: 1 :: escape bs := by
  simp [escape]

theorem escape_cons {b : UInt8} (h : b ≠ 0) (bs : List UInt8) :
    escape (b :: bs) = b :: escape bs := by
  simp [escape, h]

private theorem zero_lt_of_ne {b : UInt8} (h : b ≠ 0) : 0 < b := by
  have : b.toNat ≠ 0 := fun h0 => h (UInt8.toNat_inj.1 h0)
  exact Nat.pos_of_ne_zero this

/-- The terminator keeps the order of the strings. -/
theorem escape_lt_escape (a b : List UInt8) : escape a < escape b ↔ a < b := by
  induction a generalizing b with
  | nil =>
    cases b with
    | nil => simp
    | cons d b =>
      by_cases hd : d = 0
      · subst hd
        simp [escape, cons_lt_cons_iff]
      · rw [escape_cons hd]
        simp [escape, cons_lt_cons_iff, zero_lt_of_ne hd]
  | cons c a ih =>
    cases b with
    | nil =>
      by_cases hc : c = 0
      · subst hc
        simp [escape, cons_lt_cons_iff]
      · simp [escape, cons_lt_cons_iff, hc]
    | cons d b =>
      rw [cons_lt_cons_iff]
      by_cases hc : c = 0 <;> by_cases hd : d = 0
      · subst hc
        subst hd
        rw [escape_zero, escape_zero, cons_lt_cons_iff, cons_lt_cons_iff, ih]
        simp
      · subst hc
        rw [escape_zero, escape_cons hd, cons_lt_cons_iff]
        simp [zero_lt_of_ne hd]
      · subst hd
        rw [escape_cons hc, escape_zero, cons_lt_cons_iff]
        simp [hc]
      · rw [escape_cons hc, escape_cons hd, cons_lt_cons_iff, ih]

/-- No escaped string starts another one: the terminator does not occur inside. -/
theorem escape_prefix (h : escape a <+: escape b) : a = b := by
  induction a generalizing b with
  | nil =>
    cases b with
    | nil => rfl
    | cons d b =>
      by_cases hd : d = 0
      · subst hd
        rw [escape_zero, escape, cons_prefix_cons, cons_prefix_cons] at h
        exact absurd h.2.1 (by decide)
      · rw [escape_cons hd, escape, cons_prefix_cons] at h
        exact absurd h.1.symm hd
  | cons c a ih =>
    cases b with
    | nil =>
      by_cases hc : c = 0
      · subst hc
        rw [escape_zero, escape, cons_prefix_cons, cons_prefix_cons] at h
        exact absurd h.2.1 (by decide)
      · rw [escape_cons hc, escape, cons_prefix_cons] at h
        exact absurd h.1 hc
    | cons d b =>
      by_cases hc : c = 0 <;> by_cases hd : d = 0
      · subst hc
        subst hd
        rw [escape_zero, escape_zero, cons_prefix_cons, cons_prefix_cons] at h
        rw [ih h.2.2]
      · subst hc
        rw [escape_zero, escape_cons hd, cons_prefix_cons] at h
        exact absurd h.1.symm hd
      · subst hd
        rw [escape_cons hc, escape_zero, cons_prefix_cons] at h
        exact absurd h.1 hc
      · rw [escape_cons hc, escape_cons hd, cons_prefix_cons] at h
        rw [h.1, ih h.2]

/-- An escaped string identifies its string. -/
theorem escape_inj (h : escape a = escape b) : a = b :=
  escape_prefix (h ▸ prefix_rfl)

end ByteOrder
