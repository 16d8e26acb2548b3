/-
# Decimal keys padded with zeros

A number written with at least `width` decimal digits, highest digit first.  Keys of this
kind are compared as texts; below `10 ^ width` that is the order of the numbers
(`textLe_key`), from there on it is not.
-/
import Mathlib.Data.Nat.Log
import Mathlib.Tactic.Ring

namespace PaddedKeys

/-- The lowest `width` decimal digits of `n`, highest first. -/
def digits : Nat → Nat → List Nat
  | 0, _ => []
  | width + 1, n => n / 10 ^ width % 10 :: digits width n

/-- `n` in decimal, filled up with zeros to `width` digits. -/
def key (width n : Nat) : List Nat := digits (max width (Nat.log 10 n + 1)) n

/-- The order of texts. -/
def textLe : List Nat → List Nat → Bool
  | [], _ => true
  | _ :: _, [] => false
  | a :: as, b :: bs => decide (a < b) || (decide (a = b) && textLe as bs)

variable {width n : Nat}

/-- Padded numbers compare as texts. -/
theorem textLe_digits {m : Nat} (h : n % 10 ^ width ≤ m % 10 ^ width) :
    textLe (digits width n) (digits width m) = true := by
  induction width with
  | zero => rfl
  | succ width ih =>
    rw [Nat.mod_pow_succ, Nat.mod_pow_succ] at h
    rw [digits, digits, textLe, Bool.or_eq_true, Bool.and_eq_true, decide_eq_true_iff,
      decide_eq_true_iff]
    rcases Nat.lt_trichotomy (n / 10 ^ width % 10) (m / 10 ^ width % 10) with hlt | heq | hgt
    · exact Or.inl hlt
    · rw [heq] at h
      exact Or.inr ⟨heq, ih (by omega)⟩
    · -- a larger first digit outweighs the others
      have hmul := Nat.mul_le_mul_left (10 ^ width) (Nat.succ_le_of_lt hgt)
      rw [Nat.mul_succ] at hmul
      omega

/-- A number that fits has all its digits. -/
theorem key_of_lt (hw : 0 < width) (h : n < 10 ^ width) : key width n = digits width n := by
  have hlog : Nat.log 10 n + 1 ≤ width := Nat.log_lt_of_lt_pow' (by omega) h
  rw [key, Nat.max_eq_left hlog]

/-- **Below `10 ^ width` the keys are ordered as the numbers.** -/
theorem textLe_key {m : Nat} (hnm : n ≤ m) (hm : m < 10 ^ width) (hw : 0 < width) :
    textLe (key width n) (key width m) = true := by
  have hn := Nat.lt_of_le_of_lt hnm hm
  rw [key_of_lt hw hn, key_of_lt hw hm]
  apply textLe_digits
  rwa [Nat.mod_eq_of_lt hm, Nat.mod_eq_of_lt hn]

/-- One digit more, and the texts are in the other order. -/
example : textLe (key 2 99) (key 2 100) = false := by decide

end PaddedKeys
