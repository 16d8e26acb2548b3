/-
# Binary interchange floats of 64 bits

A float is its 64 bits.  Every float that is not a NaN stands for a whole number of units of
`2^-1074`, the smallest positive float; infinity is the next step after the largest finite
magnitude, so that comparing these numbers is comparing the floats.  The magnitude is
strictly increasing in the bits below the sign, which is why the usual transform of the bits
(all of them flipped for negative floats, the sign flipped for the others) sorts floats as
unsigned words, up to the two zeros.
-/
import Mathlib.Tactic.Common
import Mathlib.Tactic.Ring
import Mathlib.Tactic.Positivity
import Mathlib.Order.Basic
import Mathlib.Data.Int.Order.Basic
import Mathlib.Data.Nat.Log

/-- An `f64`, by its bits. -/
structure F64 where
  bits : UInt64
deriving DecidableEq

namespace F64

open Nat

/-! ## Fields and value -/

/-- The sign bit. -/
def sign (f : F64) : Bool := decide (2 ^ 63 ≤ f.bits.toNat)

/-- The bits below the sign. -/
def mag (f : F64) : Nat := f.bits.toNat % 2 ^ 63

/-- The magnitude with the exponent field all ones and no fraction: infinity. -/
def infMag : Nat := 2047 * 2 ^ 52

/-- `f64::is_nan`. -/
def isNaN (f : F64) : Bool := decide (infMag < f.mag)

/-- `f64::is_finite`. -/
def isFinite (f : F64) : Bool := decide (f.mag < infMag)

/-- `f64::is_infinite`. -/
def isInfinite (f : F64) : Bool := decide (f.mag = infMag)

/-- The magnitude in units of `2^-1074`: the fraction, with the hidden bit and shifted by
the exponent field unless that field is zero. -/
def units (m : Nat) : Nat :=
  if m / 2 ^ 52 = 0 then m % 2 ^ 52
  else (2 ^ 52 + m % 2 ^ 52) * 2 ^ (m / 2 ^ 52 - 1)

/-- The value in units of `2^-1074`. -/
def scaled (f : F64) : Int := if f.sign then -(units f.mag : Int) else units f.mag

/-- How many units make one. -/
def one : Nat := 2 ^ 1074

theorem one_pos : 0 < one := by
  unfold one
  positivity

/-- `f64::partial_cmp`. -/
def partialCmp (a b : F64) : Option Ordering :=
  if a.isNaN || b.isNaN then none else some (compare a.scaled b.scaled)

/-- `f64 == f64`. -/
def beq (a b : F64) : Bool := !a.isNaN && !b.isNaN && decide (a.scaled = b.scaled)

/-- `f64::floor` of a finite float, as the whole number it is. -/
def floor (f : F64) : Int := f.scaled / one

/-- `f64::fract(f) == 0.0` for a finite float. -/
def isIntegral (f : F64) : Bool := decide (f.scaled % one = 0)

/-- `i64 as f64`: to nearest, ties to even. -/
def ofInt (n : Int) : F64 :=
  let a := n.natAbs
  let len := a.log2
  let signBit := if n < 0 then 2 ^ 63 else 0
  if a = 0 then ⟨0⟩
  else if len ≤ 52 then
    ⟨UInt64.ofNat (signBit + (len + 1023) * 2 ^ 52 + (a * 2 ^ (52 - len) - 2 ^ 52))⟩
  else
    let s := len - 52
    let q := a / 2 ^ s
    let r := a % 2 ^ s
    let up := if 2 ^ (s - 1) < r ∨ (r = 2 ^ (s - 1) ∧ q % 2 = 1) then 1 else 0
    -- a carry out of the fraction goes into the exponent field, as it should
    ⟨UInt64.ofNat (signBit + (len + 1023) * 2 ^ 52 + (q + up - 2 ^ 52))⟩

/-- Sign and magnitude make the bits. -/
theorem toNat_bits (f : F64) : f.bits.toNat = (if f.sign then 2 ^ 63 else 0) + f.mag := by
  have := f.bits.toNat_lt
  unfold sign mag
  by_cases h : 2 ^ 63 ≤ f.bits.toNat
  · rw [if_pos (by simpa using h)]
    omega
  · rw [if_neg (by simpa using h)]
    omega

variable {a b : F64}

/-- A float is its sign and magnitude. -/
theorem ext_fields (hs : a.sign = b.sign) (hm : a.mag = b.mag) : a = b := by
  have h : a.bits.toNat = b.bits.toNat := by rw [toNat_bits, toNat_bits, hs, hm]
  rw [F64.mk.injEq]
  exact UInt64.toNat_inj.1 h

theorem mag_lt (f : F64) : f.mag < 2 ^ 63 := mod_lt _ (by decide)

/-! ## The magnitude is strictly increasing -/

/-- The step to the next word is the unit of its binade. -/
theorem units_lt_succ (m : Nat) : units m < units (m + 1) := by
  unfold units
  by_cases hcarry : m % 2 ^ 52 + 1 = 2 ^ 52
  · -- the fraction is full: the next word starts the next binade
    have hdiv : (m + 1) / 2 ^ 52 = m / 2 ^ 52 + 1 := by omega
    have hrem : (m + 1) % 2 ^ 52 = 0 := by omega
    rw [hdiv, hrem, if_neg (Nat.succ_ne_zero _)]
    by_cases hzero : m / 2 ^ 52 = 0
    · rw [if_pos hzero, hzero]
      omega
    obtain ⟨e, he⟩ : ∃ e, m / 2 ^ 52 = e + 1 := ⟨m / 2 ^ 52 - 1, by omega⟩
    rw [he]
    have hpos : 0 < 2 ^ e := Nat.two_pow_pos e
    calc (2 ^ 52 + m % 2 ^ 52) * 2 ^ e < (2 ^ 52 * 2) * 2 ^ e :=
          Nat.mul_lt_mul_of_pos_right (by omega) hpos
      _ = 2 ^ 52 * (2 ^ e * 2) := by ring
  · have hdiv : (m + 1) / 2 ^ 52 = m / 2 ^ 52 := by omega
    rw [hdiv]
    by_cases hzero : m / 2 ^ 52 = 0
    · rw [if_pos hzero, if_pos hzero]
      omega
    · rw [if_neg hzero, if_neg hzero]
      exact Nat.mul_lt_mul_of_pos_right (by omega) (Nat.two_pow_pos _)

/-- The value grows with the magnitude. -/
theorem units_strictMono : StrictMono units := strictMono_nat_of_lt_succ units_lt_succ

theorem units_inj {m n : Nat} : units m = units n ↔ m = n := units_strictMono.injective.eq_iff

theorem units_zero : units 0 = 0 := by decide

theorem units_eq_zero {m : Nat} : units m = 0 ↔ m = 0 := by
  conv_lhs => rw [← units_zero]
  exact units_inj

/-! ## Order of the values -/

/-- Two floats have one value exactly if they have the same bits or are the two zeros. -/
theorem scaled_eq_iff : a.scaled = b.scaled ↔ a = b ∨ (a.mag = 0 ∧ b.mag = 0) := by
  unfold scaled
  constructor
  · intro h
    cases ha : a.sign <;> cases hb : b.sign <;> rw [ha, hb] at h
    · rw [if_neg (by decide), if_neg (by decide)] at h
      exact .inl (ext_fields (ha.trans hb.symm) (units_inj.1 (by exact_mod_cast h)))
    · rw [if_neg (by decide), if_pos rfl] at h
      exact .inr ⟨units_eq_zero.1 (by omega), units_eq_zero.1 (by omega)⟩
    · rw [if_pos rfl, if_neg (by decide)] at h
      exact .inr ⟨units_eq_zero.1 (by omega), units_eq_zero.1 (by omega)⟩
    · exact .inl (ext_fields (ha.trans hb.symm) (units_inj.1 (by omega)))
  · rintro (rfl | ⟨ha, hb⟩)
    · rfl
    · rw [ha, hb, units_zero]
      simp

/-- Infinity and the NaNs included, every magnitude is below `2^2100`. -/
theorem units_lt (m : Nat) (h : m < 2 ^ 63) : units m < 2 ^ 53 * 2 ^ 2047 := by
  have hexp : m / 2 ^ 52 - 1 ≤ 2047 := by omega
  have hpow : ∀ a b : Nat, a ≤ b → 2 ^ a ≤ 2 ^ b := fun a b => Nat.pow_le_pow_right (by decide)
  unfold units
  split
  · omega
  · exact Nat.mul_lt_mul_of_lt_of_le (by omega) (hpow _ _ hexp) (by positivity)

/-- Infinity is beyond every 64-bit integer. -/
theorem lt_units_infMag : 2 ^ 63 * one < units infMag := by
  have hexp : infMag / 2 ^ 52 = 2047 := by decide
  have hfrac : infMag % 2 ^ 52 = 0 := by decide
  have hpow : ∀ a b c d : Nat, a + b < c + d → 2 ^ a * 2 ^ b < 2 ^ c * 2 ^ d := by
    intro a b c d h
    rw [← pow_add, ← pow_add]
    exact Nat.pow_lt_pow_right (by decide) h
  rw [units, hexp, hfrac, Nat.add_zero, one]
  exact hpow 63 1074 52 (2047 - 1) (by decide)

theorem scaled_of_isInfinite {f : F64} (h : f.isInfinite = true) :
    f.scaled = if f.sign then -(units infMag : Int) else units infMag := by
  have hmag : f.mag = infMag := of_decide_eq_true h
  rw [scaled, hmag]

/-! ## Sorting by bits -/

/-- Flipping the top bit of a word. -/
theorem xor_top {x : Nat} (h : x < 2 ^ 64) :
    x ^^^ 2 ^ 63 = if x < 2 ^ 63 then x + 2 ^ 63 else x - 2 ^ 63 := by
  -- below the top bit nothing changes, so the flip adds the bit where it is missing
  have hadd : ∀ y, y < 2 ^ 63 → y ^^^ 2 ^ 63 = y + 2 ^ 63 := by
    intro y hy
    have hor := two_pow_add_eq_or_of_lt hy 1
    rw [mul_one] at hor
    rw [add_comm, hor]
    apply eq_of_testBit_eq
    intro j
    rw [testBit_xor, testBit_or, testBit_two_pow]
    by_cases hj : 63 = j
    · subst hj
      rw [testBit_lt_two_pow hy]
      simp
    · simp [hj]
  by_cases hx : x < 2 ^ 63
  · rw [if_pos hx, hadd x hx]
  · rw [if_neg hx]
    have hy := hadd (x - 2 ^ 63) (by omega)
    rw [Nat.sub_add_cancel (Nat.not_lt.1 hx)] at hy
    calc x ^^^ 2 ^ 63 = ((x - 2 ^ 63) ^^^ 2 ^ 63) ^^^ 2 ^ 63 := by rw [hy]
      _ = x - 2 ^ 63 := by rw [Nat.xor_assoc, Nat.xor_self, Nat.xor_zero]

/-- The word whose unsigned order is the order of the floats: every bit flipped for a
negative float, the sign bit flipped for the others. -/
def sortBits (f : F64) : UInt64 :=
  if (f.bits >>> 63) &&& 1 = 1 then ~~~ f.bits else f.bits ^^^ ((1 : UInt64) <<< 63)

/-- The sign is the top bit. -/
theorem sign_iff_shift (f : F64) : (f.bits >>> 63) &&& 1 = 1 ↔ f.sign = true := by
  have hlt := f.bits.toNat_lt
  rw [← UInt64.toNat_inj, UInt64.toNat_and, UInt64.toNat_shiftRight]
  have h63 : (63 : UInt64).toNat % 64 = 63 := by decide
  have h1 : (1 : UInt64).toNat = 1 := by decide
  rw [h63, h1, and_one_is_mod, sign, decide_eq_true_iff]
  omega

/-- The sort bits as a number. -/
theorem toNat_sortBits (f : F64) :
    f.sortBits.toNat = if f.sign then 2 ^ 63 - 1 - f.mag else 2 ^ 63 + f.mag := by
  have hbits := f.toNat_bits
  have hmag := f.mag_lt
  unfold sortBits
  by_cases h : f.sign = true
  · rw [if_pos (f.sign_iff_shift.2 h), UInt64.toNat_not, if_pos h]
    rw [if_pos h] at hbits
    have : UInt64.size = 2 ^ 64 := rfl
    omega
  · rw [if_neg (fun hs => h (f.sign_iff_shift.1 hs)), UInt64.toNat_xor, if_neg h]
    rw [if_neg h, zero_add] at hbits
    have htop : ((1 : UInt64) <<< 63).toNat = 2 ^ 63 := by decide
    rw [htop, xor_top f.bits.toNat_lt, if_pos (by omega), hbits, add_comm]

/-- The sorted words are in the order of the values, the negative zero before the other. -/
theorem sortBits_lt_iff (a b : F64) :
    a.sortBits.toNat < b.sortBits.toNat ↔
      a.scaled < b.scaled ∨ (a.scaled = b.scaled ∧ a.sign = true ∧ b.sign = false) := by
  have ha := a.mag_lt
  rw [toNat_sortBits, toNat_sortBits, scaled, scaled]
  have hlt : ∀ m n : Nat, units m < units n ↔ m < n := fun m n => units_strictMono.lt_iff_lt
  cases hsa : a.sign <;> cases hsb : b.sign
  · simp only [Bool.false_eq_true, if_false, false_and, and_false, or_false, cast_lt, hlt]
    omega
  · simp only [Bool.false_eq_true, if_false, if_true, false_and, and_false, or_false]
    omega
  · simp only [Bool.false_eq_true, if_false, if_true, and_true]
    omega
  · simp only [if_true, Bool.true_eq_false, and_false, or_false, neg_lt_neg_iff, cast_lt, hlt]
    omega

/-- Sort bits identify the float. -/
theorem sortBits_inj (h : a.sortBits = b.sortBits) : a = b := by
  have ha := a.mag_lt
  have hb := b.mag_lt
  have hn := congrArg UInt64.toNat h
  rw [toNat_sortBits, toNat_sortBits] at hn
  cases hsa : a.sign <;> cases hsb : b.sign <;>
    simp only [hsa, hsb, Bool.false_eq_true, if_false, if_true] at hn
  · exact ext_fields (hsa.trans hsb.symm) (by omega)
  · omega
  · omega
  · exact ext_fields (hsa.trans hsb.symm) (by omega)

end F64
