/-
# Values of a record and how they are compared

The values a field can hold, the borrowed scalars the filter reads, and the two relations
filters are built on: the exact equality of canonical numeric keys (`numeric_key.rs`,
`scalar_ref_numeric_eq`) and the ordering, which compares integers with floats exactly and
leaves most pairs of different types incomparable (`scalar_ref_cmp_qv`, `compare_values`).

Texts and binaries are their bytes: `str` is compared by its UTF-8 bytes.  The wire format
gives their length in 32 bits.  The two conversions of a decimal or a big integer to a float
are those of the numeric libraries and stay parameters; they are used for ordering only.
-/
import ShamirDb.Binary64
import ShamirDb.VersionCodec
import Mathlib.Order.Compare

namespace ShamirDb.Query

open VersionCodec (bigEndian)

/-! ## Values -/

/-- A text or a binary of the wire format, whose length is a 32-bit number. -/
structure Text where
  bytes : Bytes
  short : bytes.length < 2 ^ 32
deriving DecidableEq

theorem Text.ext_bytes {a b : Text} (h : a.bytes = b.bytes) : a = b := by
  cases a
  cases b
  simpa using h

/-- A decimal: `mantissa / 10^scale`. -/
structure Decimal where
  mantissa : Int
  scale : Nat
deriving DecidableEq

/-- A value of a record (`InnerValue`, `QueryValue`); the keys of a map are interned names. -/
inductive Value where
  | null
  | bool (b : Bool)
  | int (i : Int64)
  | f64 (f : F64)
  | dec (d : Decimal)
  | big (b : Int)
  | str (s : Text)
  | bin (b : Text)
  | list (items : List Value)
  | set (items : List Value)
  | map (entries : List (Nat × Value))

/-- A scalar leaf of a record (`ScalarRef`); also the literals of a filter. -/
inductive ScalarRef where
  | null
  | bool (b : Bool)
  | int (i : Int64)
  | f64 (f : F64)
  | str (s : Text)
  | bin (b : Text)
deriving DecidableEq

/-- A scalar as a value. -/
def ScalarRef.toValue : ScalarRef → Value
  | .null => .null
  | .bool b => .bool b
  | .int i => .int i
  | .f64 f => .f64 f
  | .str s => .str s
  | .bin b => .bin b

/-- `inner_to_scalar`: decimals, big integers and containers are no scalars. -/
def Value.toScalar : Value → Option ScalarRef
  | .null => some .null
  | .bool b => some (.bool b)
  | .int i => some (.int i)
  | .f64 f => some (.f64 f)
  | .str s => some (.str s)
  | .bin b => some (.bin b)
  | _ => none

@[simp] theorem ScalarRef.toScalar_toValue (s : ScalarRef) : s.toValue.toScalar = some s := by
  cases s <;> rfl

theorem Value.toValue_of_toScalar {v : Value} {s : ScalarRef} (h : v.toScalar = some s) :
    v = s.toValue := by
  cases v <;> simp only [Value.toScalar, Option.some.injEq, reduceCtorEq] at h <;> subst h <;> rfl

/-! ## Records -/

/-- `descend_path`: the value at a path of interned names; the empty path has none. -/
def descendPath : Value → List Nat → Option Value
  | _, [] => none
  | .map entries, [k] => entries.lookup k
  | .map entries, k :: path => (entries.lookup k).bind (descendPath · path)
  | _, _ :: _ => none

/-- `RecordRef::scalar_at`. -/
def scalarAt (record : Value) (path : List Nat) : Option ScalarRef :=
  (descendPath record path).bind Value.toScalar

/-- `RecordRef::exists_at` (`present_kind_at(path).is_some()`). -/
def existsAt (record : Value) (path : List Nat) : Bool := (descendPath record path).isSome

/-- `RecordRef::is_null_at`: absent or null. -/
def isNullAt (record : Value) (path : List Nat) : Bool :=
  match descendPath record path with
  | none => true
  | some .null => true
  | some _ => false

/-! ## Integers and floats -/

/-- `cmp_i64_f64`: exact, by bounds, floor and the rest. -/
def cmpI64F64 (i : Int64) (f : F64) : Option Ordering :=
  if f.isNaN then none
  else if f.isInfinite then some (if 0 < f.scaled then .lt else .gt)
  else if f.scaled < -(2 ^ 63) * F64.one then some .gt
  else if 2 ^ 63 * F64.one ≤ f.scaled then some .lt
  else
    match compare i.toInt f.floor with
    | .eq => if f.floor * F64.one < f.scaled then some .lt else some .eq
    | other => some other

/-- The comparison is that of the exact values. -/
theorem cmpI64F64_eq (i : Int64) {f : F64} (h : f.isNaN = false) :
    cmpI64F64 i f = some (compare (i.toInt * F64.one) f.scaled) := by
  have hlo : -(2 ^ 63) ≤ i.toInt := i.le_toInt
  have hhi : i.toInt < 2 ^ 63 := i.toInt_lt
  have hone : (0 : Int) < F64.one := Int.natCast_pos.2 F64.one_pos
  have hlow : -(2 ^ 63) * (F64.one : Int) ≤ i.toInt * F64.one :=
    Int.mul_le_mul_of_nonneg_right hlo hone.le
  have hhigh : i.toInt * (F64.one : Int) < 2 ^ 63 * F64.one := Int.mul_lt_mul_of_pos_right hhi hone
  unfold cmpI64F64
  rw [h, if_neg (by decide)]
  by_cases hinf : f.isInfinite = true
  · have hval := F64.scaled_of_isInfinite hinf
    have hbig : (2 ^ 63 * F64.one : Int) < F64.units F64.infMag := by
      exact_mod_cast F64.lt_units_infMag
    rw [if_pos hinf]
    cases hs : f.sign
    · rw [hs, if_neg (by decide)] at hval
      rw [if_pos (by rw [hval]; omega), compare_lt_iff_lt.2 (by rw [hval]; omega)]
    · rw [hs, if_pos rfl] at hval
      rw [if_neg (by rw [hval]; omega), compare_gt_iff_gt.2 (by rw [hval]; omega)]
  rw [if_neg hinf]
  by_cases hbelow : f.scaled < -(2 ^ 63) * F64.one
  · rw [if_pos hbelow, compare_gt_iff_gt.2 (lt_of_lt_of_le hbelow hlow)]
  rw [if_neg hbelow]
  by_cases habove : 2 ^ 63 * F64.one ≤ f.scaled
  · rw [if_pos habove, compare_lt_iff_lt.2 (lt_of_lt_of_le hhigh habove)]
  rw [if_neg habove]
  -- between the bounds the float is its floor and a part of one
  have hfloor : f.floor * F64.one ≤ f.scaled := Int.ediv_mul_le _ hone.ne'
  have hceil : f.scaled < (f.floor + 1) * F64.one := Int.lt_ediv_add_one_mul_self _ hone
  rcases lt_trichotomy i.toInt f.floor with hlt | heq | hgt
  · rw [compare_lt_iff_lt.2 hlt]
    have := Int.mul_lt_mul_of_pos_right hlt hone
    rw [compare_lt_iff_lt.2 (by omega)]
  · rw [compare_eq_iff_eq.2 heq]
    by_cases hfrac : f.floor * F64.one < f.scaled
    · rw [if_pos hfrac, heq, compare_lt_iff_lt.2 hfrac]
    · rw [if_neg hfrac, heq, compare_eq_iff_eq.2 (by omega)]
  · rw [compare_gt_iff_gt.2 hgt]
    have := Int.mul_le_mul_of_nonneg_right (show f.floor + 1 ≤ i.toInt by omega) hone.le
    rw [compare_gt_iff_gt.2 (by omega)]

/-! ## Canonical numeric keys -/

/-- `NumericKey`: the class of equal numbers. -/
inductive NumericKey where
  | int (i : Int64)
  | bigBits (negative : Bool) (magnitudeBe : Bytes)
  | f64Bits (bits : UInt64)
deriving DecidableEq

/-- Whether a whole number is an `i64`. -/
def fitsI64 (b : Int) : Bool := decide (-(2 ^ 63) ≤ b) && decide (b < 2 ^ 63)

/-- The bytes of a magnitude, most significant first, without leading zeros. -/
def magnitudeBe (n : Nat) : Bytes := bigEndian (n.log2 / 8 + 1) n

/-- `NumericKey::from_bigint`. -/
def NumericKey.fromBigint (b : Int) : NumericKey :=
  if fitsI64 b then .int (Int64.ofInt b) else .bigBits (decide (b < 0)) (magnitudeBe b.natAbs)

/-- `NumericKey::from_f64`: a whole float of any size has the key of its value, the others
(infinities and NaNs among them) keep their bits. -/
def NumericKey.fromF64 (f : F64) : NumericKey :=
  if f.isFinite && f.isIntegral then .fromBigint (f.scaled / F64.one) else .f64Bits f.bits

/-- A decimal without trailing zeros. -/
def Decimal.strip : Nat → Int → Decimal
  | 0, m => ⟨m, 0⟩
  | scale + 1, m => if m % 10 = 0 then Decimal.strip scale (m / 10) else ⟨m, scale + 1⟩

/-- `Decimal::normalize`. -/
def Decimal.normalize (d : Decimal) : Decimal := Decimal.strip d.scale d.mantissa

/-- `NumericKey::from_decimal`: a decimal that is a whole number. -/
def NumericKey.fromDecimal (d : Decimal) : Option NumericKey :=
  if d.mantissa = 0 then some (.int 0)
  else if d.normalize.scale ≠ 0 then none
  else some (.fromBigint d.normalize.mantissa)

/-! ## Equality -/

/-- What the numeric libraries do with decimals and big integers. -/
structure NumericLib where
  /-- `Decimal::to_f64`, NaN on overflow. -/
  decToF64 : Decimal → F64
  /-- `BigInt::to_f64`, NaN on overflow. -/
  bigToF64 : Int → F64
  /-- `Decimal::from_str_exact`. -/
  parseDecimal : Bytes → Option Decimal

/-- The digits of a big integer; underscores between them are skipped. -/
def parseDigits : Bytes → Nat → Option Nat
  | [], acc => some acc
  | b :: bs, acc =>
    if b = 0x5F then parseDigits bs acc
    else if 0x30 ≤ b ∧ b ≤ 0x39 then parseDigits bs (acc * 10 + (b.toNat - 0x30))
    else none

/-- Drops one leading sign, unless a `+` follows. -/
def stripSign (sign : UInt8) : Bytes → Bytes
  | [] => []
  | b :: bs => if b = sign ∧ bs.head? ≠ some 0x2B then bs else b :: bs

/-- `BigUint::from_str`. -/
def parseBigUint (s : Bytes) : Option Nat :=
  match stripSign 0x2B s with
  | [] => none
  | b :: bs => if b = 0x5F then none else parseDigits (b :: bs) 0

/-- `BigInt::from_str`. -/
def parseBigInt (s : Bytes) : Option Int :=
  if s.head? = some 0x2D then (parseBigUint (stripSign 0x2D s)).map (fun n => -(n : Int))
  else (parseBigUint s).map (fun n => (n : Int))

/-- The canonical class of a number (`Class` in `numeric_eq_values`). -/
inductive NumericClass where
  | num (key : NumericKey)
  | decParts (mantissa : Int) (scale : Nat)
deriving DecidableEq

/-- `class` in `numeric_eq_values`. -/
def numericClass : Value → Option NumericClass
  | .int i => some (.num (.int i))
  | .f64 f => some (.num (.fromF64 f))
  | .big b => some (.num (.fromBigint b))
  | .dec d =>
    match NumericKey.fromDecimal d with
    | some key => some (.num key)
    | none => some (.decParts d.normalize.mantissa d.normalize.scale)
  | _ => none

def Value.isNaN : Value → Bool
  | .f64 f => f.isNaN
  | _ => false

/-- `numeric_eq_values`. -/
def numericEqValues (a b : Value) : Bool :=
  match numericClass a, numericClass b with
  | some x, some y => decide (x = y) && !a.isNaN && !b.isNaN
  | _, _ =>
    match a, b with
    | .null, .null => true
    | .bool x, .bool y => x == y
    | .str x, .str y => decide (x = y)
    | .bin x, .bin y => decide (x = y)
    | .big x, .str y => decide (parseBigInt y.bytes = some x)
    | .str y, .big x => decide (parseBigInt y.bytes = some x)
    | _, _ => false

/-- The numeric key of a scalar. -/
def ScalarRef.numericKey : ScalarRef → Option NumericKey
  | .int i => some (.int i)
  | .f64 f => some (.fromF64 f)
  | _ => none

/-- The numeric key of a filter operand. -/
def Value.numericKey : Value → Option NumericKey
  | .int i => some (.int i)
  | .f64 f => some (.fromF64 f)
  | .big b => some (.fromBigint b)
  | .dec d => NumericKey.fromDecimal d
  | _ => none

/-- `scalar_ref_numeric_eq`: the exact equality of a scalar and an operand. -/
def scalarRefNumericEq (lib : NumericLib) (a : ScalarRef) (b : Value) : Bool :=
  match a.numericKey, b.numericKey with
  | some x, some y => decide (x = y) && !a.toValue.isNaN && !b.isNaN
  | _, _ =>
    match a, b with
    | .null, .null => true
    | .bool x, .bool y => x == y
    | .str x, .str y => decide (x = y)
    | .str x, .dec d =>
      match lib.parseDecimal x.bytes with
      | some parsed =>
        match NumericKey.fromDecimal parsed, NumericKey.fromDecimal d with
        | some xk, some yk => decide (xk = yk)
        | none, none => decide (parsed.normalize = d.normalize)
        | _, _ => false
      | none => false
    | .str x, .big b =>
      match parseBigInt x.bytes with
      | some parsed => decide (NumericKey.fromBigint parsed = NumericKey.fromBigint b)
      | none => false
    | .bin x, .bin y => decide (x = y)
    | _, _ => false

/-! ## Ordering -/

/-- Exact comparison of two decimals. -/
def Decimal.cmp (a b : Decimal) : Ordering :=
  compare (a.mantissa * 10 ^ b.scale) (b.mantissa * 10 ^ a.scale)

/-- `cmp_big_dec`. -/
def cmpBigDec (big : Int) (dec : Decimal) : Ordering :=
  compare (big * 10 ^ dec.scale) dec.mantissa

/-- The order of texts is that of their bytes. -/
def Text.cmp (a b : Text) : Ordering :=
  if a.bytes < b.bytes then .lt else if a.bytes = b.bytes then .eq else .gt

/-- The order of `bool`. -/
def cmpBool (a b : Bool) : Ordering := compare a b

/-- `scalar_ref_cmp_qv`: the order of a scalar and an operand, `none` for most pairs of
different types. -/
def scalarRefCmpQv (lib : NumericLib) : ScalarRef → Value → Option Ordering
  | .null, .null => some .eq
  | .bool a, .bool b => some (cmpBool a b)
  | .int a, .int b => some (compare a.toInt b.toInt)
  | .int a, .f64 b => cmpI64F64 a b
  | .f64 a, .int b => (cmpI64F64 b a).map Ordering.swap
  | .f64 a, .f64 b => a.partialCmp b
  | .str a, .str b => some (a.cmp b)
  | .int a, .dec b => some (Decimal.cmp ⟨a.toInt, 0⟩ b)
  | .f64 a, .dec b => a.partialCmp (lib.decToF64 b)
  | .int a, .big b => some (compare a.toInt b)
  | .f64 a, .big b => a.partialCmp (lib.bigToF64 b)
  | .bin a, .bin b => some (a.cmp b)
  | _, _ => none

/-- `compare_values`. -/
def compareValues (lib : NumericLib) : Value → Value → Option Ordering
  | .null, .null => some .eq
  | .bool a, .bool b => some (cmpBool a b)
  | .int a, .int b => some (compare a.toInt b.toInt)
  | .int a, .f64 b => cmpI64F64 a b
  | .f64 a, .int b => (cmpI64F64 b a).map Ordering.swap
  | .f64 a, .f64 b => a.partialCmp b
  | .str a, .str b => some (a.cmp b)
  | .dec a, .dec b => some (a.cmp b)
  | .int a, .dec b => some (Decimal.cmp ⟨a.toInt, 0⟩ b)
  | .dec a, .int b => some (a.cmp ⟨b.toInt, 0⟩)
  | .f64 a, .dec b => a.partialCmp (lib.decToF64 b)
  | .dec a, .f64 b => (lib.decToF64 a).partialCmp b
  | .big a, .big b => some (compare a b)
  | .int a, .big b => some (compare a.toInt b)
  | .big a, .int b => some (compare a b.toInt)
  | .f64 a, .big b => a.partialCmp (lib.bigToF64 b)
  | .big a, .f64 b => (lib.bigToF64 a).partialCmp b
  | .dec a, .big b => some (cmpBigDec b a).swap
  | .big a, .dec b => some (cmpBigDec a b)
  | .big a, .str b => (parseBigInt b.bytes).map (compare a)
  | .str a, .big b => (parseBigInt a.bytes).map (compare · b)
  | .bin a, .bin b => some (a.cmp b)
  | _, _ => none

/-! ## Classes of equal values

What both equalities amount to on the literals of a filter: each value that equals anything
has a class, and equal values are those of one class.  Only a big integer is also equal to
the texts that spell it. -/

/-- The class of a value under the equality of filters. -/
inductive EqClass where
  | null
  | bool (b : Bool)
  | num (c : NumericClass)
  | str (s : Text)
  | bin (b : Text)
deriving DecidableEq

/-- NaN and containers equal nothing. -/
def Value.eqClass : Value → Option EqClass
  | .null => some .null
  | .bool b => some (.bool b)
  | .str s => some (.str s)
  | .bin b => some (.bin b)
  | .int i => some (.num (.num (.int i)))
  | .f64 f => if f.isNaN then none else some (.num (.num (.fromF64 f)))
  | .dec d => (numericClass (.dec d)).map .num
  | .big b => some (.num (.num (.fromBigint b)))
  | .list _ | .set _ | .map _ => none

/-- A big integer and a text that spells it. -/
def Spelled : Value → ScalarRef → Prop
  | .big b, .str s => parseBigInt s.bytes = some b
  | _, _ => False

/-- `scalar_ref_numeric_eq` on a literal is equality of classes. -/
theorem scalarRefNumericEq_iff (lib : NumericLib) (a lit : ScalarRef) :
    scalarRefNumericEq lib a lit.toValue = true ↔
      a.toValue.eqClass = lit.toValue.eqClass ∧ a.toValue.eqClass ≠ none := by
  cases a <;> cases lit <;>
    simp [scalarRefNumericEq, ScalarRef.numericKey, Value.numericKey, ScalarRef.toValue,
      Value.eqClass, Value.isNaN]
  case int.f64 => exact and_comm
  all_goals
    repeat' split
    all_goals simp_all

/-- A big integer and a text that spells it, in either order. -/
def Value.Spells : Value → Value → Prop
  | .big b, .str s | .str s, .big b => parseBigInt s.bytes = some b
  | _, _ => False

theorem eqClass_of_numericClass {v : Value} {c : NumericClass} (h : numericClass v = some c) :
    v.eqClass = if v.isNaN then none else some (.num c) := by
  cases v <;> simp_all [numericClass, Value.eqClass, Value.isNaN]
  rfl

/-- `numeric_eq_values` is equality of classes, or a text that spells a big integer. -/
theorem numericEqValues_iff_spells (v w : Value) :
    numericEqValues v w = true ↔
      (v.eqClass = w.eqClass ∧ v.eqClass ≠ none) ∨ v.Spells w := by
  unfold numericEqValues
  split
  · -- two numbers
    rename_i x y hx hy
    have hspells : ¬ v.Spells w := by
      intro h
      cases v <;> cases w <;> first | exact h | simp [numericClass] at hx hy
    rw [eqClass_of_numericClass hx, eqClass_of_numericClass hy]
    cases v.isNaN <;> cases w.isNaN <;> simp [hspells]
  · cases v <;> cases w <;> simp_all [numericClass, Value.eqClass, Value.Spells] <;> grind

/-- `numeric_eq_values` with a literal. -/
theorem numericEqValues_iff (v : Value) (lit : ScalarRef) :
    numericEqValues v lit.toValue = true ↔
      (v.eqClass = lit.toValue.eqClass ∧ v.eqClass ≠ none) ∨ Spelled v lit := by
  rw [numericEqValues_iff_spells]
  cases v <;> cases lit <;> rfl

end ShamirDb.Query
