/-
# The order-preserving code

The codes of scalars in a sorted index (`sort_codec.rs`): a tag for the type and a payload
whose byte order is the order inside the type.  The order of the codes is the documented one,
`Null < Bool < Int < Float < String < Binary` and the native order within a type, with the
negative zero before the positive one.  No code starts another one, so that the id of a row
may follow it in a key.
-/
import ShamirDb.QueryValues
import ShamirDb.ByteOrder

namespace ShamirDb.Query

open List

open VersionCodec (bigEndian bigEndian_inj)

/-! ## Codes -/

def sortTagNull : UInt8 := 0x10
def sortTagBool : UInt8 := 0x20
def sortTagI64 : UInt8 := 0x30
def sortTagF64 : UInt8 := 0x40
def sortTagStr : UInt8 := 0x50
def sortTagBytes : UInt8 := 0x60

/-- `encode_bool`. -/
def encodeBool (b : Bool) : Bytes := [sortTagBool, if b then 1 else 0]

/-- `encode_i64`: the sign bit is flipped. -/
def encodeI64 (v : Int64) : Bytes :=
  sortTagI64 :: bigEndian 8 (v.toUInt64 ^^^ ((1 : UInt64) <<< 63)).toNat

/-- `encode_f64`: refuses NaN. -/
def encodeF64 (f : F64) : Option Bytes :=
  if f.isNaN then none else some (sortTagF64 :: bigEndian 8 f.sortBits.toNat)

/-- `encode_str`. -/
def encodeStr (s : Text) : Bytes := sortTagStr :: ByteOrder.escape s.bytes

/-- `encode_bytes`. -/
def encodeBytes (b : Text) : Bytes := sortTagBytes :: ByteOrder.escape b.bytes

/-- The code of a scalar (`extract_and_encode`, `encode_filter_value_for_sort`). -/
def encodeForSort : ScalarRef → Option Bytes
  | .null => some [sortTagNull]
  | .bool b => some (encodeBool b)
  | .int i => some (encodeI64 i)
  | .f64 f => encodeF64 f
  | .str s => some (encodeStr s)
  | .bin b => some (encodeBytes b)

/-! ## The order of the index -/

/-- The place of a type in the order of the index. -/
def ScalarRef.rank : ScalarRef → Nat
  | .null => 0
  | .bool _ => 1
  | .int _ => 2
  | .f64 _ => 3
  | .str _ => 4
  | .bin _ => 5

/-- The order inside a type. -/
def ScalarRef.nativeLt : ScalarRef → ScalarRef → Bool
  | .bool a, .bool b => !a && b
  | .int a, .int b => decide (a.toInt < b.toInt)
  | .f64 a, .f64 b =>
    decide (a.scaled < b.scaled) || (decide (a.scaled = b.scaled) && (a.sign && !b.sign))
  | .str a, .str b => decide (a.bytes < b.bytes)
  | .bin a, .bin b => decide (a.bytes < b.bytes)
  | _, _ => false

/-- The order of the index. -/
def ScalarRef.sortLt (a b : ScalarRef) : Bool :=
  decide (a.rank < b.rank) || (decide (a.rank = b.rank) && a.nativeLt b)

def ScalarRef.sortLe (a b : ScalarRef) : Bool := !b.sortLt a

/-! ## Codes are in the order of the index -/

/-- The first byte of a code. -/
def ScalarRef.sortTag : ScalarRef → UInt8
  | .null => sortTagNull
  | .bool _ => sortTagBool
  | .int _ => sortTagI64
  | .f64 _ => sortTagF64
  | .str _ => sortTagStr
  | .bin _ => sortTagBytes

/-- The rest of a code. -/
def ScalarRef.payload : ScalarRef → Bytes
  | .null => []
  | .bool b => [if b then 1 else 0]
  | .int i => bigEndian 8 (i.toUInt64 ^^^ ((1 : UInt64) <<< 63)).toNat
  | .f64 f => bigEndian 8 f.sortBits.toNat
  | .str s => ByteOrder.escape s.bytes
  | .bin b => ByteOrder.escape b.bytes

/-- A scalar that is not NaN is its tag and payload. -/
theorem encodeForSort_eq_some {a : ScalarRef} {x : Bytes} :
    encodeForSort a = some x ↔ a.toValue.isNaN = false ∧ x = a.sortTag :: a.payload := by
  cases a
  case f64 f =>
    change encodeF64 f = some x ↔ f.isNaN = false ∧ x = _
    rw [encodeF64]
    cases f.isNaN
    · simp only [Bool.false_eq_true, ↓reduceIte, Option.some.injEq, true_and]
      exact eq_comm
    · simp
  all_goals
    simp only [encodeForSort, ScalarRef.toValue, Value.isNaN, Option.some.injEq, true_and]
    exact eq_comm

/-- Big-endian bytes compare as numbers. -/
theorem bigEndian_lt_iff {k m n : Nat} (hm : m < 256 ^ k) (hn : n < 256 ^ k) :
    bigEndian k m < bigEndian k n ↔ m < n := by
  constructor
  · intro h
    by_contra hle
    rcases Nat.lt_or_eq_of_le (Nat.not_lt.1 hle) with hlt | rfl
    · exact List.lt_irrefl _ (List.lt_trans h (VersionCodec.bigEndian_lt hlt hm))
    · exact List.lt_irrefl _ h
  · exact fun h => VersionCodec.bigEndian_lt h hn

/-- Flipping the sign bit adds `2^63`. -/
theorem toNat_flipSign (i : Int64) :
    ((i.toUInt64 ^^^ ((1 : UInt64) <<< 63)).toNat : Int) = i.toInt + 2 ^ 63 := by
  have htop : ((1 : UInt64) <<< 63).toNat = 2 ^ 63 := by decide
  have hlt := i.toUInt64.toNat_lt
  have hint : i.toInt = if 2 * i.toUInt64.toNat < 2 ^ 64 then (i.toUInt64.toNat : Int)
      else (i.toUInt64.toNat : Int) - (2 ^ 64 : Nat) := BitVec.toInt_eq_toNat_cond _
  rw [UInt64.toNat_xor, htop, F64.xor_top hlt, hint]
  by_cases h : i.toUInt64.toNat < 2 ^ 63
  · rw [if_pos h, if_pos (by omega)]
    rfl
  · rw [if_neg h]
    omega

theorem sortTag_lt_iff (a b : ScalarRef) : a.sortTag < b.sortTag ↔ a.rank < b.rank := by
  cases a <;> cases b <;> simp only [ScalarRef.sortTag, ScalarRef.rank] <;> decide

theorem sortTag_eq_iff (a b : ScalarRef) : a.sortTag = b.sortTag ↔ a.rank = b.rank := by
  cases a <;> cases b <;> simp only [ScalarRef.sortTag, ScalarRef.rank] <;> decide

variable {a b : ScalarRef} {x y : Bytes}

/-- Payloads of one rank compare as values. -/
theorem payload_lt_iff (h : a.rank = b.rank) : a.payload < b.payload ↔ a.nativeLt b = true := by
  cases a <;> cases b <;> try exact absurd h (Nat.ne_of_beq_eq_false rfl)
  case null.null => simp [ScalarRef.nativeLt]
  case bool.bool a b => revert a b; decide
  case int.int i j =>
    have hi := toNat_flipSign i
    have hj := toNat_flipSign j
    simp only [ScalarRef.payload, ScalarRef.nativeLt, decide_eq_true_eq]
    rw [bigEndian_lt_iff (UInt64.toNat_lt _) (UInt64.toNat_lt _)]
    omega
  case f64.f64 f g =>
    simp only [ScalarRef.payload, ScalarRef.nativeLt, Bool.or_eq_true, Bool.and_eq_true,
      decide_eq_true_eq, Bool.not_eq_true']
    rw [bigEndian_lt_iff (UInt64.toNat_lt _) (UInt64.toNat_lt _), F64.sortBits_lt_iff]
  case str.str s t | bin.bin s t =>
    simp only [ScalarRef.nativeLt, decide_eq_true_eq]
    exact ByteOrder.escape_lt_escape _ _

section

variable (hx : encodeForSort a = some x) (hy : encodeForSort b = some y)
include hx hy

/-- **The code keeps the order of the index.** -/
theorem encodeForSort_lt_iff : x < y ↔ a.sortLt b = true := by
  obtain ⟨-, rfl⟩ := encodeForSort_eq_some.1 hx
  obtain ⟨-, rfl⟩ := encodeForSort_eq_some.1 hy
  rw [cons_lt_cons_iff, sortTag_lt_iff, sortTag_eq_iff, ScalarRef.sortLt]
  simp only [Bool.or_eq_true, Bool.and_eq_true, decide_eq_true_eq]
  exact or_congr_right (and_congr_right fun h => payload_lt_iff h)

/-- Codes compare as scalars. -/
theorem encodeForSort_le_iff : x ≤ y ↔ a.sortLe b = true := by
  rw [← List.not_lt, encodeForSort_lt_iff hy hx, ScalarRef.sortLe, Bool.not_eq_true',
    Bool.not_eq_true]

/-- **No code starts another one.** -/
theorem encodeForSort_prefixFree (h : x <+: y) : x = y := by
  obtain ⟨-, rfl⟩ := encodeForSort_eq_some.1 hx
  obtain ⟨-, rfl⟩ := encodeForSort_eq_some.1 hy
  rw [cons_prefix_cons] at h
  obtain ⟨htag, hpayload⟩ := h
  rw [htag]
  rw [sortTag_eq_iff] at htag
  congr 1
  cases a <;> cases b <;> try exact absurd htag (Nat.ne_of_beq_eq_false rfl)
  case str.str s t | bin.bin s t =>
    simp only [ScalarRef.payload]
    rw [ByteOrder.escape_prefix hpayload]
  all_goals exact hpayload.eq_of_length (by simp [ScalarRef.payload])

end

/-- A code identifies its scalar. -/
theorem encodeForSort_inj {x : Bytes} (ha : encodeForSort a = some x)
    (hb : encodeForSort b = some x) : a = b := by
  obtain ⟨-, rfl⟩ := encodeForSort_eq_some.1 ha
  obtain ⟨-, h⟩ := encodeForSort_eq_some.1 hb
  rw [cons.injEq] at h
  obtain ⟨htag, hpayload⟩ := h
  rw [sortTag_eq_iff] at htag
  cases a <;> cases b <;> try exact absurd htag (Nat.ne_of_beq_eq_false rfl)
  case null.null => rfl
  case bool.bool a b => revert a b; decide
  case int.int i j =>
    have hbits := bigEndian_inj (UInt64.toNat_lt _) (UInt64.toNat_lt _) hpayload
    have hi := toNat_flipSign i
    have hj := toNat_flipSign j
    have hij : i.toInt = j.toInt := by
      omega
    rw [Int64.toInt_inj.1 hij]
  case f64.f64 f g =>
    have hbits := bigEndian_inj (UInt64.toNat_lt _) (UInt64.toNat_lt _) hpayload
    rw [F64.sortBits_inj (UInt64.toNat_inj.1 hbits)]
  case str.str s t => rw [Text.ext_bytes (ByteOrder.escape_inj hpayload)]
  case bin.bin s t => rw [Text.ext_bytes (ByteOrder.escape_inj hpayload)]

end ShamirDb.Query
