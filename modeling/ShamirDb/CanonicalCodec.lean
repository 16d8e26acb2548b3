/-
# Canonical codes of indexed values

The bytes by which a hash index decides equality (`canonical.rs`, `index_keys.rs`): a tag and
a self-delimiting payload for each class of equal values, concatenated in path order for a
composite index.  The main result ties these bytes to the equality of filters: the code of a
record and that of a list of literals agree exactly if the record holds, at each path, a value
of the class of the literal.
-/
import ShamirDb.Filters
import Mathlib.Data.List.Sort

namespace ShamirDb.Query

open List Option

open VersionCodec (bigEndian bigEndian_inj)

/-! ## Leaves -/

def tagNull : UInt8 := 0x00
def tagBool : UInt8 := 0x01
def tagInt : UInt8 := 0x02
def tagBigBits : UInt8 := 0x03
def tagF64Bits : UInt8 := 0x04
def tagDecimal : UInt8 := 0x05
def tagStr : UInt8 := 0x06
def tagBin : UInt8 := 0x07
def tagList : UInt8 := 0x08
def tagSet : UInt8 := 0x09
def tagMap : UInt8 := 0x0A

/-- `put_len`: lengths are 32-bit, larger ones are refused. -/
def putLen (n : Nat) : Option Bytes := if n < 2 ^ 32 then some (bigEndian 4 n) else none

def boolByte (b : Bool) : UInt8 := if b then 1 else 0

/-- `put_numeric_key`. -/
def putNumericKey : NumericKey → Option Bytes
  | .int i => some (tagInt :: bigEndian 8 i.toUInt64.toNat)
  | .bigBits negative magnitude =>
    (putLen magnitude.length).map fun len =>
      tagBigBits :: boolByte negative :: (len ++ magnitude)
  | .f64Bits bits => some (tagF64Bits :: bigEndian 8 bits.toNat)

/-- `put_f64_leaf`: a NaN has a code only inside a container. -/
def putF64Leaf (f : F64) (nested : Bool) : Option Bytes :=
  if f.isNaN && !nested then none else putNumericKey (.fromF64 f)

/-- `put_decimal_leaf`: the mantissa as an `i128`, the scale as a `u32`. -/
def putDecimalLeaf (mantissa : Int) (scale : Nat) : Bytes :=
  tagDecimal :: (bigEndian 16 (mantissa % 2 ^ 128).toNat ++ bigEndian 4 scale)

/-- `put_str`. -/
def putStr (s : Text) : Option Bytes :=
  (putLen s.bytes.length).map fun len => tagStr :: (len ++ s.bytes)

/-- `put_bin`. -/
def putBin (b : Text) : Option Bytes :=
  (putLen b.bytes.length).map fun len => tagBin :: (len ++ b.bytes)

/-- `encode_scalar_ref_into`. -/
def encodeScalarRef : ScalarRef → Option Bytes
  | .null => some [tagNull]
  | .bool b => some [tagBool, boolByte b]
  | .int i => some (tagInt :: bigEndian 8 i.toUInt64.toNat)
  | .f64 f => putF64Leaf f false
  | .str s => putStr s
  | .bin b => putBin b

mutual

/-- `encode_value`; `nested` below a container. -/
def encodeValue (nested : Bool) : Value → Option Bytes
  | .null => some [tagNull]
  | .bool b => some [tagBool, boolByte b]
  | .int i => some (tagInt :: bigEndian 8 i.toUInt64.toNat)
  | .f64 f => putF64Leaf f nested
  | .dec d =>
    match NumericKey.fromDecimal d with
    | some key => putNumericKey key
    | none => some (putDecimalLeaf d.normalize.mantissa d.normalize.scale)
  | .big b => putNumericKey (.fromBigint b)
  | .str s => putStr s
  | .bin b => putBin b
  | .list items =>
    match putLen items.length, encodeItems items with
    | some len, some codes => some (tagList :: (len ++ codes.flatten))
    | _, _ => none
  | .set items =>
    match encodeItems items with
    | none => none
    | some codes =>
      let codes := (codes.insertionSort (· ≤ ·)).eraseReps
      (putLen codes.length).map fun len => tagSet :: (len ++ codes.flatten)
  | .map entries =>
    match putLen entries.length, encodeEntries entries with
    | some len, some codes =>
      let codes := codes.insertionSort (·.1 ≤ ·.1)
      some (tagMap :: (len ++ codes.flatMap fun e => bigEndian 8 e.1 ++ e.2))
    | _, _ => none

def encodeItems : List Value → Option (List Bytes)
  | [] => some []
  | v :: vs =>
    match encodeValue true v, encodeItems vs with
    | some c, some cs => some (c :: cs)
    | _, _ => none

def encodeEntries : List (Nat × Value) → Option (List (Nat × Bytes))
  | [] => some []
  | (k, v) :: es =>
    match encodeValue true v, encodeEntries es with
    | some c, some cs => some ((k, c) :: cs)
    | _, _ => none

end

/-- Both encoders write the same bytes for a scalar. -/
theorem encodeScalarRef_eq (s : ScalarRef) : encodeScalarRef s = encodeValue false s.toValue := by
  cases s <;> rfl

/-! ## Composite codes -/

/-- One leaf of the write path: a scalar, or else the whole value. -/
def leafCode (record : Value) (path : List Nat) : Option Bytes :=
  match scalarAt record path with
  | some s => encodeScalarRef s
  | none => (descendPath record path).bind (encodeValue false)

/-- `canonical_from_record`. -/
def canonicalFromRecord (record : Value) : List (List Nat) → Option Bytes
  | [] => some []
  | path :: paths =>
    match leafCode record path, canonicalFromRecord record paths with
    | some c, some cs => some (c ++ cs)
    | _, _ => none

/-- `canonical_from_values`. -/
def canonicalFromValues : List Value → Option Bytes
  | [] => some []
  | v :: vs =>
    match encodeValue false v, canonicalFromValues vs with
    | some c, some cs => some (c ++ cs)
    | _, _ => none

/-- The two ways of the write path are one. -/
theorem leafCode_eq (record : Value) (path : List Nat) :
    leafCode record path = (descendPath record path).bind (encodeValue false) := by
  unfold leafCode scalarAt
  cases hv : descendPath record path with
  | none => rfl
  | some v =>
    cases hs : v.toScalar with
    | none => simp [hs]
    | some s =>
      rw [bind_some, hs]
      simp only [encodeScalarRef_eq, bind_some, Value.toValue_of_toScalar hs]

/-! ## Codes and classes -/

/-- The code of a class of equal values. -/
def EqClass.code : EqClass → Option Bytes
  | .null => some [tagNull]
  | .bool b => some [tagBool, boolByte b]
  | .num (.num key) => putNumericKey key
  | .num (.decParts mantissa scale) => some (putDecimalLeaf mantissa scale)
  | .str s => putStr s
  | .bin b => putBin b

variable {c : EqClass}

theorem encodeValue_of_eqClass {v : Value} (h : v.eqClass = some c) :
    encodeValue false v = c.code := by
  cases v <;> simp only [Value.eqClass, some.injEq, reduceCtorEq] at h
  case f64 f =>
    split at h
    · simp at h
    · rename_i hnan
      rw [← some.inj h]
      simp [encodeValue, putF64Leaf, hnan, EqClass.code]
  case dec d =>
    rw [map_eq_some_iff] at h
    obtain ⟨n, hn, rfl⟩ := h
    unfold numericClass at hn
    unfold encodeValue
    cases hkey : NumericKey.fromDecimal d with
    | some key | none =>
      simp only [hkey, some.injEq] at hn
      rw [← hn]
      rfl
  all_goals
    subst h
    simp [encodeValue, EqClass.code, putNumericKey]

theorem putLen_eq_some {n : Nat} {len : Bytes} (h : putLen n = some len) :
    n < 2 ^ 32 ∧ len = bigEndian 4 n := by
  unfold putLen at h
  split at h
  · rename_i hlt
    exact ⟨hlt, (some.inj h).symm⟩
  · simp at h

/-- The code of some value. -/
def IsCode (x : Bytes) : Prop := ∃ nested v, encodeValue nested v = some x

/-- The code of a container: a tag, the number of items and the items, each a code behind the
key of an entry of a map. -/
def IsContainer (x : Bytes) : Prop :=
  ∃ (tag : UInt8) (items : List Bytes),
    (tag = tagList ∨ tag = tagSet ∨ tag = tagMap) ∧ items.length < 2 ^ 32 ∧
    x = tag :: (bigEndian 4 items.length ++ items.flatten) ∧
    ∀ i ∈ items, ∃ key c, i = key ++ c ∧ key.length = (if tag = tagMap then 8 else 0) ∧ IsCode c

variable {codes : List Bytes}

theorem encodeItems_spec {items : List Value} (h : encodeItems items = some codes) :
    codes.length = items.length ∧ ∀ c ∈ codes, IsCode c := by
  induction items generalizing codes with
  | nil =>
    cases h
    simp
  | cons v vs ih =>
    unfold encodeItems at h
    split at h
    · rename_i c cs hc hcs
      cases h
      obtain ⟨hlen, hcodes⟩ := ih hcs
      exact ⟨by simp [hlen], forall_mem_cons.2 ⟨⟨true, v, hc⟩, hcodes⟩⟩
    · simp at h

theorem encodeEntries_spec {entries : List (Nat × Value)} {codes : List (Nat × Bytes)}
    (h : encodeEntries entries = some codes) :
    codes.length = entries.length ∧ ∀ e ∈ codes, IsCode e.2 := by
  induction entries generalizing codes with
  | nil =>
    cases h
    simp
  | cons entry es ih =>
    obtain ⟨k, v⟩ := entry
    unfold encodeEntries at h
    split at h
    · rename_i c cs hc hcs
      cases h
      obtain ⟨hlen, hcodes⟩ := ih hcs
      exact ⟨by simp [hlen], forall_mem_cons.2 ⟨⟨true, v, hc⟩, hcodes⟩⟩
    · simp at h

theorem mem_of_mem_eraseReps {c : Bytes} (h : c ∈ codes.eraseReps) : c ∈ codes := by
  have hloop : ∀ (as : List Bytes) (a : Bytes) (acc : List Bytes),
      c ∈ eraseRepsBy.loop (· == ·) a as acc → c ∈ acc ∨ c = a ∨ c ∈ as := by
    intro as
    induction as with
    | nil => simp [eraseRepsBy.loop]
    | cons b as ih =>
      intro a acc h
      rw [eraseRepsBy.loop] at h
      split at h
      · grind
      · grind
  cases codes with
  | nil => exact h
  | cons a as => simpa using hloop as a [] h

/-- What a code is: that of a class, which is the value's own unless a NaN is nested, or that of
a container. -/
theorem encodeValue_shape {nested : Bool} {v : Value} {x : Bytes}
    (h : encodeValue nested v = some x) :
    (∃ c : EqClass, c.code = some x ∧ (nested = false → v.eqClass = some c)) ∨
      IsContainer x := by
  cases v with
  | null | bool _ | int _ | big _ | str _ | bin _ =>
    refine .inl ⟨_, ?_, fun _ => rfl⟩
    exact h
  | f64 f =>
    rw [encodeValue, putF64Leaf] at h
    split at h
    · simp at h
    · refine .inl ⟨.num (.num (.fromF64 f)), h, ?_⟩
      rintro rfl
      simp_all [Value.eqClass]
  | dec d =>
    have hclass : ∃ c, (Value.dec d).eqClass = some c := by
      cases hkey : NumericKey.fromDecimal d <;> simp [Value.eqClass, numericClass, hkey]
    obtain ⟨c, hc⟩ := hclass
    exact .inl ⟨c, (encodeValue_of_eqClass hc).symm.trans h, fun _ => hc⟩
  | list items =>
    unfold encodeValue at h
    split at h
    · rename_i len codes hlen hcodes
      obtain ⟨hlt, rfl⟩ := putLen_eq_some hlen
      obtain ⟨hlength, hall⟩ := encodeItems_spec hcodes
      refine .inr ⟨tagList, codes, .inl rfl, hlength ▸ hlt, ?_, fun c hc => ⟨[], c, rfl, rfl, hall c hc⟩⟩
      rw [hlength]
      exact (some.inj h).symm
    · simp at h
  | set items =>
    unfold encodeValue at h
    split at h
    · simp at h
    · rename_i codes hcodes
      obtain ⟨len, hlen, rfl⟩ := map_eq_some_iff.1 h
      obtain ⟨hlt, rfl⟩ := putLen_eq_some hlen
      refine .inr ⟨tagSet, _, .inr (.inl rfl), hlt, rfl, fun c hc => ⟨[], c, rfl, rfl, ?_⟩⟩
      exact (encodeItems_spec hcodes).2 c ((mem_insertionSort _).1 (mem_of_mem_eraseReps hc))
  | map entries =>
    unfold encodeValue at h
    split at h
    · rename_i len codes hlen hcodes
      obtain ⟨hlt, rfl⟩ := putLen_eq_some hlen
      obtain ⟨hlength, hall⟩ := encodeEntries_spec hcodes
      have hitems : ((codes.insertionSort (·.1 ≤ ·.1)).map fun e => bigEndian 8 e.1 ++ e.2).length =
          entries.length := by
        rw [length_map, length_insertionSort, hlength]
      refine .inr ⟨tagMap, _, .inr (.inr rfl), hitems ▸ hlt, ?_, ?_⟩
      · rw [hitems]
        exact (some.inj h).symm
      · intro i hi
        obtain ⟨e, he, rfl⟩ := mem_map.1 hi
        exact ⟨_, _, rfl, by simp, hall e ((mem_insertionSort _).1 he)⟩
    · simp at h

/-! ## Codes can be taken apart -/

/-- Two words of one length and what follows them. -/
theorem bigEndian_append_inj {k m n : Nat} (hm : m < 256 ^ k) (hn : n < 256 ^ k) {u w : Bytes}
    (h : bigEndian k m ++ u = bigEndian k n ++ w) : m = n ∧ u = w := by
  obtain ⟨hword, hrest⟩ := append_inj h (by simp)
  exact ⟨bigEndian_inj hm hn hword, hrest⟩

/-- Strings that follow their lengths. -/
theorem lengthFirst_inj {a b u w : Bytes} (ha : a.length < 2 ^ 32) (hb : b.length < 2 ^ 32)
    (h : bigEndian 4 a.length ++ a ++ u = bigEndian 4 b.length ++ b ++ w) : a = b ∧ u = w := by
  rw [append_assoc] at h
  obtain ⟨hlen, hrest⟩ := bigEndian_append_inj (by simpa using ha) (by simpa using hb) h
  exact append_inj hrest hlen

theorem boolByte_inj {a b : Bool} (h : boolByte a = boolByte b) : a = b := by
  revert h
  cases a <;> cases b <;> decide

variable {x y u w : Bytes} {l : ScalarRef}

theorem putNumericKey_append_inj {k l : NumericKey} (hx : putNumericKey k = some x)
    (hy : putNumericKey l = some y) (h : x ++ u = y ++ w) : k = l ∧ u = w := by
  cases k <;> cases l <;>
    simp only [putNumericKey, some.injEq, map_eq_some_iff] at hx hy
  case int.int i j =>
    subst hx hy
    rw [cons_append, cons_append, cons.injEq] at h
    obtain ⟨hbits, hrest⟩ := bigEndian_append_inj i.toUInt64.toNat_lt j.toUInt64.toNat_lt h.2
    have hij : i = j := Int64.toBitVec_inj.1 (congrArg UInt64.toBitVec (UInt64.toNat_inj.1 hbits))
    exact ⟨by rw [hij], hrest⟩
  case bigBits.bigBits sign magnitude sign' magnitude' =>
    obtain ⟨len, hlen, rfl⟩ := hx
    obtain ⟨len', hlen', rfl⟩ := hy
    obtain ⟨hlt, rfl⟩ := putLen_eq_some hlen
    obtain ⟨hlt', rfl⟩ := putLen_eq_some hlen'
    rw [cons_append, cons_append, cons_append, cons_append, cons.injEq, cons.injEq] at h
    obtain ⟨hmag, hrest⟩ := lengthFirst_inj hlt hlt' h.2.2
    exact ⟨by rw [boolByte_inj h.2.1, hmag], hrest⟩
  case f64Bits.f64Bits b c =>
    subst hx hy
    rw [cons_append, cons_append, cons.injEq] at h
    obtain ⟨hbits, hrest⟩ := bigEndian_append_inj b.toNat_lt c.toNat_lt h.2
    exact ⟨by rw [UInt64.toNat_inj.1 hbits], hrest⟩
  all_goals
    -- the tags differ
    exfalso
    obtain ⟨len, -, rfl⟩ := hx
    obtain ⟨len', -, rfl⟩ := hy
    simp only [cons_append, cons.injEq] at h
    exact absurd h.1 (by decide)

/-- The first byte of the code of a class. -/
def EqClass.tag : EqClass → UInt8
  | .null => tagNull
  | .bool _ => tagBool
  | .num (.num (.int _)) => tagInt
  | .num (.num (.bigBits _ _)) => tagBigBits
  | .num (.num (.f64Bits _)) => tagF64Bits
  | .num (.decParts _ _) => tagDecimal
  | .str _ => tagStr
  | .bin _ => tagBin

theorem EqClass.code_head {x : Bytes} (h : c.code = some x) : ∃ rest, x = c.tag :: rest := by
  rcases c with _ | b | ((_ | _ | _) | ⟨_, _⟩) | s | t <;>
    simp only [EqClass.code, putNumericKey, putStr, putBin, map_eq_some_iff] at h <;>
    first
    | exact ⟨_, h.symm⟩
    | (obtain ⟨len, -, rfl⟩ := h; exact ⟨_, rfl⟩)

theorem EqClass.tag_lt (c : EqClass) : c.tag < tagList := by
  rcases c with _ | b | ((_ | _ | _) | ⟨_, _⟩) | s | t <;> (simp only [EqClass.tag]; decide)

theorem IsContainer.append_ne (hx : IsContainer x) (hy : c.code = some y) : x ++ u ≠ y ++ w := by
  obtain ⟨tag, items, htag, -, rfl, -⟩ := hx
  obtain ⟨rest, rfl⟩ := EqClass.code_head hy
  intro h
  rw [cons_append, cons_append, cons.injEq] at h
  have hlt := c.tag_lt
  rw [← h.1] at hlt
  rcases htag with rfl | rfl | rfl <;> exact absurd hlt (by decide)

/-- The classes of literals: every class but that of a fraction. -/
def EqClass.Plain : EqClass → Prop
  | .num (.decParts _ _) => False
  | _ => True

/-- **The code of a literal's class is found again** at the start of whatever it starts. -/
theorem EqClass.code_append_inj {d : EqClass} (hd : d.Plain) (hx : c.code = some x)
    (hy : d.code = some y) (h : x ++ u = y ++ w) : c = d ∧ u = w := by
  have htag : c.tag = d.tag := by
    obtain ⟨rest, rfl⟩ := EqClass.code_head hx
    obtain ⟨rest', rfl⟩ := EqClass.code_head hy
    rw [cons_append, cons_append, cons.injEq] at h
    exact h.1
  have hnum : ∀ {k l : NumericKey}, c = .num (.num k) → d = .num (.num l) → c = d ∧ u = w := by
    rintro k l rfl rfl
    obtain ⟨rfl, hrest⟩ := putNumericKey_append_inj hx hy h
    exact ⟨rfl, hrest⟩
  have htext : ∀ {s t : Text} {tag tag' : UInt8}, (putLen s.bytes.length).map (fun len =>
      tag :: (len ++ s.bytes)) = some x → (putLen t.bytes.length).map (fun len =>
      tag' :: (len ++ t.bytes)) = some y → s = t ∧ u = w := by
    intro s t tag tag' hs ht
    obtain ⟨len, hlen, rfl⟩ := map_eq_some_iff.1 hs
    obtain ⟨len', hlen', rfl⟩ := map_eq_some_iff.1 ht
    obtain ⟨hlt, rfl⟩ := putLen_eq_some hlen
    obtain ⟨hlt', rfl⟩ := putLen_eq_some hlen'
    rw [cons_append, cons_append, cons.injEq] at h
    obtain ⟨hbytes, hrest⟩ := lengthFirst_inj hlt hlt' h.2
    exact ⟨Text.ext_bytes hbytes, hrest⟩
  rcases c with _ | b | k | s | t <;> rcases d with _ | b' | k' | s' | t'
  case null.null =>
    simp only [EqClass.code, some.injEq] at hx hy
    subst hx hy
    exact ⟨rfl, by simpa using h⟩
  case bool.bool =>
    simp only [EqClass.code, some.injEq] at hx hy
    subst hx hy
    simp only [cons_append, cons.injEq, true_and] at h
    exact ⟨by rw [boolByte_inj h.1], h.2⟩
  case num.num =>
    rcases k with k | ⟨m, e⟩ <;> rcases k' with k' | ⟨m', e'⟩
    · exact hnum rfl rfl
    · exact hd.elim
    · rcases k' with _ | _ | _ <;> (simp only [EqClass.tag] at htag; exact absurd htag (by decide))
    · exact hd.elim
  case str.str | bin.bin =>
    obtain ⟨rfl, hrest⟩ := htext hx hy
    exact ⟨rfl, hrest⟩
  case num.null | num.bool | num.str | num.bin =>
    rcases k with (_ | _ | _) | ⟨_, _⟩ <;> (simp only [EqClass.tag] at htag; exact absurd htag (by decide))
  case null.num | bool.num | str.num | bin.num =>
    rcases k' with (_ | _ | _) | ⟨_, _⟩ <;> (simp only [EqClass.tag] at htag; exact absurd htag (by decide))
  all_goals (simp only [EqClass.tag] at htag; exact absurd htag (by decide))

/-! ## Codes of records and of literals -/

/-- The magnitude of a float that is a whole number is short. -/
theorem length_magnitudeBe_f64 (f : F64) :
    (magnitudeBe (f.scaled / F64.one).natAbs).length < 2 ^ 32 := by
  have hdiv : (f.scaled / F64.one).natAbs ≤ F64.units f.mag := by
    have hle : (f.scaled / F64.one).natAbs ≤ f.scaled.natAbs := Int.natAbs_ediv_le_natAbs _ _
    have habs : f.scaled.natAbs = F64.units f.mag := by
      unfold F64.scaled
      split <;> simp
    omega
  have hlt := lt_of_le_of_lt hdiv (F64.units_lt _ f.mag_lt)
  rw [magnitudeBe, VersionCodec.length_bigEndian]
  generalize (f.scaled / F64.one).natAbs = n at hlt
  by_cases hn : n = 0
  · subst hn
    decide
  · rw [← pow_add] at hlt
    have := (Nat.log2_lt hn).2 hlt
    omega

theorem encodeValue_lit {y : Bytes} (h : encodeValue false l.toValue = some y) :
    ∃ c, l.toValue.eqClass = some c ∧ c.code = some y ∧ c.Plain := by
  have hclass : ∃ c, l.toValue.eqClass = some c ∧ c.Plain := by
    cases l
    case f64 f =>
      by_cases hnan : f.isNaN = true
      · simp [ScalarRef.toValue, encodeValue, putF64Leaf, hnan] at h
      · exact ⟨.num (.num (.fromF64 f)), by simp [ScalarRef.toValue, Value.eqClass, hnan], trivial⟩
    all_goals exact ⟨_, rfl, trivial⟩
  obtain ⟨c, hc, hplain⟩ := hclass
  exact ⟨c, hc, (encodeValue_of_eqClass hc).symm.trans h, hplain⟩

/-- A literal other than NaN has a code. -/
theorem exists_encodeValue_lit (h : l.toValue.eqClass ≠ none) :
    ∃ y, encodeValue false l.toValue = some y := by
  have hlen : ∀ t : Text, ∀ f : Bytes → Bytes, ∃ y, (putLen t.bytes.length).map f = some y := by
    intro t f
    exact ⟨_, by rw [putLen, if_pos t.short, map_some]⟩
  cases l with
  | null | bool b | int i => exact ⟨_, rfl⟩
  | str s | bin s => exact hlen s _
  | f64 f =>
    have hnan : f.isNaN = false := by
      by_contra hn
      exact h (by simp [ScalarRef.toValue, Value.eqClass, hn])
    simp only [ScalarRef.toValue, encodeValue, putF64Leaf, hnan, Bool.false_and,
      Bool.false_eq_true, ↓reduceIte]
    unfold NumericKey.fromF64 NumericKey.fromBigint
    split
    · split
      · exact ⟨_, rfl⟩
      · exact ⟨_, by rw [putNumericKey, putLen, if_pos (length_magnitudeBe_f64 f), map_some]⟩
    · exact ⟨_, rfl⟩

/-- The field at a path holds a value of the literal's class. -/
def HoldsClass (record : Value) (path : List Nat) (l : ScalarRef) : Prop :=
  ∃ v, descendPath record path = some v ∧ SameClass v l.toValue

instance (record : Value) (path : List Nat) (l : ScalarRef) :
    Decidable (HoldsClass record path l) := by
  unfold HoldsClass
  cases descendPath record path with
  | none => exact .isFalse (by simp)
  | some v => exact decidable_of_iff (SameClass v l.toValue) (by simp)

theorem leafCode_append_inj {record : Value} {path : List Nat} (hx : leafCode record path = some x)
    (hy : encodeValue false l.toValue = some y) (h : x ++ u = y ++ w) :
    HoldsClass record path l ∧ u = w := by
  obtain ⟨d, hd, hdcode, hplain⟩ := encodeValue_lit hy
  rw [leafCode_eq, bind_eq_some_iff] at hx
  obtain ⟨v, hv, hvcode⟩ := hx
  rcases encodeValue_shape hvcode with ⟨c, hc, hclass⟩ | hcontainer
  · obtain ⟨rfl, hrest⟩ := EqClass.code_append_inj hplain hc hdcode h
    exact ⟨⟨v, hv, (hclass rfl).trans hd.symm, by simp [hclass rfl]⟩, hrest⟩
  · exact absurd h (hcontainer.append_ne hdcode)

/-- **A record and a list of literals have one canonical code** exactly if the record holds,
path by path, values of the literals' classes. -/
theorem canonical_eq_iff (record : Value) (paths : List (List Nat)) (lits : List ScalarRef)
    (hlen : paths.length = lits.length) :
    (∃ c, canonicalFromRecord record paths = some c ∧
      canonicalFromValues (lits.map ScalarRef.toValue) = some c) ↔
      List.Forall₂ (HoldsClass record) paths lits := by
  induction paths generalizing lits with
  | nil =>
    cases lits with
    | nil => simp [canonicalFromRecord, canonicalFromValues]
    | cons l lits => simp at hlen
  | cons path paths ih =>
    cases lits with
    | nil => simp at hlen
    | cons l lits =>
      have ih := ih lits (by simpa using hlen)
      rw [map_cons, forall₂_cons, canonicalFromRecord, canonicalFromValues, ← ih]
      constructor
      · rintro ⟨c, hrecord, hvalues⟩
        split at hrecord
        case h_2 => simp at hrecord
        case h_1 x xs hx hxs =>
          split at hvalues
          case h_2 => simp at hvalues
          case h_1 y ys hy hys =>
            obtain ⟨hholds, rfl⟩ := leafCode_append_inj hx hy
              ((some.inj hrecord).trans (some.inj hvalues).symm)
            exact ⟨hholds, xs, hxs, hys⟩
      · rintro ⟨⟨v, hv, hclass⟩, cs, hxs, hys⟩
        obtain ⟨y, hy⟩ := exists_encodeValue_lit (hclass.1 ▸ hclass.2)
        obtain ⟨d, hd, hdcode, -⟩ := encodeValue_lit hy
        have hx : leafCode record path = some y := by
          rw [leafCode_eq, hv, bind_some, encodeValue_of_eqClass (hclass.1.trans hd), hdcode]
        exact ⟨y ++ cs, by simp [hx, hxs], by simp [hy, hys]⟩

end ShamirDb.Query
