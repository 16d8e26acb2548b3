/-
# Filters

The filter of a query as the client sends it (`Filter`), its compilation to a tree over
interned paths (`compile_filter_with_context`) and the evaluation of that tree on a record
(`FilterNode::matches`).

The shapes the planners look at are modelled with their operands.  The others (patterns, full
text, containment, computed expressions, value comparisons) are passed through by every
planner: they are a test of the record, or a pattern that does not compile, which makes the
whole filter match nothing.  Operands that are no literals are resolved against the record.
-/
import ShamirDb.QueryValues

namespace ShamirDb.Query

open Option

/-! ## Syntax -/

inductive CompareOp where
  | eq | ne | gt | gte | lt | lte
deriving DecidableEq

/-- An operand (`FilterValue`): a literal, a reference that is resolved for each record, or
the column of another query's result. -/
inductive FilterValue where
  | lit (s : ScalarRef)
  | dynamic (resolve : Value → Option Value)
  | column (members : List Value)

/-- A filter of a query. -/
inductive Filter where
  | compare (op : CompareOp) (field : List String) (value : FilterValue)
  | fieldEq (field : List String) (value : FilterValue)
  | between (field : List String) (lo hi : FilterValue)
  | isIn (field : List String) (values : List FilterValue)
  | notIn (field : List String) (values : List FilterValue)
  | isNull (field : List String)
  | isNotNull (field : List String)
  | isPresent (field : List String)
  | notPresent (field : List String)
  | other (test : Option (Value → Bool))
  | and (filters : List Filter)
  | or (filters : List Filter)
  | not (filter : Filter)

/-- A compiled filter. -/
inductive FilterNode where
  | always
  | never
  | compare (path : List Nat) (op : CompareOp) (value : FilterValue)
  | between (path : List Nat) (lo hi : FilterValue)
  | inSet (path : List Nat) (values : List ScalarRef) (negate : Bool)
  | inDynamic (path : List Nat) (values : List FilterValue) (negate : Bool)
  | isNull (path : List Nat)
  | isNotNull (path : List Nat)
  | isPresent (path : List Nat)
  | notPresent (path : List Nat)
  | other (test : Value → Bool)
  | and (children : List FilterNode)
  | or (children : List FilterNode)
  | not (inner : FilterNode)

/-- What a filter is compiled and evaluated in. -/
structure FilterContext where
  /-- `Interner::get_ind`. -/
  getInd : String → Option Nat
  lib : NumericLib

/-! ## Compilation -/

/-- `filter_value_to_query` and `filter_value_to_inner`: literals only. -/
def filterValueToQuery : FilterValue → Option ScalarRef
  | .lit s => some s
  | _ => none

/-- `intern_field_path`. -/
def internFieldPath (ctx : FilterContext) (field : List String) : Option (List Nat) :=
  field.mapM ctx.getInd

/-- A node on an interned path, or the answer for a field no record can have. -/
def onPath (ctx : FilterContext) (field : List String) (absent : FilterNode)
    (node : List Nat → FilterNode) : FilterNode :=
  match internFieldPath ctx field with
  | some path => node path
  | none => absent

/-- `compile_in_node`: a set if every value is a literal. -/
def compileInNode (path : List Nat) (values : List FilterValue) (negate : Bool) : FilterNode :=
  match values.mapM filterValueToQuery with
  | some set => .inSet path set negate
  | none => .inDynamic path values negate

mutual

/-- `try_compile_filter`; a pattern that does not compile fails the whole filter. -/
def Filter.tryCompile (ctx : FilterContext) : Filter → Option FilterNode
  | .compare op field value => some (onPath ctx field .never (.compare · op value))
  | .fieldEq field value => some (onPath ctx field .never (.compare · .eq value))
  | .between field lo hi => some (onPath ctx field .never (.between · lo hi))
  | .isIn field values => some (onPath ctx field .never (compileInNode · values false))
  | .notIn field values => some (onPath ctx field .always (compileInNode · values true))
  | .isNull field => some (onPath ctx field .always .isNull)
  | .isNotNull field => some (onPath ctx field .never .isNotNull)
  | .isPresent field => some (onPath ctx field .never .isPresent)
  | .notPresent field => some (onPath ctx field .always .notPresent)
  | .other test => test.map .other
  | .and filters => (Filter.tryCompileAll ctx filters).map .and
  | .or filters => (Filter.tryCompileAll ctx filters).map .or
  | .not filter => (Filter.tryCompile ctx filter).map .not

def Filter.tryCompileAll (ctx : FilterContext) : List Filter → Option (List FilterNode)
  | [] => some []
  | f :: fs =>
    match Filter.tryCompile ctx f, Filter.tryCompileAll ctx fs with
    | some n, some ns => some (n :: ns)
    | _, _ => none

end

/-- `compile_filter_with_context`. -/
def Filter.compile (ctx : FilterContext) (f : Filter) : FilterNode :=
  (f.tryCompile ctx).getD .never

/-! ## Evaluation -/

/-- `resolve_filter_query`. -/
def FilterValue.resolve (record : Value) : FilterValue → Option Value
  | .lit s => some s.toValue
  | .dynamic r => r record
  | .column members => some (.list members)

/-- A comparison from its two relations. -/
def CompareOp.holds (op : CompareOp) (eq : Bool) (cmp : Option Ordering) : Bool :=
  match op with
  | .eq => eq
  | .ne => !eq
  | .gt => cmp == some .gt
  | .gte => cmp == some .gt || cmp == some .eq
  | .lt => cmp == some .lt
  | .lte => cmp == some .lt || cmp == some .eq

/-- The `Compare` arm: a field that is there but no scalar is compared as a whole value, and
only `Ne` holds of an absent field or an operand that does not resolve. -/
def matchCompare (lib : NumericLib) (op : CompareOp) : Option Value → Option Value → Bool
  | some v, some b =>
    match v.toScalar with
    | some a => op.holds (scalarRefNumericEq lib a b) (scalarRefCmpQv lib a b)
    | none => op.holds (numericEqValues v b) (compareValues lib v b)
  | _, _ => decide (op = .ne)

/-- The `Between` arm. -/
def matchBetween (lib : NumericLib) : Option ScalarRef → Option Value → Option Value → Bool
  | some a, some lo, some hi =>
    CompareOp.gte.holds false (scalarRefCmpQv lib a lo) &&
      CompareOp.lte.holds false (scalarRefCmpQv lib a hi)
  | _, _, _ => false

/-- `Value: PartialEq` with a scalar. -/
def Value.eqScalar : Value → ScalarRef → Bool
  | .null, .null => true
  | .bool a, .bool b => a == b
  | .int a, .int b => decide (a = b)
  | .f64 a, .f64 b => (a.isNaN && b.isNaN) || a.beq b
  | .str a, .str b => decide (a = b)
  | .bin a, .bin b => decide (a = b)
  | _, _ => false

/-- `TSet::contains`. -/
def setContains (set : List Value) (probe : ScalarRef) : Bool := set.any (·.eqScalar probe)

/-- `exact_numeric_scan`. -/
def exactNumericScan (set : List Value) (probe : Value) : Bool :=
  set.any fun m => (numericClass m).isSome && numericEqValues m probe

/-- `exact_i64_equal_to_f64`. -/
def exactI64EqualToF64 (f : F64) : Option Int64 :=
  if -(2 ^ 63) * F64.one ≤ f.scaled ∧ f.scaled < 2 ^ 63 * F64.one then
    if cmpI64F64 (Int64.ofInt f.floor) f = some .eq then some (Int64.ofInt f.floor) else none
  else none

/-- `set_contains_coercing`: probes of the same type, of the equal number of the other type,
then the exact scan. -/
def setContainsCoercing (set : List Value) : ScalarRef → Bool
  | .int n =>
    setContains set (.int n) ||
      (decide (cmpI64F64 n (F64.ofInt n.toInt) = some .eq) &&
        setContains set (.f64 (F64.ofInt n.toInt))) ||
      exactNumericScan set (.int n)
  | .f64 f =>
    if f.isNaN then false
    else
      setContains set (.f64 f) ||
        (f.isFinite && (exactI64EqualToF64 f).any (fun n => setContains set (.int n))) ||
        (f.isFinite && exactNumericScan set (.f64 f))
  | probe => setContains set probe

/-- One entry of the dynamic `In` arm. -/
def FilterValue.member (lib : NumericLib) (record : Value) (a : ScalarRef) : FilterValue → Bool
  | .lit s => scalarRefNumericEq lib a s.toValue
  | .dynamic r => (r record).any (scalarRefNumericEq lib a)
  | .column members => setContainsCoercing members a

mutual

/-- `FilterNode::matches`. -/
def FilterNode.matches (lib : NumericLib) (record : Value) : FilterNode → Bool
  | .always => true
  | .never => false
  | .compare path op value =>
    matchCompare lib op (descendPath record path) (value.resolve record)
  | .between path lo hi =>
    matchBetween lib (scalarAt record path) (lo.resolve record) (hi.resolve record)
  | .inSet path values negate =>
    match scalarAt record path with
    | some a => setContainsCoercing (values.map ScalarRef.toValue) a != negate
    | none => negate
  | .inDynamic path values negate =>
    match scalarAt record path with
    | some a => values.any (FilterValue.member lib record a) != negate
    | none => negate
  | .isNull path => isNullAt record path
  | .isNotNull path => !isNullAt record path
  | .isPresent path => existsAt record path
  | .notPresent path => !existsAt record path
  | .other test => test record
  | .and children => FilterNode.matchesAll lib record children
  | .or children => FilterNode.matchesAny lib record children
  | .not inner => !FilterNode.matches lib record inner

def FilterNode.matchesAll (lib : NumericLib) (record : Value) : List FilterNode → Bool
  | [] => true
  | n :: ns => FilterNode.matches lib record n && FilterNode.matchesAll lib record ns

def FilterNode.matchesAny (lib : NumericLib) (record : Value) : List FilterNode → Bool
  | [] => false
  | n :: ns => FilterNode.matches lib record n || FilterNode.matchesAny lib record ns

end

/-- Whether the compiled filter matches a record. -/
def Filter.matches (ctx : FilterContext) (f : Filter) (record : Value) : Bool :=
  (f.compile ctx).matches ctx.lib record

/-! ## Membership in a set of literals -/

theorem NumericKey.fromBigint_toInt (i : Int64) : NumericKey.fromBigint i.toInt = .int i := by
  have hlo := i.le_toInt
  have hhi := i.toInt_lt
  have hfits : fitsI64 i.toInt = true := by
    simp only [fitsI64, Bool.and_eq_true, decide_eq_true_eq]
    omega
  rw [NumericKey.fromBigint, if_pos hfits, Int64.ofInt_toInt]

variable {f : F64}

/-- A float that is an `i64` has the key of that number. -/
theorem NumericKey.fromF64_of_scaled {i : Int64} (hnan : f.isNaN = false)
    (h : f.scaled = i.toInt * F64.one) : NumericKey.fromF64 f = .int i := by
  have hlo : -(2 ^ 63) ≤ i.toInt := i.le_toInt
  have hhi : i.toInt < 2 ^ 63 := i.toInt_lt
  have hone : (0 : Int) < F64.one := Int.natCast_pos.2 F64.one_pos
  have hbig : (2 ^ 63 * F64.one : Int) < F64.units F64.infMag := by
    exact_mod_cast F64.lt_units_infMag
  have hlow : -(2 ^ 63) * (F64.one : Int) ≤ i.toInt * F64.one :=
    Int.mul_le_mul_of_nonneg_right hlo hone.le
  have hhigh : i.toInt * (F64.one : Int) < 2 ^ 63 * F64.one := Int.mul_lt_mul_of_pos_right hhi hone
  have hfinite : f.isFinite = true := by
    by_contra hfin
    have hinf : f.isInfinite = true := by
      simp only [F64.isFinite, F64.isNaN, F64.isInfinite, decide_eq_true_eq,
        decide_eq_false_iff_not] at *
      omega
    have hval := F64.scaled_of_isInfinite hinf
    split at hval <;> omega
  have hintegral : f.isIntegral = true := by
    rw [F64.isIntegral, decide_eq_true_eq, h]
    exact Int.mul_emod_left _ _
  rw [NumericKey.fromF64, hfinite, hintegral, if_pos (by decide), h,
    Int.mul_ediv_cancel _ hone.ne', NumericKey.fromBigint_toInt]

/-- Equal floats, the two zeros among them, have one key. -/
theorem NumericKey.fromF64_congr {g : F64} (h : f.scaled = g.scaled) :
    NumericKey.fromF64 f = NumericKey.fromF64 g := by
  rcases F64.scaled_eq_iff.1 h with rfl | ⟨hf, hg⟩
  · rfl
  have hzero : ∀ {x : F64}, x.mag = 0 → NumericKey.fromF64 x = .int 0 := by
    intro x hx
    have hnan : x.isNaN = false := by rw [F64.isNaN, hx]; decide
    refine NumericKey.fromF64_of_scaled hnan ?_
    show x.scaled = 0 * F64.one
    rw [Int.zero_mul, F64.scaled, hx]
    split <;> rfl
  rw [hzero hf, hzero hg]

/-- Two values of one class. -/
def SameClass (v w : Value) : Prop := v.eqClass = w.eqClass ∧ v.eqClass ≠ none

instance (v w : Value) : Decidable (SameClass v w) := inferInstanceAs (Decidable (_ ∧ _))

theorem SameClass.symm {v w : Value} (h : SameClass v w) : SameClass w v :=
  ⟨h.1.symm, h.1 ▸ h.2⟩

theorem SameClass.trans {u v w : Value} (h : SameClass u v) (h' : SameClass v w) : SameClass u w :=
  ⟨h.1.trans h'.1, h.2⟩

theorem Value.eqClass_ne_none_of_toScalar {s : ScalarRef} (h : s.toValue.isNaN = false) :
    s.toValue.eqClass ≠ none := by
  cases s <;> simp_all [ScalarRef.toValue, Value.eqClass, Value.isNaN]

variable {l a : ScalarRef}

/-- A value of a set that equals a probe by `PartialEq` is in its class. -/
theorem sameClass_of_eqScalar (ha : a.toValue.isNaN = false) (h : l.toValue.eqScalar a = true) :
    SameClass a.toValue l.toValue := by
  refine ⟨?_, Value.eqClass_ne_none_of_toScalar ha⟩
  cases l <;> cases a <;> simp only [ScalarRef.toValue, Value.eqScalar] at h
  case f64.f64 g f =>
    change f.isNaN = false at ha
    simp only [ha, Bool.and_false, Bool.false_or, F64.beq, Bool.and_eq_true, Bool.not_eq_true',
      decide_eq_true_eq] at h
    simp only [ScalarRef.toValue, Value.eqClass, ha, h.1.1]
    rw [NumericKey.fromF64_congr h.2]
  all_goals simp_all [ScalarRef.toValue]

/-- An integer and the float it equals are in one class. -/
theorem sameClass_of_cmpI64F64 {i : Int64} (h : cmpI64F64 i f = some .eq) :
    SameClass (.int i) (.f64 f) := by
  have hnan : f.isNaN = false := by
    by_contra hn
    rw [Bool.not_eq_false] at hn
    rw [cmpI64F64, if_pos hn] at h
    simp at h
  rw [cmpI64F64_eq i hnan, some.injEq, compare_eq_iff_eq] at h
  refine ⟨?_, by simp [Value.eqClass]⟩
  simp only [Value.eqClass, hnan, Bool.false_eq_true, ↓reduceIte]
  rw [NumericKey.fromF64_of_scaled hnan h.symm]

theorem cmp_of_exactI64EqualToF64 {n : Int64} (h : exactI64EqualToF64 f = some n) :
    cmpI64F64 n f = some .eq := by
  unfold exactI64EqualToF64 at h
  split at h
  · split at h
    · rename_i hcmp
      rw [← some.inj h]
      exact hcmp
    · simp at h
  · simp at h

theorem exactNumericScan_iff (lits : List ScalarRef) (a : ScalarRef) :
    exactNumericScan (lits.map ScalarRef.toValue) a.toValue = true ↔
      ∃ l ∈ lits, (numericClass l.toValue).isSome = true ∧ SameClass a.toValue l.toValue := by
  have hspelled : ∀ l : ScalarRef, ¬ Spelled l.toValue a := by
    intro l
    cases l <;> exact id
  simp only [exactNumericScan, List.any_map, List.any_eq_true, Function.comp_apply,
    Bool.and_eq_true, numericEqValues_iff, hspelled, or_false]
  constructor
  · rintro ⟨l, hl, hnum, hclass⟩
    exact ⟨l, hl, hnum, SameClass.symm hclass⟩
  · rintro ⟨l, hl, hnum, hclass⟩
    exact ⟨l, hl, hnum, hclass.symm⟩

theorem setContains_iff (lits : List ScalarRef) (a : ScalarRef) :
    setContains (lits.map ScalarRef.toValue) a = true ↔ ∃ l ∈ lits, l.toValue.eqScalar a = true := by
  simp [setContains]

theorem NumericKey.fromBigint_ne_f64Bits (b : Int) (bits : UInt64) :
    NumericKey.fromBigint b ≠ .f64Bits bits := by
  unfold NumericKey.fromBigint
  split <;> simp

/-- Only the probes of the sets of an infinite float are left to `PartialEq`. -/
theorem eqScalar_of_sameClass_infinite (hfin : f.isFinite = false)
    (h : SameClass (.f64 f) l.toValue) : l.toValue.eqScalar (.f64 f) = true := by
  obtain ⟨heq, hne⟩ := h
  have hnan : f.isNaN = false := by
    by_contra hn
    exact hne (by simp [Value.eqClass, hn])
  have hkey : NumericKey.fromF64 f = .f64Bits f.bits := by simp [NumericKey.fromF64, hfin]
  simp only [Value.eqClass, hnan, Bool.false_eq_true, ↓reduceIte, hkey] at heq
  cases l <;> simp only [ScalarRef.toValue, some.injEq, reduceCtorEq, EqClass.num.injEq,
    NumericClass.num.injEq] at heq
  case f64 g =>
    by_cases hg : g.isNaN = true
    · simp [hg] at heq
    simp only [hg, Bool.false_eq_true, ↓reduceIte, some.injEq, EqClass.num.injEq,
      NumericClass.num.injEq, NumericKey.fromF64] at heq
    split at heq
    · exact absurd heq.symm (NumericKey.fromBigint_ne_f64Bits _ _)
    have hbits : f = g := by
      cases f
      cases g
      simpa using heq
    subst hbits
    simp [ScalarRef.toValue, Value.eqScalar, F64.beq]

theorem eqScalar_of_sameClass_plain (ha : numericClass a.toValue = none)
    (h : SameClass a.toValue l.toValue) : l.toValue.eqScalar a = true := by
  have heq := h.1
  cases a <;> simp only [ScalarRef.toValue, numericClass] at ha <;> cases l <;>
    simp_all [ScalarRef.toValue, Value.eqClass, Value.eqScalar]

/-- The class of a number holds numbers only. -/
theorem numericClass_of_sameClass (ha : (numericClass a.toValue).isSome = true)
    (h : SameClass a.toValue l.toValue) : (numericClass l.toValue).isSome = true := by
  obtain ⟨heq, hne⟩ := h
  cases l with
  | int _ | f64 _ => rfl
  | null | bool _ | str _ | bin _ =>
    cases a <;> simp_all [ScalarRef.toValue, Value.eqClass]

/-- **Membership** of a scalar in a set of literals is equality of classes with one of them. -/
theorem setContainsCoercing_iff (lits : List ScalarRef) (a : ScalarRef) :
    setContainsCoercing (lits.map ScalarRef.toValue) a = true ↔
      ∃ l ∈ lits, SameClass a.toValue l.toValue := by
  cases a with
  | int n =>
    have hscan := exactNumericScan_iff lits (.int n)
    simp only [setContainsCoercing, Bool.or_eq_true, Bool.and_eq_true, decide_eq_true_eq,
      setContains_iff]
    constructor
    · rintro ((⟨l, hl, h⟩ | ⟨hcmp, l, hl, h⟩) | h)
      · exact ⟨l, hl, sameClass_of_eqScalar rfl h⟩
      · have hint := sameClass_of_cmpI64F64 hcmp
        have hnan : (F64.ofInt n.toInt).isNaN = false := by
          by_contra hn
          exact hint.symm.2 (by simp [Value.eqClass, hn])
        exact ⟨l, hl, hint.trans (sameClass_of_eqScalar (a := .f64 _) hnan h)⟩
      · obtain ⟨l, hl, -, h⟩ := hscan.1 h
        exact ⟨l, hl, h⟩
    · rintro ⟨l, hl, h⟩
      exact .inr (hscan.2 ⟨l, hl, numericClass_of_sameClass rfl h, h⟩)
  | f64 f =>
    by_cases hnan : f.isNaN = true
    · simp only [setContainsCoercing, hnan, ↓reduceIte, Bool.false_eq_true, false_iff]
      rintro ⟨l, hl, h⟩
      exact h.2 (by simp [ScalarRef.toValue, Value.eqClass, hnan])
    rw [Bool.not_eq_true] at hnan
    have hscan := exactNumericScan_iff lits (.f64 f)
    simp only [setContainsCoercing, hnan, Bool.false_eq_true, ↓reduceIte, Bool.or_eq_true,
      Bool.and_eq_true, setContains_iff]
    constructor
    · rintro ((⟨l, hl, h⟩ | ⟨-, h⟩) | ⟨-, h⟩)
      · exact ⟨l, hl, sameClass_of_eqScalar hnan h⟩
      · cases hn : exactI64EqualToF64 f with
        | none => simp [hn] at h
        | some n =>
          rw [hn, any_some, setContains_iff] at h
          obtain ⟨l, hl, h⟩ := h
          have hfloat := (sameClass_of_cmpI64F64 (cmp_of_exactI64EqualToF64 hn)).symm
          exact ⟨l, hl, hfloat.trans (sameClass_of_eqScalar rfl h)⟩
      · obtain ⟨l, hl, -, h⟩ := hscan.1 h
        exact ⟨l, hl, h⟩
    · rintro ⟨l, hl, h⟩
      by_cases hfin : f.isFinite = true
      · exact .inr ⟨hfin, hscan.2 ⟨l, hl, numericClass_of_sameClass rfl h, h⟩⟩
      · rw [Bool.not_eq_true] at hfin
        exact .inl (.inl ⟨l, hl, eqScalar_of_sameClass_infinite hfin h⟩)
  | null | bool b | str s | bin b =>
    -- the sets of the types without coercion
    refine (setContains_iff lits _).trans (exists_congr fun l => and_congr_right fun _ => ?_)
    exact ⟨sameClass_of_eqScalar rfl, eqScalar_of_sameClass_plain rfl⟩

/-! ## Conjunctions and leaves -/

/-- A conjunct that does not compile matches nothing, like the conjunction. -/
theorem Filter.matches_and (ctx : FilterContext) (filters : List Filter) (record : Value) :
    (Filter.and filters).matches ctx record = true ↔
      ∀ f ∈ filters, f.matches ctx record = true := by
  have hcompiled : ∀ fs : List Filter, (∃ nodes, Filter.tryCompileAll ctx fs = some nodes ∧
        FilterNode.matchesAll ctx.lib record nodes = true) ↔
      ∀ f ∈ fs, f.matches ctx record = true := by
    intro fs
    induction fs with
    | nil => simp [Filter.tryCompileAll, FilterNode.matchesAll]
    | cons f fs ih =>
      rw [List.forall_mem_cons, ← ih, Filter.matches, Filter.compile, Filter.tryCompileAll]
      cases Filter.tryCompile ctx f with
      | none => simp [FilterNode.matches]
      | some n =>
        cases Filter.tryCompileAll ctx fs with
        | none => simp
        | some nodes => simp [FilterNode.matchesAll]
  rw [← hcompiled, Filter.matches, Filter.compile, Filter.tryCompile]
  cases Filter.tryCompileAll ctx filters with
  | none => simp [FilterNode.matches]
  | some nodes => simp [FilterNode.matches]

/-- A literal equality: one class, or a big integer and a text that spells it. -/
theorem matchCompare_eq_lit (lib : NumericLib) (v : Option Value) (l : ScalarRef) :
    matchCompare lib .eq v (some l.toValue) = true ↔
      ∃ x, v = some x ∧ (SameClass x l.toValue ∨ Spelled x l) := by
  cases v with
  | none => simp [matchCompare]
  | some x =>
    simp only [matchCompare, some.injEq, exists_eq_left', CompareOp.holds]
    cases hs : x.toScalar with
    | some a =>
      have hx := Value.toValue_of_toScalar hs
      have hspelled : ¬ Spelled x l := by
        rw [hx]
        cases a <;> exact id
      simp only [hspelled, or_false]
      rw [scalarRefNumericEq_iff, hx]
      exact Iff.rfl
    | none => exact numericEqValues_iff x l

theorem Filter.matches_of_path {ctx : FilterContext} {field : List String} {path : List Nat}
    {absent : FilterNode} {node : List Nat → FilterNode} (h : internFieldPath ctx field = some path)
    {f : Filter} (hf : f.tryCompile ctx = some (onPath ctx field absent node)) (record : Value) :
    f.matches ctx record = (node path).matches ctx.lib record := by
  rw [Filter.matches, Filter.compile, hf, onPath, h, getD_some]

end ShamirDb.Query
