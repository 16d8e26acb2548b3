/-
# Filters and names the interner does not know

A filter names its fields; the compiler looks the names up in the interner and replaces a leaf
on an unknown name by a constant (`try_compile_filter_with_overlay`, `compile_non_pattern`).
The constant is meant to be what the leaf computes on a record without the field.  Then it does
not matter which further names the interner holds.

Here a filter is the tree the client sends, with operands that name fields themselves (`$ref`,
`$fn`, `$expr`, `$cond`).  `lower` looks their names up and gives the filter of `Filters.lean`.
The leaves no planner looks at are compiled and evaluated here, each with its own constant and
its own answer for an absent field.  What a regular expression, a query token or a computed
expression makes of a field that is there stays a parameter.

The constants are right for every leaf but one: `Ne` on an unknown name compiles to `False`,
and `Ne` on an absent field is true.  `settle` corrects a filter at these leaves, and with it
the two interners are compared exactly.
-/
import ShamirDb.FilterLaws

namespace ShamirDb.Query

open List Option Function

/-! ## The leaves no planner looks at -/

/-- `RecordRef::str_at`. -/
def strAt (record : Value) (path : List Nat) : Option Text :=
  match descendPath record path with
  | some (.str s) => some s
  | _ => none

/-- The `Like` and `Regex` arms. -/
def matchPattern (regex : Text → Bool) : Option Text → Bool
  | some s => regex s
  | none => false

/-- The `FtsMatch` arm.  A query token is the test whether it is among the words of a text. -/
def matchFts (tokens : List (Text → Bool)) (modeAnd : Bool) : Option Text → Bool
  | some text =>
    if tokens.isEmpty then modeAnd
    else if modeAnd then tokens.all (· text) else tokens.any (· text)
  | none => false

/-- The items of a list or a set. -/
def Value.items : Value → Option (List Value)
  | .list items | .set items => some items
  | _ => none

/-- Whether a list or a set has an item equal to a value. -/
def Value.hasItem (v b : Value) : Bool := v.items.any fun items => items.any (numericEqValues · b)

/-- The `Contains` arm: a text within a text, or an item of a list or a set. -/
def matchContains (field operand : Option Value) : Bool :=
  match field, operand with
  | some (.str s), some (.str sub) => decide (sub.bytes <:+: s.bytes)
  | some v, some b => v.hasItem b
  | _, _ => false

/-- The `ContainsAny` arm. -/
def matchContainsAny (operands : List (Option Value)) : Option Value → Bool
  | some v => operands.any fun operand => operand.any v.hasItem
  | none => false

/-- The `ContainsAll` arm. -/
def matchContainsAll (operands : List (Option Value)) : Option Value → Bool
  | some v => operands.all fun operand => operand.any v.hasItem
  | none => false

/-- `set_contains_coercing_qv`, for a set of literals. -/
def setContainsCoercingQv (set : List Value) (item : Value) : Bool :=
  match item.toScalar, item with
  | some probe, _ => setContainsCoercing set probe
  | none, .dec _ | none, .big _ => exactNumericScan set item
  | none, _ => false

/-- The `ContainsAnySet` arm. -/
def matchContainsAnySet (set : List Value) : Option Value → Bool
  | some v => v.items.any fun items => items.any (setContainsCoercingQv set)
  | none => false

/-- `matching_indices`: whether an item of the field marks a required literal. -/
def marks (item : Value) (required : ScalarRef) : Bool :=
  let probe (candidate : ScalarRef) : Bool :=
    required.toValue.eqScalar candidate && numericEqValues item candidate.toValue
  match item with
  | .dec _ | .big _ => numericEqValues item required.toValue
  | .int n => probe (.int n) || probe (.f64 (F64.ofInt n.toInt))
  | .f64 f => !f.isNaN && (probe (.f64 f) || (exactI64EqualToF64 f).any fun n => probe (.int n))
  | .null => probe .null
  | .bool b => probe (.bool b)
  | .str s => probe (.str s)
  | .bin b => probe (.bin b)
  | .list _ | .set _ | .map _ => false

/-- The `ContainsAllSet` arm (`contains_all_set_match`). -/
def matchContainsAllSet (literals : List ScalarRef) : Option Value → Bool
  | some v => v.items.any fun items => literals.all fun required => items.any (marks · required)
  | none => false

/-- The `ComputedCompare` arm; the expression fails on an absent field. -/
def matchComputed (lib : NumericLib) (op : CompareOp) (expr : Value → Option Value)
    (field operand : Option Value) : Bool :=
  match field.bind expr, operand with
  | some a, some b => op.holds (numericEqValues a b) (compareValues lib a b)
  | _, _ => false

/-- The `ValueCompare` arm. -/
def matchValues (lib : NumericLib) (op : CompareOp) : Option Value → Option Value → Bool
  | some a, some b => op.holds (numericEqValues a b) (compareValues lib a b)
  | _, _ => decide (op = .ne)

/-! ## Filters with names -/

mutual

/-- An operand (`FilterValue`). -/
inductive Operand where
  | lit (s : ScalarRef)
  | fieldRef (path : List String)
  -- `$query` and `$param` do not read the record
  | bound (value : Option Value)
  | column (members : List Value)
  -- `$fn`, `$expr` and arrays
  | call (fn : List Value → Option Value) (args : List Operand)
  | cond (condition : NamedFilter) (yes no : Operand)

/-- A filter before its names are looked up. -/
inductive NamedFilter where
  | compare (op : CompareOp) (field : List String) (value : Operand)
  | fieldEq (field : List String) (value : Operand)
  | between (field : List String) (lo hi : Operand)
  | isIn (field : List String) (values : List Operand)
  | notIn (field : List String) (values : List Operand)
  | isNull (field : List String)
  | isNotNull (field : List String)
  | isPresent (field : List String)
  | notPresent (field : List String)
  -- `Like`, `ILike` and `Regex`; no test if the pattern does not build
  | pattern (field : List String) (regex : Option (Text → Bool))
  | fts (field : List String) (tokens : List (Text → Bool)) (modeAnd : Bool)
  | contains (field : List String) (value : Operand)
  | containsAny (field : List String) (values : List Operand)
  | containsAll (field : List String) (values : List Operand)
  -- no operator if the text of the comparison is none of the six
  | computed (op : Option CompareOp) (expr : Value → Option Value) (field : List String)
      (value : Operand)
  | valueCompare (op : CompareOp) (left right : Operand)
  | vectorSimilarity
  | and (filters : List NamedFilter)
  | or (filters : List NamedFilter)
  | not (filter : NamedFilter)

end

variable (ctx : FilterContext)

/-- A leaf on a field: `False` if the interner does not know the name, else its arm. -/
def fieldTest (field : List String) (arm : Value → List Nat → Bool) (record : Value) : Bool :=
  match internFieldPath ctx field with
  | some path => arm record path
  | none => false

/-- `compile_contains_any_node`: a set if every value is a literal. -/
def compileContainsAnyNode (values : List FilterValue) (record : Value) (path : List Nat) : Bool :=
  match values.mapM filterValueToQuery with
  | some literals => matchContainsAnySet (literals.map ScalarRef.toValue) (descendPath record path)
  | none => matchContainsAny (values.map (FilterValue.resolve record)) (descendPath record path)

/-- `compile_contains_all_node`. -/
def compileContainsAllNode (values : List FilterValue) (record : Value) (path : List Nat) : Bool :=
  match values.mapM filterValueToQuery with
  | some literals => matchContainsAllSet literals (descendPath record path)
  | none => matchContainsAll (values.map (FilterValue.resolve record)) (descendPath record path)

mutual

/-- `resolve_filter_query`: a name the interner does not know resolves to nothing, and so does
a call with an argument that does. -/
def Operand.lower : Operand → FilterValue
  | .lit s => .lit s
  | .fieldRef path => .dynamic fun record => (internFieldPath ctx path).bind (descendPath record)
  | .bound value => .dynamic fun _ => value
  | .column members => .column members
  | .call fn args => .dynamic fun record =>
    (((Operand.lowerAll args).map (FilterValue.resolve record)).mapM id).bind fn
  | .cond condition yes no => .dynamic fun record =>
    (condition.lower.tryCompile ctx).bind fun node =>
      if node.matches ctx.lib record then yes.lower.resolve record else no.lower.resolve record

def Operand.lowerAll : List Operand → List FilterValue
  | [] => []
  | o :: os => o.lower :: Operand.lowerAll os

/-- The filter with its operands resolved in a context. -/
def NamedFilter.lower : NamedFilter → Filter
  | .compare op field value => .compare op field value.lower
  | .fieldEq field value => .fieldEq field value.lower
  | .between field lo hi => .between field lo.lower hi.lower
  | .isIn field values => .isIn field (Operand.lowerAll values)
  | .notIn field values => .notIn field (Operand.lowerAll values)
  | .isNull field => .isNull field
  | .isNotNull field => .isNotNull field
  | .isPresent field => .isPresent field
  | .notPresent field => .notPresent field
  | .pattern field regex => .other (regex.map fun r =>
    fieldTest ctx field fun record path => matchPattern r (strAt record path))
  | .fts field tokens modeAnd => .other (some
    (fieldTest ctx field fun record path => matchFts tokens modeAnd (strAt record path)))
  | .contains field value => .other (some (fieldTest ctx field fun record path =>
    matchContains (descendPath record path) (value.lower.resolve record)))
  | .containsAny field values => .other (some
    (fieldTest ctx field (compileContainsAnyNode (Operand.lowerAll values))))
  | .containsAll field values => .other (some
    (fieldTest ctx field (compileContainsAllNode (Operand.lowerAll values))))
  | .computed none _ _ _ => .other (some fun _ => false)
  | .computed (some op) expr field value => .other (some (fieldTest ctx field fun record path =>
    matchComputed ctx.lib op expr (descendPath record path) (value.lower.resolve record)))
  | .valueCompare op left right => .other (some fun record =>
    matchValues ctx.lib op (left.lower.resolve record) (right.lower.resolve record))
  | .vectorSimilarity => .other (some fun _ => true)
  | .and filters => .and (NamedFilter.lowerAll filters)
  | .or filters => .or (NamedFilter.lowerAll filters)
  | .not filter => .not filter.lower

def NamedFilter.lowerAll : List NamedFilter → List Filter
  | [] => []
  | f :: fs => f.lower :: NamedFilter.lowerAll fs

end

/-- Whether the filter, compiled in a context, matches a record. -/
def NamedFilter.matches (f : NamedFilter) (record : Value) : Bool :=
  (f.lower ctx).matches ctx record

/-- `Ne` on a field that only the later interner knows: the compiled leaf is `False` before. -/
def NewNe (ctx ctx' : FilterContext) (op : CompareOp) (field : List String) : Prop :=
  op = .ne ∧ (internFieldPath ctx field).isNone = true ∧ (internFieldPath ctx' field).isSome = true

instance (ctx ctx' : FilterContext) (op : CompareOp) (field : List String) :
    Decidable (NewNe ctx ctx' op field) :=
  inferInstanceAs (Decidable (_ ∧ _ ∧ _))

section

variable (ctx' : FilterContext)

mutual

/-- The operand with every `Ne` on a new name replaced by what it is on an absent field. -/
def Operand.settle : Operand → Operand
  | .lit s => .lit s
  | .fieldRef path => .fieldRef path
  | .bound value => .bound value
  | .column members => .column members
  | .call fn args => .call fn (Operand.settleAll args)
  | .cond condition yes no => .cond condition.settle yes.settle no.settle

def Operand.settleAll : List Operand → List Operand
  | [] => []
  | o :: os => o.settle :: Operand.settleAll os

/-- The filter with every `Ne` on a new name, also within operands, replaced by the filter that
always holds. -/
def NamedFilter.settle : NamedFilter → NamedFilter
  | .compare op field value =>
    if NewNe ctx ctx' op field then .and [] else .compare op field value.settle
  | .fieldEq field value => .fieldEq field value.settle
  | .between field lo hi => .between field lo.settle hi.settle
  | .isIn field values => .isIn field (Operand.settleAll values)
  | .notIn field values => .notIn field (Operand.settleAll values)
  | .isNull field => .isNull field
  | .isNotNull field => .isNotNull field
  | .isPresent field => .isPresent field
  | .notPresent field => .notPresent field
  | .pattern field regex => .pattern field regex
  | .fts field tokens modeAnd => .fts field tokens modeAnd
  | .contains field value => .contains field value.settle
  | .containsAny field values => .containsAny field (Operand.settleAll values)
  | .containsAll field values => .containsAll field (Operand.settleAll values)
  | .computed op expr field value => .computed op expr field value.settle
  | .valueCompare op left right => .valueCompare op left.settle right.settle
  | .vectorSimilarity => .vectorSimilarity
  | .and filters => .and (NamedFilter.settleAll filters)
  | .or filters => .or (NamedFilter.settleAll filters)
  | .not filter => .not filter.settle

def NamedFilter.settleAll : List NamedFilter → List NamedFilter
  | [] => []
  | f :: fs => f.settle :: NamedFilter.settleAll fs

end

end

/-! ## More names -/

/-- The interner has learnt further names; none of them leads to a value of the record. -/
structure Learns (ctx ctx' : FilterContext) (record : Value) : Prop where
  lib : ctx'.lib = ctx.lib
  keeps : ∀ name id, ctx.getInd name = some id → ctx'.getInd name = some id
  fresh : ∀ name id, ctx.getInd name = none → ctx'.getInd name = some id →
    ∀ path, id ∈ path → descendPath record path = none

/-- The verdict on a record, if the filter compiles. -/
def Filter.verdict (f : Filter) (record : Value) : Option Bool :=
  (f.tryCompile ctx).map (·.matches ctx.lib record)

def Filter.verdicts (fs : List Filter) (record : Value) : Option (List Bool) :=
  (Filter.tryCompileAll ctx fs).map (map (·.matches ctx.lib record))

theorem Filter.verdicts_cons (f : Filter) (fs : List Filter) (record : Value) :
    Filter.verdicts ctx (f :: fs) record =
      (f.verdict ctx record).bind fun b => (Filter.verdicts ctx fs record).map (b :: ·) := by
  rw [verdicts, verdicts, verdict, Filter.tryCompileAll]
  cases f.tryCompile ctx <;> cases Filter.tryCompileAll ctx fs <;> rfl

theorem Filter.verdict_and (fs : List Filter) (record : Value) :
    (Filter.and fs).verdict ctx record = (Filter.verdicts ctx fs record).map (all · id) := by
  rw [verdict, verdicts, Filter.tryCompile, Option.map_map, Option.map_map]
  congr 1
  funext nodes
  induction nodes with
  | nil => rfl
  | cons n nodes ih => exact congrArg (n.matches ctx.lib record && ·) ih

theorem Filter.verdict_or (fs : List Filter) (record : Value) :
    (Filter.or fs).verdict ctx record = (Filter.verdicts ctx fs record).map (any · id) := by
  rw [verdict, verdicts, Filter.tryCompile, Option.map_map, Option.map_map]
  congr 1
  funext nodes
  induction nodes with
  | nil => rfl
  | cons n nodes ih => exact congrArg (n.matches ctx.lib record || ·) ih

variable {ctx} {ctx' : FilterContext} {record : Value}

section

variable (h : Learns ctx ctx' record) {field : List String}
include h

/-- A known path stays. -/
theorem Learns.path {path : List Nat} (hpath : internFieldPath ctx field = some path) :
    internFieldPath ctx' field = some path := by
  induction field generalizing path with
  | nil => exact hpath
  | cons name field ih =>
    simp only [internFieldPath, mapM_cons, bind_eq_bind, bind_eq_some_iff] at hpath ⊢
    obtain ⟨id, hid, rest, hrest, hcons⟩ := hpath
    exact ⟨id, h.keeps name id hid, rest, ih hrest, hcons⟩

/-- A path that only the longer interner knows leads nowhere. -/
theorem Learns.absent {path : List Nat} (hnone : internFieldPath ctx field = none)
    (hpath : internFieldPath ctx' field = some path) : descendPath record path = none := by
  suffices hnew : ∃ name id, ctx.getInd name = none ∧ ctx'.getInd name = some id ∧ id ∈ path by
    obtain ⟨name, id, hname, hid, hmem⟩ := hnew
    exact h.fresh name id hname hid path hmem
  induction field generalizing path with
  | nil => simp [internFieldPath] at hnone
  | cons name field ih =>
    simp only [internFieldPath, mapM_cons, bind_eq_bind, bind_eq_some_iff] at hpath
    obtain ⟨id, hid, rest, hrest, hcons⟩ := hpath
    cases hcons
    cases hold : ctx.getInd name with
    | none => exact ⟨name, id, hold, hid, mem_cons_self⟩
    | some old =>
      cases htail : internFieldPath ctx field with
      | some _ =>
        rw [internFieldPath] at htail
        simp [internFieldPath, hold, htail] at hnone
      | none =>
        obtain ⟨name', id', hname, hid', hmem⟩ := ih htail hrest
        exact ⟨name', id', hname, hid', mem_cons_of_mem _ hmem⟩

/-- What is read at a field does not depend on the new names. -/
theorem Learns.descend (field : List String) :
    (internFieldPath ctx field).bind (descendPath record) =
      (internFieldPath ctx' field).bind (descendPath record) := by
  cases hpath : internFieldPath ctx field with
  | some path => rw [h.path hpath]
  | none =>
    cases hpath' : internFieldPath ctx' field with
    | none => rfl
    | some path => exact (h.absent hpath hpath').symm

/-- A leaf keeps its verdict if its constant is what it computes on an absent field. -/
theorem Learns.leaf {absent : FilterNode} {node node' : List Nat → FilterNode} {f f' : Filter}
    (hf : f.tryCompile ctx = some (onPath ctx field absent node))
    (hf' : f'.tryCompile ctx' = some (onPath ctx' field absent node'))
    (hnode : ∀ path, (node path).matches ctx.lib record = (node' path).matches ctx.lib record)
    (habsent : internFieldPath ctx field = none → ∀ path, internFieldPath ctx' field = some path →
      descendPath record path = none →
      (node' path).matches ctx.lib record = absent.matches ctx.lib record) :
    f.verdict ctx record = f'.verdict ctx' record := by
  rw [Filter.verdict, Filter.verdict, hf, hf', onPath, onPath, h.lib]
  cases hpath : internFieldPath ctx field with
  | some path =>
    rw [h.path hpath]
    exact congrArg some (hnode path)
  | none =>
    cases hpath' : internFieldPath ctx' field with
    | none => rfl
    | some path => exact congrArg some (habsent hpath path hpath' (h.absent hpath hpath')).symm

/-- The same for a leaf whose constant is `False`. -/
theorem Learns.fieldTest {arm arm' : Value → List Nat → Bool}
    (harm : ∀ path, arm record path = arm' record path)
    (habsent : ∀ path, descendPath record path = none → arm' record path = false) :
    Query.fieldTest ctx field arm record = Query.fieldTest ctx' field arm' record := by
  unfold Query.fieldTest
  cases hpath : internFieldPath ctx field with
  | some path =>
    rw [h.path hpath]
    exact harm path
  | none =>
    cases hpath' : internFieldPath ctx' field with
    | none => rfl
    | some path => exact (habsent path (h.absent hpath hpath')).symm

end

theorem FilterValue.resolve_dynamic (r : Value → Option Value) :
    (FilterValue.dynamic r).resolve record = r record := rfl

/-- A filter that is a test of the record has the test's verdict. -/
theorem Filter.verdict_other {f f' : Filter} {t t' : Value → Bool} (hf : f = .other (some t))
    (hf' : f' = .other (some t')) (h : t record = t' record) :
    f.verdict ctx record = f'.verdict ctx' record := by
  rw [hf, hf']
  exact congrArg some h

section

variable {os : List Operand}

/-- Operands with the same resolution are the same members of a set. -/
theorem any_member_lowerAll {lib : NumericLib} {a : ScalarRef}
    (h : (Operand.lowerAll ctx (Operand.settleAll ctx ctx' os)).map (FilterValue.resolve record) =
      (Operand.lowerAll ctx' os).map (FilterValue.resolve record)) :
    (Operand.lowerAll ctx (Operand.settleAll ctx ctx' os)).any (FilterValue.member lib record a) =
      (Operand.lowerAll ctx' os).any (FilterValue.member lib record a) := by
  induction os with
  | nil => rfl
  | cons o os ih =>
    simp only [Operand.settleAll, Operand.lowerAll, map_cons, cons.injEq, any_cons] at h ⊢
    rw [ih h.2]
    congr 1
    cases o <;> first | rfl | exact congrArg (Option.any _) h.1

/-- Which operands are literals does not depend on the interner. -/
theorem mapM_literals_lowerAll :
    (Operand.lowerAll ctx (Operand.settleAll ctx ctx' os)).mapM filterValueToQuery =
      (Operand.lowerAll ctx' os).mapM filterValueToQuery := by
  induction os with
  | nil => rfl
  | cons o os ih =>
    have hhead : filterValueToQuery ((o.settle ctx ctx').lower ctx) =
        filterValueToQuery (o.lower ctx') := by
      cases o <;> rfl
    rw [Operand.settleAll, Operand.lowerAll, Operand.lowerAll, mapM_cons, mapM_cons, hhead, ih]

end

mutual

/-- An operand resolves to the same value with either interner, once it is settled. -/
theorem Operand.resolve_settle (h : Learns ctx ctx' record) : ∀ o : Operand,
    ((o.settle ctx ctx').lower ctx).resolve record = (o.lower ctx').resolve record
  | .lit _ | .bound _ | .column _ => by simp only [Operand.settle, Operand.lower]
  | .fieldRef path => by
    simp only [Operand.settle, Operand.lower, FilterValue.resolve_dynamic]
    exact h.descend path
  | .call fn args => by
    simp only [Operand.settle, Operand.lower, FilterValue.resolve_dynamic]
    rw [Operand.resolve_settleAll h args]
  | .cond condition yes no => by
    have hverdict := NamedFilter.verdict_settle h condition
    rw [Filter.verdict, Filter.verdict, h.lib] at hverdict
    simp only [Operand.settle, Operand.lower, h.lib, FilterValue.resolve_dynamic,
      Operand.resolve_settle h yes, Operand.resolve_settle h no]
    -- the branch is chosen by the verdict alone
    generalize ((condition.settle ctx ctx').lower ctx).tryCompile ctx = node at hverdict ⊢
    generalize (condition.lower _).tryCompile _ = node' at hverdict ⊢
    cases node <;> cases node' <;> simp_all

theorem Operand.resolve_settleAll (h : Learns ctx ctx' record) : ∀ os : List Operand,
    (Operand.lowerAll ctx (Operand.settleAll ctx ctx' os)).map (FilterValue.resolve record) =
      (Operand.lowerAll ctx' os).map (FilterValue.resolve record)
  | [] => rfl
  | o :: os => by
    simp only [Operand.settleAll, Operand.lowerAll, map_cons, Operand.resolve_settle h o,
      Operand.resolve_settleAll h os]

/-- The verdict with the later interner is that of the settled filter with the earlier one. -/
theorem NamedFilter.verdict_settle (h : Learns ctx ctx' record) : ∀ f : NamedFilter,
    ((f.settle ctx ctx').lower ctx).verdict ctx record = (f.lower ctx').verdict ctx' record
  | .compare op field value => by
    rw [NamedFilter.settle]
    split
    · -- `Ne` on a new name holds of the record, which has no such field
      rename_i hnew
      obtain ⟨rfl, hunknown, hknown⟩ := hnew
      obtain ⟨path, hpath⟩ := isSome_iff_exists.1 hknown
      have habsent := h.absent (isNone_iff_eq_none.1 hunknown) hpath
      simp [NamedFilter.lower, NamedFilter.lowerAll, Filter.verdict, Filter.tryCompile,
        Filter.tryCompileAll, FilterNode.matches, FilterNode.matchesAll, onPath, hpath, habsent,
        matchCompare]
    · rename_i hold
      refine h.leaf rfl rfl (fun path => ?_) (fun hunknown path hpath habsent => ?_)
      · simp only [FilterNode.matches, Operand.resolve_settle h value]
      · have hop : op ≠ .ne := fun hop => hold ⟨hop, by simp [hunknown], by simp [hpath]⟩
        simp [FilterNode.matches, habsent, matchCompare, hop]
  | .fieldEq field value => by
    refine h.leaf rfl rfl (fun path => ?_) (fun _ path _ habsent => ?_)
    · simp only [FilterNode.matches, Operand.resolve_settle h value]
    · simp [FilterNode.matches, habsent, matchCompare]
  | .between field lo hi => by
    refine h.leaf rfl rfl (fun path => ?_) (fun _ path _ habsent => ?_)
    · simp only [FilterNode.matches, Operand.resolve_settle h lo, Operand.resolve_settle h hi]
    · simp [FilterNode.matches, scalarAt, habsent, matchBetween]
  | .isIn field values | .notIn field values => by
    have hvalues := Operand.resolve_settleAll h values
    refine h.leaf rfl rfl (fun path => ?_) (fun _ path _ habsent => ?_)
    · cases ha : scalarAt record path with
      | none => rw [matches_compileInNode_none ha, matches_compileInNode_none ha]
      | some a =>
        rw [matches_compileInNode ha, matches_compileInNode ha, any_member_lowerAll hvalues]
    · exact matches_compileInNode_none (by simp [scalarAt, habsent]) _ _
  | .isNull field | .isNotNull field | .isPresent field | .notPresent field => by
    refine h.leaf rfl rfl (fun _ => rfl) (fun _ path _ habsent => ?_)
    simp [FilterNode.matches, isNullAt, existsAt, habsent]
  | .pattern field none => rfl
  | .pattern field (some regex) => by
    refine Filter.verdict_other rfl rfl (h.fieldTest (fun _ => rfl) fun path habsent => ?_)
    simp [strAt, habsent, matchPattern]
  | .fts field tokens modeAnd => by
    refine Filter.verdict_other rfl rfl (h.fieldTest (fun _ => rfl) fun path habsent => ?_)
    simp [strAt, habsent, matchFts]
  | .contains field value => by
    refine Filter.verdict_other rfl rfl (h.fieldTest (fun path => ?_) fun path habsent => ?_)
    · simp only [Operand.resolve_settle h value]
    · simp [habsent, matchContains]
  | .containsAny field values => by
    refine Filter.verdict_other rfl rfl (h.fieldTest (fun path => ?_) fun path habsent => ?_)
    · simp only [compileContainsAnyNode, mapM_literals_lowerAll, Operand.resolve_settleAll h values]
    · unfold compileContainsAnyNode
      split <;> simp [habsent, matchContainsAnySet, matchContainsAny]
  | .containsAll field values => by
    refine Filter.verdict_other rfl rfl (h.fieldTest (fun path => ?_) fun path habsent => ?_)
    · simp only [compileContainsAllNode, mapM_literals_lowerAll, Operand.resolve_settleAll h values]
    · unfold compileContainsAllNode
      split <;> simp [habsent, matchContainsAllSet, matchContainsAll]
  | .computed none expr field value => rfl
  | .computed (some op) expr field value => by
    refine Filter.verdict_other rfl rfl (h.fieldTest (fun path => ?_) fun path habsent => ?_)
    · simp only [Operand.resolve_settle h value, h.lib]
    · simp [habsent, matchComputed]
  | .valueCompare op left right => by
    refine Filter.verdict_other rfl rfl ?_
    simp only [Operand.resolve_settle h left, Operand.resolve_settle h right, h.lib]
  | .vectorSimilarity => rfl
  | .and filters => by
    rw [NamedFilter.settle, NamedFilter.lower, NamedFilter.lower, Filter.verdict_and,
      Filter.verdict_and, NamedFilter.verdicts_settle h filters]
  | .or filters => by
    rw [NamedFilter.settle, NamedFilter.lower, NamedFilter.lower, Filter.verdict_or,
      Filter.verdict_or, NamedFilter.verdicts_settle h filters]
  | .not filter => by
    have hinner := congrArg (Option.map Bool.not) (NamedFilter.verdict_settle h filter)
    simpa [NamedFilter.settle, NamedFilter.lower, Filter.verdict, Filter.tryCompile,
      FilterNode.matches, comp_def] using hinner

/-- A list of settled filters gives the verdicts of the later names. -/
theorem NamedFilter.verdicts_settle (h : Learns ctx ctx' record) : ∀ fs : List NamedFilter,
    Filter.verdicts ctx (NamedFilter.lowerAll ctx (NamedFilter.settleAll ctx ctx' fs)) record =
      Filter.verdicts ctx' (NamedFilter.lowerAll ctx' fs) record
  | [] => rfl
  | f :: fs => by
    rw [NamedFilter.settleAll, NamedFilter.lowerAll, NamedFilter.lowerAll, Filter.verdicts_cons,
      Filter.verdicts_cons, NamedFilter.verdict_settle h f, NamedFilter.verdicts_settle h fs]

end

/-- A filter matches when its verdict is true. -/
theorem Filter.matches_eq_verdict (ctx : FilterContext) (f : Filter) (record : Value) :
    f.matches ctx record = (f.verdict ctx record).getD false := by
  rw [Filter.matches, Filter.compile, Filter.verdict]
  cases f.tryCompile ctx <;> rfl

/-- **New names and filters.**  With the later interner a filter matches a record exactly if the
settled filter does with the earlier one.  So the new names change nothing exactly if it does
not matter to the record whether each `Ne` on a new name is read as false or as true. -/
theorem matches_of_learns (f : NamedFilter) (h : Learns ctx ctx' record) :
    f.matches ctx' record = (f.settle ctx ctx').matches ctx record ∧
    (f.matches ctx' record = f.matches ctx record ↔
      (f.settle ctx ctx').matches ctx record = f.matches ctx record) := by
  have hsettle : f.matches ctx' record = (f.settle ctx ctx').matches ctx record := by
    rw [NamedFilter.matches, NamedFilter.matches, Filter.matches_eq_verdict,
      Filter.matches_eq_verdict, NamedFilter.verdict_settle h f]
  exact ⟨hsettle, by rw [hsettle]⟩

theorem learns_first : Learns { oneField with getInd := fun _ => none } oneField (.map []) where
  lib := rfl
  keeps := nofun
  fresh := by
    intro name id _ _ path hmem
    match path, hmem with
    | [_], _ | _ :: _ :: _, _ => rfl

/-- A `Ne` on a new name that decides between equal operands changes nothing, and by itself it
changes the verdict. -/
theorem matches_of_learns_first :
    let unknown := { oneField with getInd := fun _ => none }
    let ne := NamedFilter.compare .ne ["n"] (.lit .null)
    let chosen := NamedFilter.valueCompare .eq (.cond ne (.lit .null) (.lit .null)) (.lit .null)
    chosen.matches oneField (.map []) = chosen.matches unknown (.map []) ∧
      ne.matches oneField (.map []) ≠ ne.matches unknown (.map []) := by
  constructor
  · exact (matches_of_learns _ learns_first).2.2 rfl
  · intro heq
    exact absurd ((matches_of_learns _ learns_first).2.1 heq) (by decide)

/-- `Ne` on an unknown name matches nothing, and once the name is known every record without
the field. -/
theorem ne_of_new_name :
    let ne := NamedFilter.compare .ne ["n"] (.lit .null)
    let unknown := { oneField with getInd := fun _ => none }
    Learns unknown oneField (.map []) ∧
      ne.matches unknown (.map []) = false ∧ ne.matches oneField (.map []) = true :=
  ⟨learns_first, rfl, rfl⟩

end ShamirDb.Query
