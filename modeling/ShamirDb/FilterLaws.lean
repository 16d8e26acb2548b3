/-
# Laws of the filters

`In` is `Eq` with one of the values, `NotIn` its negation, and `Between` is `Gte` and `Lte`.
The laws hold for a field that is absent or a scalar.  A decimal, a big integer and a container
are no scalars: `Compare` then looks at the whole value, while `In` and `Between` take the
field for an absent one.

A record in stored form is read through a lens, whose scalars and values are those of the tree
its bytes decode to; a record here is either form.
-/
import ShamirDb.EqualityPlans

namespace ShamirDb.Query

open List

variable {lib : NumericLib} {record : Value} {path : List Nat}

/-! ## Membership -/

theorem mapM_filterValueToQuery {values : List FilterValue} {set : List ScalarRef}
    (h : values.mapM filterValueToQuery = some set) : values = set.map .lit := by
  induction values generalizing set with
  | nil =>
    cases h
    rfl
  | cons v values ih =>
    rw [mapM_cons] at h
    obtain ⟨s, hs, hrest⟩ := Option.bind_eq_some_iff.1 h
    obtain ⟨set', hset, hcons⟩ := Option.bind_eq_some_iff.1 hrest
    cases v <;> cases hs
    cases hcons
    rw [ih hset, map_cons]

/-- Both forms of `In` test the entries one by one. -/
theorem matches_compileInNode {a : ScalarRef} (ha : scalarAt record path = some a)
    (values : List FilterValue) (negate : Bool) :
    (compileInNode path values negate).matches lib record =
      (values.any (FilterValue.member lib record a) != negate) := by
  unfold compileInNode
  split
  case h_2 => simp only [FilterNode.matches, ha]
  case h_1 set hset =>
    have hmembers : setContainsCoercing (set.map ScalarRef.toValue) a =
        (set.map FilterValue.lit).any (FilterValue.member lib record a) := by
      rw [Bool.eq_iff_iff, setContainsCoercing_iff, any_map, any_eq_true]
      exact exists_congr fun l => and_congr_right fun _ => (scalarRefNumericEq_iff lib a l).symm
    rw [mapM_filterValueToQuery hset, ← hmembers]
    simp only [FilterNode.matches, ha]

theorem matches_compileInNode_none (ha : scalarAt record path = none) (values : List FilterValue)
    (negate : Bool) : (compileInNode path values negate).matches lib record = negate := by
  unfold compileInNode
  split <;> simp only [FilterNode.matches, ha]

/-! ## The laws -/

variable (ctx : FilterContext) (record : Value) (field : List String)

/-- `Eq(field, v)` matches. -/
def eqMatches (v : FilterValue) : Bool := (Filter.compare .eq field v).matches ctx record

/-- `Gte(field, lo)` and `Lte(field, hi)` match. -/
def insideMatches (lo hi : FilterValue) : Bool :=
  (Filter.compare .gte field lo).matches ctx record &&
    (Filter.compare .lte field hi).matches ctx record

/-- The laws for one record, one field, a list of values and two bounds. -/
structure FilterLaws (values : List FilterValue) (lo hi : FilterValue) : Prop where
  isIn : (Filter.isIn field values).matches ctx record = values.any (eqMatches ctx record field)
  notIn : (Filter.notIn field values).matches ctx record =
    !(Filter.isIn field values).matches ctx record
  between : (Filter.between field lo hi).matches ctx record = insideMatches ctx record field lo hi

/-- A scalar is in no column of the list, or equals another entry of it; a value that is no
scalar equals no entry and is not between the bounds, as is the case for an absent field. -/
def Comparable (values : List FilterValue) (lo hi : FilterValue) : Prop :=
  ∀ path, internFieldPath ctx field = some path →
    match scalarAt record path with
    | some a => ∀ members, .column members ∈ values → setContainsCoercing members a = true →
        values.any (eqMatches ctx record field) = true
    | none => values.any (eqMatches ctx record field) = false ∧
        insideMatches ctx record field lo hi = false

variable {ctx record field} {values : List FilterValue} {lo hi : FilterValue} {a : ScalarRef}

section

variable (hpath : internFieldPath ctx field = some path) (ha : scalarAt record path = some a)
include hpath ha

/-- An entry of `In` is an `Eq`, unless it is a column. -/
theorem member_iff (v : FilterValue) :
    v.member ctx.lib record a = true ↔ eqMatches ctx record field v = true ∨
      ∃ members, v = .column members ∧ setContainsCoercing members a = true := by
  obtain ⟨x, hx, hs⟩ := Option.bind_eq_some_iff.1 ha
  rw [eqMatches, Filter.matches_of_path hpath rfl, FilterNode.matches, hx]
  cases v with
  | lit s => simp [FilterValue.member, FilterValue.resolve, matchCompare, hs, CompareOp.holds]
  | dynamic r =>
    cases hr : r record <;>
      simp [FilterValue.member, FilterValue.resolve, matchCompare, hs, hr, CompareOp.holds]
  | column members =>
    have hlist : scalarRefNumericEq ctx.lib a (.list members) = false := by cases a <;> rfl
    simp [FilterValue.member, FilterValue.resolve, matchCompare, hs, CompareOp.holds, hlist]

theorem any_member_iff :
    values.any (FilterValue.member ctx.lib record a) = values.any (eqMatches ctx record field) ↔
      ∀ members, .column members ∈ values → setContainsCoercing members a = true →
        values.any (eqMatches ctx record field) = true := by
  have hle : values.any (eqMatches ctx record field) = true →
      values.any (FilterValue.member ctx.lib record a) = true := by
    simp only [any_eq_true, member_iff hpath ha]
    exact fun ⟨v, hv, heq⟩ => ⟨v, hv, .inl heq⟩
  constructor
  · intro h members hmem hset
    rw [← h, any_eq_true]
    exact ⟨_, hmem, (member_iff hpath ha _).2 (.inr ⟨members, rfl, hset⟩)⟩
  intro h
  refine Bool.eq_iff_iff.2 ⟨fun hany => ?_, hle⟩
  obtain ⟨v, hv, hmember⟩ := any_eq_true.1 hany
  rcases (member_iff hpath ha v).1 hmember with heq | ⟨members, rfl, hset⟩
  · exact any_eq_true.2 ⟨v, hv, heq⟩
  · exact h members hv hset

theorem between_matches :
    (Filter.between field lo hi).matches ctx record = insideMatches ctx record field lo hi := by
  obtain ⟨x, hx, hs⟩ := Option.bind_eq_some_iff.1 ha
  rw [insideMatches, Filter.matches_of_path hpath rfl, Filter.matches_of_path hpath rfl,
    Filter.matches_of_path hpath rfl]
  simp only [FilterNode.matches, ha, hx]
  cases lo.resolve record <;> cases hi.resolve record <;>
    simp [matchBetween, matchCompare, hs, CompareOp.holds]

end

/-- **The laws hold exactly for comparable fields**: absent ones, scalars that no column of the
list holds alone, and other values that equal no entry and are not between the bounds. -/
theorem filterLaws_iff (ctx : FilterContext) (record : Value) (field : List String)
    (values : List FilterValue) (lo hi : FilterValue) :
    FilterLaws ctx record field values lo hi ↔ Comparable ctx record field values lo hi := by
  cases hpath : internFieldPath ctx field with
  | none =>
    refine iff_of_true ⟨?_, ?_, ?_⟩ fun _ h => absurd (hpath.symm.trans h) nofun
    all_goals
      simp [eqMatches, insideMatches, Filter.matches, Filter.compile, Filter.tryCompile, onPath,
        hpath, FilterNode.matches]
  | some path =>
    simp only [Comparable, hpath, Option.some.injEq, forall_eq']
    have hin := Filter.matches_of_path hpath (f := .isIn field values) rfl record
    have hnot := Filter.matches_of_path hpath (f := .notIn field values) rfl record
    have hbetween := Filter.matches_of_path hpath (f := .between field lo hi) rfl record
    cases ha : scalarAt record path with
    | some a =>
      rw [matches_compileInNode ha] at hin hnot
      simp only [Bool.bne_false, Bool.bne_true] at hin hnot
      refine Iff.trans ?_ (any_member_iff hpath ha)
      rw [← hin]
      exact ⟨fun h => h.isIn, fun h => ⟨h, by rw [hnot, hin], between_matches hpath ha⟩⟩
    | none =>
      rw [matches_compileInNode_none ha] at hin hnot
      simp only [FilterNode.matches, ha, matchBetween] at hbetween
      constructor
      · intro h
        exact ⟨by rw [← h.isIn, hin], by rw [← h.between, hbetween]⟩
      · rintro ⟨hno, hout⟩
        exact ⟨by rw [hin, hno], by rw [hnot, hin]; rfl, by rw [hbetween, hout]⟩

/-- The big integer 5 equals 5 and is between 1 and 9, but it is not in the list of 5 and not
`Between` the two. -/
theorem filterLaws_big_fails :
    let record := Value.map [(1, .big 5)]
    eqMatches oneField record ["n"] (.lit (.int 5)) = true ∧
      (Filter.isIn ["n"] [.lit (.int 5)]).matches oneField record = false ∧
      insideMatches oneField record ["n"] (.lit (.int 1)) (.lit (.int 9)) = true ∧
      (Filter.between ["n"] (.lit (.int 1)) (.lit (.int 9))).matches oneField record = false := by
  decide +kernel

end ShamirDb.Query
