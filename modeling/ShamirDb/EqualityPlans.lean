/-
# Plans over hash indexes

The planner for equality and membership filters (`try_plan_index_scan`,
`try_plan_and_index_scan`) and the scan of its plans (`read_index_scan`).  A plan names an
index, one or more lists of values to look up, and the conjuncts that are left to be checked;
the conjuncts it drops are decided by the canonical codes alone.

The scan and the index agree on a dropped conjunct except in two cases.  An `In` leaf of the
scan does not see decimals and big integers, whose codes the index finds; and an `Eq` leaf of
the scan compares a big integer with a text that spells it, whose codes differ.
-/
import ShamirDb.HashIndex

namespace ShamirDb.Query

open List

/-! ## The planner -/

/-- What the planner returns.  The source returns the first three; `served` records the
conjuncts that are not in the residual. -/
structure IndexPlan where
  name : UInt64
  lookupSets : List (List ScalarRef)
  residual : Option Filter
  served : List Filter

/-- A conjunct an index can serve (`IndexableItem`); its lookup sets have one value each. -/
structure IndexableItem where
  filterIdx : Nat
  fieldPath : List Nat
  lookupSets : List ScalarRef
  filter : Filter

variable (ctx : FilterContext)

/-- The field and the literals of an `Eq` or `In` leaf whose operands are literals. -/
def leafLiterals : Filter → Option (List String × List ScalarRef)
  | .compare .eq field value | .fieldEq field value =>
    (filterValueToQuery value).map fun l => (field, [l])
  | .isIn field values =>
    match values.mapM filterValueToQuery with
    | some (l :: ls) => some (field, l :: ls)
    | _ => none
  | _ => none

/-- One turn of the loop that collects the items. -/
def indexableItem (f : Filter) (i : Nat) : Option IndexableItem :=
  match leafLiterals f with
  | some (field, lits) => (internFieldPath ctx field).map fun path => ⟨i, path, lits, f⟩
  | none => none

/-- `find_single_field_index` over the ready definitions. -/
def findSingleFieldIndex (defs : List IndexDef) (path : List Nat) : Option UInt64 :=
  (defs.find? fun d => decide (d.paths = [path])).map IndexDef.name

/-- The items that serve the paths of a composite index, one literal for each. -/
def compositeItems (items : List IndexableItem) : List (List Nat) → Option (List IndexableItem)
  | [] => some []
  | path :: paths =>
    match items.find? (fun it => decide (it.fieldPath = path) && decide (it.lookupSets.length = 1)),
      compositeItems items paths with
    | some it, some its => some (it :: its)
    | _, _ => none

/-- What is left of a conjunction: nothing, the one conjunct, or a smaller conjunction. -/
def conjoin : List Filter → Option Filter
  | [] => none
  | [f] => some f
  | fs => some (.and fs)

/-- `build_residual`. -/
def buildResidual (filters : List Filter) (consumed : List Nat) : Option Filter :=
  conjoin ((filters.zipIdx.filter fun p => decide (p.2 ∉ consumed)).map Prod.fst)

/-- The indexable conjuncts of a conjunction. -/
def indexableItems (filters : List Filter) : List IndexableItem :=
  filters.zipIdx.filterMap fun p => indexableItem ctx p.1 p.2

/-- The first composite index all of whose paths are served. -/
def compositePlan (defs : List IndexDef) (filters : List Filter) (items : List IndexableItem) :
    Option IndexPlan :=
  defs.findSome? fun d =>
    if 1 < d.paths.length then
      (compositeItems items d.paths).map fun its =>
        ⟨d.name, [its.flatMap IndexableItem.lookupSets],
          buildResidual filters (its.map IndexableItem.filterIdx), its.map IndexableItem.filter⟩
    else none

/-- The first index of one field that an item serves. -/
def singlePlan (defs : List IndexDef) (filters : List Filter) (items : List IndexableItem) :
    Option IndexPlan :=
  defs.findSome? fun d =>
    match d.paths with
    | [path] =>
      (items.find? fun it => decide (it.fieldPath = path)).map fun it =>
        ⟨d.name, it.lookupSets.map ([·]), buildResidual filters [it.filterIdx], [it.filter]⟩
    | _ => none

/-- `try_plan_and_index_scan`: composite indexes first, then indexes of one field. -/
def tryPlanAndIndexScan (defs : List IndexDef) (filters : List Filter) : Option IndexPlan :=
  (compositePlan defs filters (indexableItems ctx filters)).or
    (singlePlan defs filters (indexableItems ctx filters))

/-- `try_plan_index_scan`. -/
def tryPlanIndexScan (defs : List IndexDef) (filter : Filter) : Option IndexPlan :=
  match filter with
  | .and filters => tryPlanAndIndexScan ctx defs filters
  | leaf =>
    match leafLiterals leaf with
    | none => none
    | some (field, lits) =>
      match internFieldPath ctx field with
      | none => none
      | some path =>
        (findSingleFieldIndex defs path).map fun name =>
          ⟨name, lits.map ([·]), none, [leaf]⟩

/-! ## The scans -/

/-- `TSet::extend`: an insertion-ordered set takes in more ids. -/
def extendIds (ids more : List RecordId) : List RecordId :=
  more.foldl (fun ids id => if id ∈ ids then ids else ids ++ [id]) ids

/-- The ids of a plan, the union of its lookups in order. -/
def IndexPlan.recordIds (digest : Digest) (store : InfoStore) (plan : IndexPlan) :
    List RecordId :=
  plan.lookupSets.foldl (fun ids values =>
    extendIds ids (lookupByIndex digest store plan.name (values.map ScalarRef.toValue))) []

/-- Whether a row passes the rest of the filter. -/
def residualMatches (residual : Option Filter) (record : Value) : Bool :=
  match residual with
  | some f => f.matches ctx record
  | none => true

/-- `read_index_scan`, up to the rows it goes on to project. -/
def readIndexScan (digest : Digest) (store : InfoStore) (table : Table) (plan : IndexPlan) :
    List Row :=
  (plan.recordIds digest store).filterMap fun id =>
    match table.get id with
    | some record => if residualMatches ctx plan.residual record then some (id, record) else none
    | none => none

/-- The rows of a full scan that the compiled filter matches. -/
def readScan (table : Table) (filter : Filter) : List Row :=
  table.rows.filter fun row => filter.matches ctx row.2

/-! ## The ids of a plan -/

theorem mem_extendIds {ids more : List RecordId} {id : RecordId} :
    id ∈ extendIds ids more ↔ id ∈ ids ∨ id ∈ more := by
  unfold extendIds
  induction more generalizing ids with
  | nil => simp
  | cons x more ih =>
    rw [foldl_cons, ih, mem_cons]
    by_cases hx : x ∈ ids
    · have hin : id ∈ ids ∨ id = x ↔ id ∈ ids := or_iff_left_of_imp fun heq => heq ▸ hx
      rw [if_pos hx, ← or_assoc, hin]
    · rw [if_neg hx, mem_append, mem_singleton, or_assoc]

theorem nodup_extendIds {ids : List RecordId} (more : List RecordId) (h : ids.Nodup) :
    (extendIds ids more).Nodup := by
  unfold extendIds
  induction more generalizing ids with
  | nil => exact h
  | cons x more ih =>
    rw [foldl_cons]
    apply ih
    by_cases hx : x ∈ ids
    · rwa [if_pos hx]
    · rw [if_neg hx, nodup_append]
      refine ⟨h, nodup_singleton x, ?_⟩
      rintro y hy z hz rfl
      exact hx (mem_singleton.1 hz ▸ hy)

/-- A plan returns each id of its lookups once. -/
theorem IndexPlan.recordIds_spec (digest : Digest) (plan : IndexPlan) (store : InfoStore) :
    (plan.recordIds digest store).Nodup ∧ ∀ id, id ∈ plan.recordIds digest store ↔
      ∃ set ∈ plan.lookupSets,
        id ∈ lookupByIndex digest store plan.name (set.map ScalarRef.toValue) := by
  have hunion : plan.recordIds digest store = extendIds [] (plan.lookupSets.flatMap fun set =>
      lookupByIndex digest store plan.name (set.map ScalarRef.toValue)) := foldl_flatMap.symm
  rw [hunion]
  refine ⟨nodup_extendIds _ nodup_nil, fun id => ?_⟩
  rw [mem_extendIds, mem_flatMap, or_iff_right not_mem_nil]

/-- **The rows of a plan**: each once, those that have the code of a lookup and pass the
residual. -/
theorem readIndexScan_spec {digest : Digest} {table : Table} (indexes : HashIndexes digest table) {d : IndexDef}
    (hd : d ∈ indexes.defs) {plan : IndexPlan} (hname : plan.name = d.name) :
    (readIndexScan ctx digest indexes.store table plan).Nodup ∧
      ∀ row, row ∈ readIndexScan ctx digest indexes.store table plan ↔ row ∈ table.rows ∧
        (∃ set ∈ plan.lookupSets, sameCode row.2 d.paths (set.map ScalarRef.toValue) = true) ∧
        residualMatches ctx plan.residual row.2 = true := by
  obtain ⟨hnodup, hmem⟩ := plan.recordIds_spec digest indexes.store
  have hfound : ∀ (id : RecordId) (row : Row), (match table.get id with
      | some record =>
        if residualMatches ctx plan.residual record then some (id, record) else none
      | none => none) = some row ↔
        id = row.1 ∧ row ∈ table.rows ∧ residualMatches ctx plan.residual row.2 = true := by
    intro id row
    cases hget : table.get id with
    | none =>
      simp only [reduceCtorEq, false_iff]
      rintro ⟨rfl, hrow, -⟩
      exact absurd (hget.symm.trans (table.get_eq_some.2 hrow)) (by simp)
    | some record =>
      have hrow := table.get_eq_some.1 hget
      dsimp only
      constructor
      · intro h
        split at h
        · rename_i hres
          rw [← Option.some.inj h]
          exact ⟨rfl, hrow, hres⟩
        · simp at h
      · rintro ⟨rfl, hmemrow, hres⟩
        have heq := table.unique hmemrow hrow rfl
        have hrec : record = row.2 := by rw [heq]
        rw [hrec, if_pos hres]
  unfold readIndexScan
  constructor
  · refine List.Nodup.filterMap ?_ hnodup
    intro id id' row hid hid'
    rw [Option.mem_def, hfound] at hid hid'
    exact hid.1.trans hid'.1.symm
  intro row
  simp only [mem_filterMap, hfound, hmem]
  constructor
  · rintro ⟨id, ⟨set, hset, hid⟩, rfl, hrow, hres⟩
    rw [hname, lookupByIndex_eq digest indexes hd, mem_map] at hid
    obtain ⟨row', hrow', hids⟩ := hid
    rw [mem_filter] at hrow'
    rw [table.unique hrow'.1 hrow hids] at hrow'
    exact ⟨hrow, ⟨set, hset, hrow'.2⟩, hres⟩
  · rintro ⟨hrow, ⟨set, hset, hcode⟩, hres⟩
    refine ⟨row.1, ⟨set, hset, ?_⟩, rfl, hrow, hres⟩
    rw [hname, lookupByIndex_eq digest indexes hd, mem_map]
    exact ⟨row, mem_filter.2 ⟨hrow, hcode⟩, rfl⟩

/-! ## What the index decides and what the scan decides -/

/-- The codes of a leaf's field and of one of its literals agree. -/
def IndexHolds (f : Filter) (record : Value) : Prop :=
  ∃ field lits path, leafLiterals f = some (field, lits) ∧
    internFieldPath ctx field = some path ∧ ∃ l ∈ lits, HoldsClass record path l

/-- A membership leaf on a field that holds a decimal, a big integer or a container. -/
def HeldUnscanned (f : Filter) (record : Value) : Prop :=
  match f with
  | .isIn field _ => ∃ path v, internFieldPath ctx field = some path ∧
      descendPath record path = some v ∧ v.toScalar = none
  | _ => False

/-- An equality leaf whose literal is a text that spells the big integer in the field. -/
def SpelledOut (f : Filter) (record : Value) : Prop :=
  match f with
  | .compare .eq field (.lit l) | .fieldEq field (.lit l) =>
    ∃ path v, internFieldPath ctx field = some path ∧ descendPath record path = some v ∧ Spelled v l
  | _ => False

variable {ctx}

variable {lits : List ScalarRef} {paths : List (List Nat)} {path : List Nat}
  {its : List IndexableItem} {f : Filter} {filters : List Filter} {field : List String}
  {record : Value} {defs : List IndexDef}

/-- The leaves an index serves. -/
theorem leafLiterals_eq_some (h : leafLiterals f = some (field, lits)) :
    (∃ l, lits = [l] ∧ (f = .compare .eq field (.lit l) ∨ f = .fieldEq field (.lit l))) ∨
      ∃ values, f = .isIn field values ∧ values.mapM filterValueToQuery = some lits := by
  have hlit : ∀ {value : FilterValue} {l : ScalarRef}, filterValueToQuery value = some l →
      value = .lit l := by
    intro value l hv
    cases value <;> simp_all [filterValueToQuery]
  unfold leafLiterals at h
  split at h
  · obtain ⟨l, hl, heq⟩ := Option.map_eq_some_iff.1 h
    obtain ⟨rfl, rfl⟩ := Prod.mk.inj heq
    rw [hlit hl]
    exact .inl ⟨l, rfl, .inl rfl⟩
  · obtain ⟨l, hl, heq⟩ := Option.map_eq_some_iff.1 h
    obtain ⟨rfl, rfl⟩ := Prod.mk.inj heq
    rw [hlit hl]
    exact .inl ⟨l, rfl, .inr rfl⟩
  · split at h
    · rename_i hvalues
      obtain ⟨rfl, rfl⟩ := Prod.mk.inj (Option.some.inj h)
      exact .inr ⟨_, rfl, hvalues⟩
    · simp at h
  · simp at h

section

variable (hf : leafLiterals f = some (field, lits)) (hpath : internFieldPath ctx field = some path)
  (record : Value)
include hf hpath

/-- A record holds the class of one of the literals. -/
theorem indexHolds_iff : IndexHolds ctx f record ↔ ∃ l ∈ lits, HoldsClass record path l := by
  constructor
  · rintro ⟨field', lits', path', hf', hpath', h⟩
    obtain ⟨rfl, rfl⟩ := Prod.mk.inj (Option.some.inj (hf.symm.trans hf'))
    obtain rfl := Option.some.inj (hpath.symm.trans hpath')
    exact h
  · intro h
    exact ⟨field, lits, path, hf, hpath, h⟩

/-- **A served leaf in the scan**: what the index decides, without the fields a membership
leaf does not see, and the texts that spell a big integer. -/
theorem leaf_matches_iff :
    f.matches ctx record = true ↔
      (IndexHolds ctx f record ∧ ¬ HeldUnscanned ctx f record) ∨ SpelledOut ctx f record := by
  rw [indexHolds_iff hf hpath]
  have heq : ∀ {l : ScalarRef}, lits = [l] →
      f.tryCompile ctx = some (onPath ctx field .never (.compare · .eq (.lit l))) →
      (SpelledOut ctx f record ↔ ∃ path v, internFieldPath ctx field = some path ∧
        descendPath record path = some v ∧ Spelled v l) → ¬ HeldUnscanned ctx f record →
      (f.matches ctx record = true ↔ ((∃ l ∈ lits, HoldsClass record path l) ∧
        ¬ HeldUnscanned ctx f record) ∨ SpelledOut ctx f record) := by
    rintro l rfl hcompile hspelled hscanned
    rw [Filter.matches_of_path hpath hcompile, FilterNode.matches, FilterValue.resolve,
      matchCompare_eq_lit, hspelled]
    simp only [mem_singleton, exists_eq_left, hpath, Option.some.injEq, exists_and_left,
      exists_eq_left', hscanned, not_false_eq_true, and_true, and_or_left, exists_or]
    rfl
  rcases leafLiterals_eq_some hf with ⟨l, hl, rfl | rfl⟩ | ⟨values, rfl, hvalues⟩
  · exact heq hl rfl Iff.rfl id
  · exact heq hl rfl Iff.rfl id
  have hscanned : HeldUnscanned ctx (.isIn field values) record ↔
      ∃ v, descendPath record path = some v ∧ v.toScalar = none := by
    simp [HeldUnscanned, hpath]
  rw [Filter.matches_of_path hpath rfl, compileInNode, hvalues, hscanned]
  simp only [FilterNode.matches, SpelledOut, or_false, HoldsClass, scalarAt]
  cases hv : descendPath record path with
  | none => simp
  | some v =>
    rw [Option.bind_some]
    cases hs : v.toScalar with
    | none => simp [hs]
    | some a =>
      obtain rfl := Value.toValue_of_toScalar hs
      simp only [Bool.bne_false, setContainsCoercing_iff, Option.some.injEq, exists_eq_left', hs,
        reduceCtorEq, not_false_eq_true, and_true]

end

/-- A text that spells a big integer has another code. -/
theorem not_indexHolds_of_spelledOut (h : SpelledOut ctx f record) : ¬ IndexHolds ctx f record := by
  have hclass : ∀ {v : Value} {l : ScalarRef}, Spelled v l → ¬ SameClass v l.toValue := by
    intro v l hspelled hsame
    cases v <;> cases l <;> first
      | exact hspelled
      | exact absurd hsame.1 (by simp [Value.eqClass, ScalarRef.toValue])
  have hleaf : ∀ {field : List String} {l : ScalarRef}, leafLiterals f = some (field, [l]) →
      (∃ path v, internFieldPath ctx field = some path ∧ descendPath record path = some v ∧
        Spelled v l) → ¬ IndexHolds ctx f record := by
    rintro field l hf ⟨path, v, hpath, hv, hspelled⟩ ⟨field', lits, path', hf', hpath', l', hl', v',
      hv', hsame⟩
    obtain ⟨rfl, rfl⟩ := Prod.mk.inj (Option.some.inj (hf.symm.trans hf'))
    obtain rfl := Option.some.inj (hpath.symm.trans hpath')
    obtain rfl := Option.some.inj (hv.symm.trans hv')
    rw [mem_singleton.1 hl'] at hsame
    exact hclass hspelled hsame
  unfold SpelledOut at h
  split at h
  · exact hleaf rfl h
  · exact hleaf rfl h
  · exact h.elim

/-! ## The plan covers the filter -/

/-- What a plan has to do with its filter: its lookups decide the served leaves, and the
served leaves and the residual are the filter. -/
structure IndexPlan.Covers (ctx : FilterContext) (plan : IndexPlan) (d : IndexDef)
    (filter : Filter) : Prop where
  name : plan.name = d.name
  leaves : ∀ f ∈ plan.served, ∃ field lits path, leafLiterals f = some (field, lits) ∧
    internFieldPath ctx field = some path
  lookups : ∀ record, (∃ set ∈ plan.lookupSets,
    sameCode record d.paths (set.map ScalarRef.toValue) = true) ↔
      ∀ f ∈ plan.served, IndexHolds ctx f record
  conjuncts : ∀ record, filter.matches ctx record = true ↔
    (∀ f ∈ plan.served, f.matches ctx record = true) ∧
      residualMatches ctx plan.residual record = true

theorem sameCode_lits_iff (hlen : paths.length = lits.length) :
    sameCode record paths (lits.map ScalarRef.toValue) = true ↔
      List.Forall₂ (HoldsClass record) paths lits := by
  rw [sameCode_iff, canonical_eq_iff record paths lits hlen]

/-- The lookups of an index of one field. -/
theorem single_lookups_iff :
    (∃ set ∈ lits.map ([·]), sameCode record [path] (set.map ScalarRef.toValue) = true) ↔
      ∃ l ∈ lits, HoldsClass record path l := by
  simp only [mem_map, exists_exists_and_eq_and]
  refine exists_congr fun l => and_congr_right fun _ => ?_
  rw [sameCode_lits_iff (by rfl)]
  simp

theorem indexableItem_spec {i : Nat} {it : IndexableItem} (h : indexableItem ctx f i = some it) :
    it.filterIdx = i ∧ it.filter = f ∧ ∃ field, leafLiterals f = some (field, it.lookupSets) ∧
      internFieldPath ctx field = some it.fieldPath := by
  unfold indexableItem at h
  split at h
  · rename_i field lits hf
    obtain ⟨path, hpath, rfl⟩ := Option.map_eq_some_iff.1 h
    exact ⟨rfl, rfl, field, hf, hpath⟩
  · simp at h

/-- `find_single_field_index` finds an index of the one path. -/
theorem findSingleFieldIndex_eq_some {name : UInt64}
    (h : findSingleFieldIndex defs path = some name) :
    ∃ d ∈ defs, d.name = name ∧ d.paths = [path] := by
  obtain ⟨d, hd, rfl⟩ := Option.map_eq_some_iff.1 h
  have hpaths := find?_some hd
  exact ⟨d, mem_of_find?_eq_some hd, rfl, of_decide_eq_true hpaths⟩

/-- A residual holds when all its parts do. -/
theorem residualMatches_conjoin (filters : List Filter) (record : Value) :
    residualMatches ctx (conjoin filters) record = true ↔
      ∀ f ∈ filters, f.matches ctx record = true := by
  unfold conjoin
  split
  · simp [residualMatches]
  · simp [residualMatches]
  · exact Filter.matches_and ctx _ record

/-- The residual has the filters that are not consumed. -/
theorem residualMatches_buildResidual (filters : List Filter) (consumed : List Nat)
    (record : Value) :
    residualMatches ctx (buildResidual filters consumed) record = true ↔
      ∀ f i, (f, i) ∈ filters.zipIdx → i ∉ consumed → f.matches ctx record = true := by
  have hrest : (∀ f ∈ (filters.zipIdx.filter fun p => decide (p.2 ∉ consumed)).map Prod.fst,
      f.matches ctx record = true) ↔
      ∀ f i, (f, i) ∈ filters.zipIdx → i ∉ consumed → f.matches ctx record = true := by
    simp only [mem_map, mem_filter, decide_eq_true_eq, Prod.exists]
    constructor
    · intro h f i hmem hi
      exact h f ⟨f, i, ⟨hmem, hi⟩, rfl⟩
    · rintro h f ⟨f', i, ⟨hmem, hi⟩, rfl⟩
      exact h f' i hmem hi
  rw [← hrest, buildResidual, residualMatches_conjoin]

theorem and_conjuncts (hits : ∀ it ∈ its, (it.filter, it.filterIdx) ∈ filters.zipIdx)
    (record : Value) :
    (Filter.and filters).matches ctx record = true ↔
      (∀ f ∈ its.map IndexableItem.filter, f.matches ctx record = true) ∧
        residualMatches ctx (buildResidual filters (its.map IndexableItem.filterIdx)) record =
          true := by
  rw [Filter.matches_and, residualMatches_buildResidual]
  constructor
  · intro h
    constructor
    · intro f hf
      obtain ⟨it, hit, rfl⟩ := mem_map.1 hf
      exact h _ (fst_mem_of_mem_zipIdx (hits it hit))
    · intro f i hmem _
      exact h f (fst_mem_of_mem_zipIdx hmem)
  · rintro ⟨hserved, hrest⟩ f hf
    obtain ⟨i, hi, rfl⟩ := getElem_of_mem hf
    have hmem : (filters[i], i) ∈ filters.zipIdx := mk_mem_zipIdx_iff_getElem?.2 (by simp [hi])
    by_cases hconsumed : i ∈ its.map IndexableItem.filterIdx
    · obtain ⟨it, hit, hidx⟩ := mem_map.1 hconsumed
      have hsame := mk_mem_zipIdx_iff_getElem?.1 (hits it hit)
      rw [hidx, getElem?_eq_getElem hi] at hsame
      rw [Option.some.inj hsame]
      exact hserved _ (mem_map_of_mem hit)
    · exact hrest _ i hmem hconsumed

/-- An item serves a path of a composite index. -/
def IndexableItem.Serves (items : List IndexableItem) (path : List Nat) (it : IndexableItem) :
    Prop :=
  it ∈ items ∧ it.fieldPath = path ∧ it.lookupSets.length = 1

/-- Each path of a composite index has its item. -/
theorem compositeItems_spec {items : List IndexableItem}
    (h : compositeItems items paths = some its) :
    List.Forall₂ (IndexableItem.Serves items) paths its := by
  induction paths generalizing its with
  | nil =>
    rw [compositeItems, Option.some.injEq] at h
    rw [← h]
    exact .nil
  | cons path paths ih =>
    rw [compositeItems] at h
    split at h
    case h_2 => simp at h
    case h_1 it its' hit hits =>
      rw [← Option.some.inj h]
      have htest := find?_some hit
      simp only [Bool.and_eq_true, decide_eq_true_eq] at htest
      exact .cons ⟨mem_of_find?_eq_some hit, htest.1, htest.2⟩ (ih hits)

section

variable {items its : List IndexableItem} (h : List.Forall₂ (IndexableItem.Serves items) paths its)
include h

theorem mem_of_serves : ∀ it ∈ its, it ∈ items := by
  induction h with
  | nil => simp
  | cons hserves _ ih => exact forall_mem_cons.2 ⟨hserves.1, ih⟩

theorem composite_lookup_iff (record : Value) :
    paths.length = (its.flatMap IndexableItem.lookupSets).length ∧
      (List.Forall₂ (HoldsClass record) paths (its.flatMap IndexableItem.lookupSets) ↔
        ∀ it ∈ its, ∃ l ∈ it.lookupSets, HoldsClass record it.fieldPath l) := by
  induction h with
  | nil => simp
  | cons hserves _ ih =>
    obtain ⟨-, rfl, hone⟩ := hserves
    obtain ⟨l, hl⟩ := length_eq_one_iff.1 hone
    rw [flatMap_cons, hl, singleton_append, forall₂_cons, forall_mem_cons, ih.2,
      length_cons, ih.1, hl]
    simp

end

/-- An item stands for a leaf of the filter. -/
theorem mem_indexableItems {it : IndexableItem} (h : it ∈ indexableItems ctx filters) :
    (it.filter, it.filterIdx) ∈ filters.zipIdx ∧ ∃ field,
      leafLiterals it.filter = some (field, it.lookupSets) ∧
        internFieldPath ctx field = some it.fieldPath := by
  obtain ⟨⟨f, i⟩, hmem, hit⟩ := mem_filterMap.1 h
  obtain ⟨hidx, hfilter, hleaf⟩ := indexableItem_spec hit
  subst hidx hfilter
  exact ⟨hmem, hleaf⟩

theorem covers_of_items {d : IndexDef} {sets : List (List ScalarRef)}
    (hits : ∀ it ∈ its, it ∈ indexableItems ctx filters)
    (hsets : ∀ record, (∃ set ∈ sets, sameCode record d.paths (set.map ScalarRef.toValue) = true) ↔
      ∀ it ∈ its, ∃ l ∈ it.lookupSets, HoldsClass record it.fieldPath l) :
    IndexPlan.Covers ctx ⟨d.name, sets, buildResidual filters (its.map IndexableItem.filterIdx),
      its.map IndexableItem.filter⟩ d (.and filters) where
  name := rfl
  leaves := by
    intro f hf
    obtain ⟨it, hit, rfl⟩ := mem_map.1 hf
    obtain ⟨-, field, hleaf, hpath⟩ := mem_indexableItems (hits it hit)
    exact ⟨field, _, _, hleaf, hpath⟩
  lookups := by
    intro record
    rw [hsets record, forall_mem_map]
    refine forall₂_congr fun it hit => ?_
    obtain ⟨-, field, hleaf, hpath⟩ := mem_indexableItems (hits it hit)
    rw [indexHolds_iff hleaf hpath]
  conjuncts := and_conjuncts fun it hit => (mem_indexableItems (hits it hit)).1

/-- **Every plan covers its filter**, and looks up as many values as its index has paths. -/
theorem tryPlanIndexScan_spec {filter : Filter} {plan : IndexPlan}
    (h : tryPlanIndexScan ctx defs filter = some plan) :
    ∃ d ∈ defs, plan.Covers ctx d filter ∧ ∀ set ∈ plan.lookupSets, d.paths.length = set.length := by
  have hones : ∀ {d : IndexDef} {path : List Nat} {lits : List ScalarRef}, d.paths = [path] →
      ∀ set ∈ lits.map ([·]), d.paths.length = set.length := by
    intro d path lits hpaths set hset
    obtain ⟨l, -, rfl⟩ := mem_map.1 hset
    rw [hpaths]
    rfl
  have hleaf : ∀ {leaf : Filter}, (match leafLiterals leaf with
      | none => none
      | some (field, lits) =>
        match internFieldPath ctx field with
        | none => none
        | some path => (findSingleFieldIndex defs path).map fun name =>
          (⟨name, lits.map ([·]), none, [leaf]⟩ : IndexPlan)) = some plan →
      ∃ d ∈ defs, plan.Covers ctx d leaf ∧
        ∀ set ∈ plan.lookupSets, d.paths.length = set.length := by
    intro leaf h
    split at h
    case h_1 => simp at h
    case h_2 field lits hlits =>
      split at h
      case h_1 => simp at h
      case h_2 path hpath =>
        obtain ⟨name, hname, rfl⟩ := Option.map_eq_some_iff.1 h
        obtain ⟨d, hd, rfl, hpaths⟩ := findSingleFieldIndex_eq_some hname
        refine ⟨d, hd, ⟨rfl, ?_, ?_, ?_⟩, hones hpaths⟩
        · intro f hf
          rw [mem_singleton.1 hf]
          exact ⟨field, lits, path, hlits, hpath⟩
        · intro record
          rw [hpaths, single_lookups_iff, forall_mem_singleton, indexHolds_iff hlits hpath]
        · simp [residualMatches]
  unfold tryPlanIndexScan at h
  split at h
  case h_2 => exact hleaf h
  case h_1 filters =>
    rw [tryPlanAndIndexScan, Option.or_eq_some_iff] at h
    rcases h with h | ⟨-, h⟩
    · obtain ⟨d, hd, hplan⟩ := exists_of_findSome?_eq_some h
      split at hplan
      case isFalse => simp at hplan
      case isTrue =>
        obtain ⟨its, hits, rfl⟩ := Option.map_eq_some_iff.1 hplan
        have hserves := compositeItems_spec hits
        refine ⟨d, hd, covers_of_items ?_ ?_, ?_⟩
        · exact mem_of_serves hserves
        · intro record
          obtain ⟨hlen, hiff⟩ := composite_lookup_iff hserves record
          simp only [mem_singleton, exists_eq_left]
          rw [sameCode_lits_iff hlen, hiff]
        · exact forall_mem_singleton.2 (composite_lookup_iff hserves .null).1
    · obtain ⟨d, hd, hplan⟩ := exists_of_findSome?_eq_some h
      split at hplan
      case h_2 => simp at hplan
      case h_1 path hpaths =>
        obtain ⟨it, hit, rfl⟩ := Option.map_eq_some_iff.1 hplan
        have htest := find?_some hit
        have hpath : it.fieldPath = path := of_decide_eq_true htest
        refine ⟨d, hd, @covers_of_items ctx [it] filters d _ ?_ ?_, hones hpaths⟩
        · intro x hx
          rw [mem_singleton.1 hx]
          exact mem_of_find?_eq_some hit
        · intro record
          rw [hpaths, single_lookups_iff, forall_mem_singleton, hpath]

/-! ## Index and scan -/

/-- **When a plan returns what a scan returns.**  For every row that passes the residual: not
all served leaves find the row's codes while one of them is a membership leaf on a field the
scan does not see, and not all of them match it while one compares a big integer with a text
that spells it. -/
theorem readIndexScan_perm_iff {digest : Digest} {table : Table}
    (indexes : HashIndexes digest table) {filter : Filter} {plan : IndexPlan}
    (hplan : tryPlanIndexScan ctx indexes.defs filter = some plan) :
    (readIndexScan ctx digest indexes.store table plan).Perm (readScan ctx table filter) ↔
      ∀ row ∈ table.rows, residualMatches ctx plan.residual row.2 = true →
        ¬ ((∀ f ∈ plan.served, IndexHolds ctx f row.2) ∧
            ∃ f ∈ plan.served, HeldUnscanned ctx f row.2) ∧
        ¬ ((∀ f ∈ plan.served, f.matches ctx row.2 = true) ∧
            ∃ f ∈ plan.served, SpelledOut ctx f row.2) := by
  obtain ⟨d, hd, hcovers, -⟩ := tryPlanIndexScan_spec hplan
  obtain ⟨hnodup, hmem⟩ := readIndexScan_spec ctx indexes hd hcovers.name
  -- a row on which one leaf is decided differently
  have hrow : ∀ record, ((∀ f ∈ plan.served, IndexHolds ctx f record) ↔
      ∀ f ∈ plan.served, f.matches ctx record = true) ↔
      ¬ ((∀ f ∈ plan.served, IndexHolds ctx f record) ∧
          ∃ f ∈ plan.served, HeldUnscanned ctx f record) ∧
        ¬ ((∀ f ∈ plan.served, f.matches ctx record = true) ∧
          ∃ f ∈ plan.served, SpelledOut ctx f record) := by
    intro record
    have hleaf : ∀ f ∈ plan.served, f.matches ctx record = true ↔
        (IndexHolds ctx f record ∧ ¬ HeldUnscanned ctx f record) ∨ SpelledOut ctx f record := by
      intro f hf
      obtain ⟨field, lits, path, hlits, hpath⟩ := hcovers.leaves f hf
      exact leaf_matches_iff hlits hpath record
    constructor
    · intro hiff
      constructor
      · rintro ⟨hall, f, hf, hheld⟩
        rcases (hleaf f hf).1 (hiff.1 hall f hf) with ⟨-, hnot⟩ | hspelled
        · exact hnot hheld
        · exact not_indexHolds_of_spelledOut hspelled (hall f hf)
      · rintro ⟨hall, f, hf, hspelled⟩
        exact not_indexHolds_of_spelledOut hspelled (hiff.2 hall f hf)
    · rintro ⟨hheld, hspelled⟩
      constructor
      · intro hall f hf
        exact (hleaf f hf).2 (.inl ⟨hall f hf, fun h => hheld ⟨hall, f, hf, h⟩⟩)
      · intro hall f hf
        rcases (hleaf f hf).1 (hall f hf) with ⟨hindex, -⟩ | h
        · exact hindex
        · exact absurd ⟨hall, f, hf, h⟩ hspelled
  have hscan : (readScan ctx table filter).Nodup := table.nodup.filter _
  rw [perm_ext_iff_of_nodup hnodup hscan]
  constructor
  · intro hsame row hrows hres
    refine (hrow row.2).1 ⟨fun hall => ?_, fun hall => ?_⟩
    · have hin := (hsame row).1 ((hmem row).2 ⟨hrows, (hcovers.lookups row.2).2 hall, hres⟩)
      exact ((hcovers.conjuncts row.2).1 (mem_filter.1 hin).2).1
    · have hin := (hsame row).2 (mem_filter.2 ⟨hrows, (hcovers.conjuncts row.2).2 ⟨hall, hres⟩⟩)
      exact (hcovers.lookups row.2).1 ((hmem row).1 hin).2.1
  · intro hagree row
    rw [hmem, readScan, mem_filter, hcovers.conjuncts, hcovers.lookups]
    constructor
    · rintro ⟨hrows, hall, hres⟩
      exact ⟨hrows, ((hrow row.2).2 (hagree row hrows hres)).1 hall, hres⟩
    · rintro ⟨hrows, hall, hres⟩
      exact ⟨hrows, ((hrow row.2).2 (hagree row hrows hres)).2 hall, hres⟩

/-! ## A table of one row -/

/-- The index of a table of one row. -/
def HashIndexes.ofRow {digest : Digest} {row : Row} (d : IndexDef) (entry : Bytes × Bytes)
    (h : d.posting digest row = some entry) :
    HashIndexes digest ⟨[row], pairwise_singleton _ _⟩ where
  defs := [d]
  store := [entry]
  named := nodup_singleton _
  ascending := pairwise_singleton _ _
  exact_postings := by
    intro e _
    simp only [mem_singleton, exists_eq_left, h, Option.some.injEq]
    exact eq_comm

/-- A context with one field name. -/
def oneField : FilterContext where
  getInd := fun _ => some 1
  lib := ⟨fun _ => ⟨0⟩, fun _ => ⟨0⟩, fun _ => none⟩

def zeroDigest : Digest := fun _ => ⟨replicate 32 0, length_replicate⟩

def firstId : RecordId := ⟨replicate 16 0, length_replicate⟩

/-- The index on the one field of a table of one row. -/
def oneIndex (v : Value) (entry : Bytes × Bytes)
    (h : (⟨7, [[1]]⟩ : IndexDef).posting zeroDigest (firstId, .map [(1, v)]) = some entry) :
    HashIndexes zeroDigest ⟨[(firstId, .map [(1, v)])], pairwise_singleton _ _⟩ :=
  .ofRow ⟨7, [[1]]⟩ entry h

/-- An integer is found by the float it equals. -/
theorem readIndexScan_perm_int :
    (readIndexScan oneField zeroDigest (oneIndex (.int 5) _ rfl).store
      ⟨[(firstId, .map [(1, .int 5)])], pairwise_singleton _ _⟩
      ⟨7, [[.f64 ⟨0x4014000000000000⟩], [.null]], none,
        [.isIn ["n"] [.lit (.f64 ⟨0x4014000000000000⟩), .lit .null]]⟩).Perm
    (readScan oneField ⟨[(firstId, .map [(1, .int 5)])], pairwise_singleton _ _⟩
      (.isIn ["n"] [.lit (.f64 ⟨0x4014000000000000⟩), .lit .null])) := by
  refine (readIndexScan_perm_iff (oneIndex (.int 5) _ rfl) rfl).2 ?_
  intro row hrow _
  rw [mem_singleton.1 hrow]
  constructor
  · rintro ⟨-, f, hf, hheld⟩
    rw [mem_singleton.1 hf] at hheld
    obtain ⟨path, v, hpath, hv, hscalar⟩ := hheld
    obtain rfl := Option.some.inj hpath
    obtain rfl := Option.some.inj hv
    simp [Value.toScalar] at hscalar
  · rintro ⟨-, f, hf, hspelled⟩
    rw [mem_singleton.1 hf] at hspelled
    exact hspelled

/-- **A big integer is found by the index and not by the scan**: `2^63` and an `In` list with
the float `2^63`. -/
theorem readIndexScan_big_ne :
    ∃ plan, tryPlanIndexScan oneField (oneIndex (.big (2 ^ 63)) _ rfl).defs
        (.isIn ["n"] [.lit (.f64 ⟨0x43E0000000000000⟩)]) = some plan ∧
      ¬ (readIndexScan oneField zeroDigest (oneIndex (.big (2 ^ 63)) _ rfl).store
        ⟨[(firstId, .map [(1, .big (2 ^ 63))])], pairwise_singleton _ _⟩ plan).Perm
      (readScan oneField ⟨[(firstId, .map [(1, .big (2 ^ 63))])], pairwise_singleton _ _⟩
        (.isIn ["n"] [.lit (.f64 ⟨0x43E0000000000000⟩)])) := by
  refine ⟨_, rfl, fun h => ?_⟩
  exact absurd h.length_eq (by decide +kernel)

end ShamirDb.Query
