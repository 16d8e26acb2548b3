/-
# When a sorted index mirrors a version

The postings of the index are those of the rows after the commits that have been applied.  In a
run of faithful steps they are also those of the rows at every visible version that the counter
is not above: an applied commit above the version, and a commit below it that is not applied,
have changed no posting.
-/
import ShamirDb.AsOfSeek

namespace ShamirDb.AsOf

open Machine List Option Function
open Query

variable {d : SortedDef} {s : System} {key : Bytes}

/-! ## The postings of one row -/

/-- A posting key ends with the row's id. -/
theorem posting_decode {row : Row} (h : d.posting row = some key) :
    decodeRecordIdSuffix key = some row.1 := by
  obtain ⟨v, encoded, -, -, rfl⟩ := SortedDef.posting_eq_some.1 h
  exact decodeRecordIdSuffix_posting _ _ _

variable {keys : List Bytes} {id : RecordId} {c c' : Commit} {cur found seen : RecordId → Option Value}
  {v : Nat} {old new : Option Value} {k : Bytes}

/-- So does the posting of a version. -/
theorem post_decode {value : Option Value} (h : post d id value = some key) :
    decodeRecordIdSuffix key = some id := by
  obtain ⟨r, -, hr⟩ := bind_eq_some_iff.1 h
  exact posting_decode hr

/-- A posting changes with the encoded value only. -/
theorem posting_eq_iff (id : RecordId) (old new : Value) :
    d.posting (id, old) = d.posting (id, new) ↔
      extractAndEncode old d.path = extractAndEncode new d.path := by
  refine Function.Injective.eq_iff (Option.map_injective fun x y hxy => ?_)
  exact append_cancel_right (append_cancel_left hxy)

/-- **The planner for one row**: a posting that changes is removed and set. -/
theorem planRow_eq (id : RecordId) (old new : Option Value) :
    planRow d id old new = if post d id old = post d id new then []
      else ((post d id old).map PostingOp.remove).toList ++ ((post d id new).map PostingOp.set).toList := by
  cases old with
  | none =>
    cases new with
    | none => rfl
    | some n => cases hn : d.posting (id, n) <;> simp [planRow, planRecordCreated, post, hn]
  | some o =>
    cases new with
    | none => cases ho : d.posting (id, o) <;> simp [planRow, planRecordDeleted, post, ho]
    | some n =>
      have hsame := posting_eq_iff (d := d) id o n
      simp only [planRow, planRecordUpdated, ← hsame]
      rfl

/-- A row whose posting does not change has nothing to apply. -/
theorem planRow_eq_nil : planRow d id old new = [] ↔ post d id old = post d id new := by
  rw [planRow_eq]
  by_cases h : post d id old = post d id new
  · simp [h]
  cases ho : post d id old with
  | some k => simp
  | none =>
    cases hn : post d id new with
    | some k => simp
    | none => exact absurd (ho.trans hn.symm) h

theorem mem_applyOp_set : k ∈ applyOp keys (.set key) ↔ k = key ∨ k ∈ keys := by
  rw [applyOp]
  split
  · rename_i hkey
    exact (or_iff_right_of_imp fun h => h ▸ hkey).symm
  · exact mem_cons

theorem mem_applyOp_remove : k ∈ applyOp keys (.remove key) ↔ k ∈ keys ∧ k ≠ key := by
  simp [applyOp]

/-- A planned row replaces its own posting and no other one. -/
theorem mem_planRow
    (hold : ∀ k, decodeRecordIdSuffix k = some id → (k ∈ keys ↔ post d id old = some k))
    (k : Bytes) :
    k ∈ (planRow d id old new).foldl applyOp keys ↔
      (decodeRecordIdSuffix k = some id ∧ post d id new = some k) ∨
        (decodeRecordIdSuffix k ≠ some id ∧ k ∈ keys) := by
  have hsplit : k ∈ keys ↔ (decodeRecordIdSuffix k = some id ∧ post d id old = some k) ∨
      (decodeRecordIdSuffix k ≠ some id ∧ k ∈ keys) := by
    by_cases hk : decodeRecordIdSuffix k = some id
    · simp [hk, hold k hk]
    · simp [hk]
  rw [planRow_eq]
  by_cases h : post d id old = post d id new
  · rw [if_pos h, ← h]
    exact hsplit
  rw [if_neg h]
  -- after the removal no key of the row is left
  have hremoved : ∀ k, k ∈ ((post d id old).map PostingOp.remove).toList.foldl applyOp keys ↔
      decodeRecordIdSuffix k ≠ some id ∧ k ∈ keys := by
    intro k
    by_cases hk : decodeRecordIdSuffix k = some id
    · have hmem := hold k hk
      cases ho : post d id old with
      | none => simp [hmem, ho]
      | some key =>
        rw [map_some, toList_some, foldl_cons, foldl_nil, mem_applyOp_remove, hmem, ho]
        simp [hk, eq_comm]
    · cases ho : post d id old with
      | none => simp [hk]
      | some key =>
        rw [map_some, toList_some, foldl_cons, foldl_nil, mem_applyOp_remove]
        have hne : k ≠ key := by
          rintro rfl
          exact hk (post_decode ho)
        simp [hk, hne]
  rw [foldl_append]
  cases hn : post d id new with
  | none =>
    rw [map_none, toList_none, foldl_nil, hremoved]
    simp
  | some key =>
    rw [map_some, toList_some, foldl_cons, foldl_nil, mem_applyOp_set, hremoved]
    refine or_congr_left ?_
    constructor
    · rintro rfl
      exact ⟨post_decode hn, rfl⟩
    · rintro ⟨-, h⟩
      exact (some.inj h).symm

/-! ## The postings of a commit -/

/-- The keys have the postings of the rows `cur` says. -/
def Posted (d : SortedDef) (keys : List Bytes) (cur : RecordId → Option Value) : Prop :=
  ∀ key, key ∈ keys ↔ ∃ id, post d id (cur id) = some key

theorem Posted.mem_iff (h : Posted d keys cur) (hk : decodeRecordIdSuffix k = some id) :
    k ∈ keys ↔ post d id (cur id) = some k := by
  rw [h k]
  constructor
  · rintro ⟨id', hid'⟩
    rwa [some.inj (hk.symm.trans (post_decode hid'))]
  · exact fun hpost => ⟨id, hpost⟩

/-- A planned row is posted. -/
theorem Posted.row (h : Posted d keys cur) {old : Option Value}
    (hold : post d id old = post d id (cur id)) (new : Option Value) :
    Posted d ((planRow d id old new).foldl applyOp keys) (update cur id new) := by
  intro k
  rw [mem_planRow fun k hk => by rw [h.mem_iff hk, hold]]
  constructor
  · rintro (⟨-, hpost⟩ | ⟨hne, hmem⟩)
    · exact ⟨id, by rwa [update_self]⟩
    · obtain ⟨id', hid'⟩ := (h k).1 hmem
      have hother : id' ≠ id := by
        rintro rfl
        exact hne (post_decode hid')
      exact ⟨id', by rwa [update_of_ne hother]⟩
  · rintro ⟨id', hid'⟩
    by_cases hid : id' = id
    · subst hid
      rw [update_self] at hid'
      exact .inl ⟨post_decode hid', hid'⟩
    · rw [update_of_ne hid] at hid'
      refine .inr ⟨?_, (h k).2 ⟨id', hid'⟩⟩
      rw [post_decode hid']
      exact fun heq => hid (some.inj heq)

/-- **The postings of a commit** take the index from the rows before it to the rows after it. -/
theorem Posted.rows {rows : List (RecordId × Option Value)} (hnodup : (rows.map Prod.fst).Nodup)
    {cur : RecordId → Option Value} (h : Posted d keys cur)
    (hseen : ∀ row ∈ rows, post d row.1 (seen row.1) = post d row.1 (cur row.1)) :
    Posted d ((rows.flatMap fun row => planRow d row.1 (seen row.1) row.2).foldl applyOp keys)
      fun id => (rows.lookup id).getD (cur id) := by
  induction rows generalizing keys cur with
  | nil => exact h
  | cons row rows ih =>
    obtain ⟨id, new⟩ := row
    rw [map_cons, nodup_cons] at hnodup
    rw [flatMap_cons, foldl_append]
    have hne : ∀ row ∈ rows, row.1 ≠ id :=
      fun row hrow heq => hnodup.1 (mem_map.2 ⟨row, hrow, heq⟩)
    have hone := h.row (hseen (id, new) mem_cons_self) new
    have hrest := ih hnodup.2 hone fun row hrow => by
      rw [update_of_ne (hne row hrow)]
      exact hseen row (mem_cons_of_mem _ hrow)
    intro k
    rw [hrest k]
    refine exists_congr fun i => ?_
    simp only [lookup_cons]
    by_cases hi : i = id
    · subst hi
      have hnone : rows.lookup i = none := by
        rw [lookup_eq_none_iff]
        intro row hrow
        simpa using (hne row hrow).symm
      rw [hnone, update_self, beq_self_eq_true]
      rfl
    · rw [update_of_ne hi, beq_false_of_ne hi]

/-! ## The invariant of the index -/

namespace System

/-- The postings of the commit have been applied. -/
def isApplied (s : System) (c : Commit) : Bool := decide (c.version ∈ s.applied)

/-- The rows after a number of commits. -/
def valueAfter (s : System) (commits : List Commit) (id : RecordId) : Option Value :=
  OverwriteLog.value Commit.newValue s.base.get commits id

end System

/-- What a run keeps about the commits and the index: each commit was planned from values with
the postings of the rows before it, the applied commits are an initial part for every row, the index has their postings,
and what changed the index is not above the counter. -/
structure Inv (d : SortedDef) (s : System) : Prop where
  versions : s.commits.Pairwise fun c c' => c.version < c'.version
  below : ∀ c ∈ s.commits, c.version ≤ s.lastVersion
  planned : ∀ before c later, s.commits = before ++ c :: later →
    ∃ seen, c.ops = planOps d seen c.changes ∧
      ∀ row ∈ c.changes.rows, post d row.1 (seen row.1) = post d row.1 (s.valueAfter before row.1)
  parts : ∀ id, ∃ front back,
    OverwriteLog.Split Commit.newValue s.isApplied id s.commits front back
  posted : Posted d s.keys (s.valueBy s.isApplied)
  appliedBelow : ∀ v ∈ s.applied, v ≤ s.lastVersion
  bumpedBelow : ∀ v ∈ s.bumped, v ≤ s.lastVersion
  settledBelow : ∀ v ∈ s.settled, v ≤ s.lastVersion
  counted : ∀ c ∈ s.commits, c.version ∈ s.applied ∨ c.version ∈ s.bumped →
    c.ops = [] ∨ c.version ≤ s.counter
  settled : ∀ c ∈ s.commits, c.version ∈ s.settled → c.version ∈ s.applied ∨ c.ops = []

theorem exists_split_version {commits : List Commit}
    (h : commits.Pairwise fun c c' => c.version < c'.version) (v : Nat) (id : RecordId) :
    ∃ front back, OverwriteLog.Split Commit.newValue (fun c => c.version ≤ v) id commits front
      back := by
  induction commits with
  | nil => exact ⟨[], [], rfl, by simp, by simp⟩
  | cons c commits ih =>
    obtain ⟨hc, hrest⟩ := pairwise_cons.1 h
    by_cases hv : c.version ≤ v
    · obtain ⟨front, back, hsplit⟩ := ih hrest
      refine ⟨c :: front, back, by rw [hsplit.eq, cons_append], fun e he hne => ?_, hsplit.back⟩
      rcases mem_cons.1 he with rfl | he
      · exact decide_eq_true hv
      · exact hsplit.front e he hne
    · refine ⟨[], c :: commits, rfl, by simp, fun e he _ => decide_eq_false ?_⟩
      rcases mem_cons.1 he with rfl | he
      · exact hv
      · have := hc e he
        omega

/-- A commit without postings gives its rows the postings they had. -/
theorem post_eq_of_planOps_nil {changes : ChangeSet} (h : planOps d seen changes = [])
    (hseen : ∀ row ∈ changes.rows, post d row.1 (seen row.1) = post d row.1 (found row.1))
    {new : Option Value} (hnew : changes.rows.lookup id = some new) :
    post d id new = post d id (found id) := by
  have hmem : (id, new) ∈ changes.rows := by
    obtain ⟨front, back, hrows, -⟩ := lookup_eq_some_iff.1 hnew
    rw [hrows]
    simp
  exact (planRow_eq_nil.1 (flatMap_eq_nil_iff.1 h (id, new) hmem)).symm.trans
    (hseen (id, new) hmem)

/-- **The gate is sound**: at a visible version that the counter is not above, the index has the
postings of the version. -/
theorem Inv.mirrors (h : Inv d s) (hv : s.Visible v) (hcounter : s.counter ≤ v) :
    Mirrors d s v := by
  intro key
  rw [h.posted key]
  refine exists_congr fun id => ?_
  obtain ⟨front, back, happlied⟩ := h.parts id
  obtain ⟨front', back', hversion⟩ := exists_split_version h.versions v id
  have hsame : post d id (s.valueBy s.isApplied id) = post d id (s.valueAt v id) := by
    refine OverwriteLog.view_eq (post d id) happlied hversion fun before c later hlog hne new hnew => ?_
    have hmem : c ∈ s.commits := by
      rw [hlog]
      simp
    -- only one side has the commit: it is above the counter or has not been applied
    have hnil : c.ops = [] := by
      by_cases hc : c.version ≤ v
      · have hnot : c.version ∉ s.applied := by
          intro hin
          exact hne (by rw [System.isApplied, decide_eq_true hin, decide_eq_true hc])
        exact (h.settled c hmem (hv.2 c hmem hc)).resolve_left hnot
      · have hin : c.version ∈ s.applied := by
          by_contra hnot
          exact hne (by rw [System.isApplied, decide_eq_false hnot, decide_eq_false hc])
        refine (h.counted c hmem (.inl hin)).resolve_right ?_
        omega
    obtain ⟨seen, hops, hseen⟩ := h.planned before c later hlog
    exact post_eq_of_planOps_nil (hops.symm.trans hnil) hseen hnew
  rw [hsame]

/-! ## Steps -/

/-- A new process. -/
theorem Inv.init (r : Ready d) : Inv d (System.init d r) where
  versions := List.Pairwise.nil
  below := by simp [System.init]
  planned := by simp [System.init]
  parts := fun id => ⟨[], [], rfl, by simp, by simp⟩
  posted := by
    intro key
    refine (r.exact_postings key).trans ?_
    constructor
    · rintro ⟨⟨id, value⟩, hrow, hpost⟩
      refine ⟨id, ?_⟩
      show post d id (r.base.get id) = some key
      rw [r.base.get_eq_some.2 hrow]
      exact hpost
    · rintro ⟨id, hpost⟩
      obtain ⟨value, hget, hpost⟩ := bind_eq_some_iff.1 hpost
      exact ⟨(id, value), r.base.get_eq_some.1 hget, hpost⟩
  appliedBelow := by simp [System.init]
  bumpedBelow := by simp [System.init]
  settledBelow := by simp [System.init]
  counted := by simp [System.init]
  settled := by simp [System.init]

/-- A commit is found by its version. -/
theorem find_spec (h : s.find v = some c) : c ∈ s.commits ∧ c.version = v := by
  refine ⟨mem_of_find?_eq_some h, ?_⟩
  have hversion := find?_some h
  exact of_decide_eq_true hversion

theorem Inv.version_inj (h : Inv d s) {c : Commit} (hc : c ∈ s.commits) (hc' : c' ∈ s.commits)
    (heq : c.version = c'.version) : c = c' := by
  have hnodup : (s.commits.map Commit.version).Nodup :=
    pairwise_map.2 (h.versions.imp fun hlt => Nat.ne_of_lt hlt)
  exact inj_on_of_nodup_map hnodup hc hc' heq

theorem split_concat {log before later : List Commit} {c : Commit}
    (h : log ++ [c] = before ++ c' :: later) :
    (log = before ∧ c = c') ∨ ∃ rest, log = before ++ c' :: rest := by
  rcases eq_nil_or_concat later with rfl | ⟨rest, x, rfl⟩
  · obtain ⟨hlog, hc⟩ := append_inj' h rfl
    exact .inl ⟨hlog, singleton_inj.1 hc⟩
  · refine .inr ⟨rest, ?_⟩
    rw [concat_eq_append, ← cons_append, ← append_assoc] at h
    exact (append_inj' h rfl).1

section

variable (h : Inv d s)
include h

/-- A commit whose postings were planned from values with the current postings. -/
theorem Inv.commit {changes : ChangeSet}
    (hseen : ∀ row ∈ changes.rows, post d row.1 (seen row.1) = post d row.1 (s.current row.1)) :
    Inv d (s.commit d changes seen) := by
  have hfresh : ∀ vs : List Nat, (∀ v ∈ vs, v ≤ s.lastVersion) → s.lastVersion + 1 ∉ vs := by
    intro vs hvs hin
    have := hvs _ hin
    omega
  have happlied := hfresh s.applied h.appliedBelow
  have hnew : ∀ {P : Commit → Prop}, (∀ c ∈ s.commits, P c) →
      P ⟨s.lastVersion + 1, changes, planOps d seen changes⟩ →
      ∀ c ∈ (s.commit d changes seen).commits, P c := by
    intro P hold hlast
    exact forall_mem_append.2 ⟨hold, forall_mem_singleton.2 hlast⟩
  have hfilter : (s.commit d changes seen).commits.filter s.isApplied =
      s.commits.filter s.isApplied := by
    show filter _ (s.commits ++ [_]) = _
    rw [filter_append, filter_cons_of_neg (by simpa [System.isApplied] using happlied),
      filter_nil, append_nil]
  constructor
  case versions =>
    refine pairwise_append.2 ⟨h.versions, pairwise_singleton _ _, fun c hc c' hc' => ?_⟩
    rw [mem_singleton.1 hc']
    exact Nat.lt_succ_of_le (h.below c hc)
  case below => exact hnew (fun c hc => (h.below c hc).trans (Nat.le_succ _)) le_rfl
  case planned =>
    intro before c later hlog
    rcases split_concat hlog with ⟨rfl, rfl⟩ | ⟨rest, hrest⟩
    · exact ⟨seen, rfl, hseen⟩
    · exact h.planned before c rest hrest
  case parts =>
    intro id
    obtain ⟨front, back, hsplit⟩ := h.parts id
    refine ⟨front, back ++ [⟨s.lastVersion + 1, changes, planOps d seen changes⟩], ?_,
      hsplit.front, fun e he hne => ?_⟩
    · rw [← append_assoc, ← hsplit.eq]
      rfl
    · rcases mem_append.1 he with he | he
      · exact hsplit.back e he hne
      · rw [mem_singleton.1 he]
        exact decide_eq_false happlied
  case posted =>
    intro key
    refine (h.posted key).trans (exists_congr fun id => ?_)
    show _ ↔ post d id (OverwriteLog.value _ s.base.get
      ((s.commit d changes seen).commits.filter s.isApplied) id) = some key
    rw [hfilter]
    rfl
  case appliedBelow => exact fun v hv => (h.appliedBelow v hv).trans (Nat.le_succ _)
  case bumpedBelow => exact fun v hv => (h.bumpedBelow v hv).trans (Nat.le_succ _)
  case settledBelow => exact fun v hv => (h.settledBelow v hv).trans (Nat.le_succ _)
  case counted =>
    refine hnew h.counted fun hin => ?_
    rcases hin with hin | hin
    · exact absurd hin happlied
    · exact absurd hin (hfresh s.bumped h.bumpedBelow)
  case settled => exact hnew h.settled fun hin => absurd hin (hfresh s.settled h.settledBelow)

/-- The part of the log before a commit whose turn it is has been applied, for each row that
the commit changes; the rest has not. -/
theorem Inv.split_turn {before later : List Commit} (hlog : s.commits = before ++ c :: later)
    (hnot : c.version ∉ s.applied) (hturn : InTurn s c) (hid : c.newValue id ≠ none) :
    OverwriteLog.Split Commit.newValue s.isApplied id s.commits before (c :: later) := by
  have hversions := h.versions
  rw [hlog, pairwise_append, pairwise_cons] at hversions
  obtain ⟨-, ⟨hlater, -⟩, hbefore⟩ := hversions
  have hmeets : ∀ e : Commit, e.newValue id ≠ none → c.meets e = true := by
    intro e he
    obtain ⟨row, hrow, hkey⟩ := lookup_isSome_iff.1 (isSome_iff_ne_none.2 hid)
    refine any_eq_true.2 ⟨row, hrow, ?_⟩
    rw [← eq_of_beq hkey]
    exact isSome_iff_ne_none.2 he
  refine ⟨hlog, fun e he hne => ?_, fun e he hne => ?_⟩
  · refine decide_eq_true ((hturn e ?_ (hmeets e hne)).1 (hbefore e he c mem_cons_self))
    rw [hlog]
    exact mem_append_left _ he
  · rcases mem_cons.1 he with rfl | he
    · exact decide_eq_false hnot
    · refine decide_eq_false ((hturn e ?_ (hmeets e hne)).2 (hlater e he))
      rw [hlog]
      simp [he]

section

variable (hc : c ∈ s.commits) (hnot : c.version ∉ s.applied) (hturn : InTurn s c)
include hc hnot hturn

/-- After a commit is applied, the applied commits are still an initial part for every row, and
their rows are the old ones with those of the commit. -/
theorem Inv.split_applyOps (id : RecordId) :
    (∃ front back, OverwriteLog.Split Commit.newValue (s.applyOps c).isApplied id s.commits front
      back) ∧
    (s.applyOps c).valueBy (s.applyOps c).isApplied id =
      (c.newValue id).getD (s.valueBy s.isApplied id) := by
  obtain ⟨before, later, hlog⟩ := append_of_mem hc
  -- for other commits nothing changes
  have hother : ∀ e ∈ s.commits, e ≠ c → (s.applyOps c).isApplied e = s.isApplied e := by
    intro e he hne
    have hversion : e.version ≠ c.version := fun heq => hne (h.version_inj he hc heq)
    simp [System.isApplied, System.applyOps, hversion]
  by_cases hid : c.newValue id = none
  · obtain ⟨front, back, hsplit⟩ := h.parts id
    have hsame : ∀ e ∈ s.commits, e.newValue id ≠ none →
        (s.applyOps c).isApplied e = s.isApplied e := by
      intro e he hne
      refine hother e he ?_
      rintro rfl
      exact hne hid
    have hsplit' : OverwriteLog.Split Commit.newValue (s.applyOps c).isApplied id s.commits front
        back := by
      refine ⟨hsplit.eq, fun e he hne => ?_, fun e he hne => ?_⟩
      · rw [hsame e (by rw [hsplit.eq]; exact mem_append_left _ he) hne]
        exact hsplit.front e he hne
      · rw [hsame e (by rw [hsplit.eq]; exact mem_append_right _ he) hne]
        exact hsplit.back e he hne
    refine ⟨⟨front, back, hsplit'⟩, ?_⟩
    rw [hid]
    exact hsplit'.value_filter.trans hsplit.value_filter.symm
  · have hold := h.split_turn hlog hnot hturn hid
    have hsplit' : OverwriteLog.Split Commit.newValue (s.applyOps c).isApplied id s.commits
        (before ++ [c]) later := by
      have hmem : ∀ e ∈ later, e ∈ s.commits := by
        intro e he
        rw [hlog]
        simp [he]
      refine ⟨by rw [hlog, append_assoc, singleton_append], fun e he hne => ?_, fun e he hne => ?_⟩
      · by_cases hec : e = c
        · rw [hec]
          simp [System.isApplied, System.applyOps]
        have hbefore : e ∈ before := by
          rcases mem_append.1 he with he | he
          · exact he
          · exact absurd (mem_singleton.1 he) hec
        rw [hother e (by rw [hlog]; exact mem_append_left _ hbefore) hec]
        exact hold.front e hbefore hne
      · have hec : e ≠ c := by
          rintro rfl
          have hversions := h.versions
          rw [hlog, pairwise_append, pairwise_cons] at hversions
          exact absurd (hversions.2.1.1 e he) (Nat.lt_irrefl _)
        rw [hother e (hmem e he) hec]
        exact hold.back e (mem_cons_of_mem _ he) hne
    refine ⟨⟨_, _, hsplit'⟩, ?_⟩
    refine hsplit'.value_filter.trans ?_
    rw [OverwriteLog.value_concat, ← hold.value_filter]
    rfl

/-- **Applying the postings of a commit in its turn.** -/
theorem Inv.applyOps (hcount : c.ops = [] ∨ c.version ≤ s.counter) : Inv d (s.applyOps c) := by
  obtain ⟨before, later, hlog⟩ := append_of_mem hc
  refine { h with parts := ?_, posted := ?_, appliedBelow := ?_, counted := ?_, settled := ?_ }
  · exact fun id => (h.split_applyOps hc hnot hturn id).1
  · -- the values the commit was planned from have the postings of the index, for its rows
    obtain ⟨seen, hops, hseen⟩ := h.planned before c later hlog
    have hfound : ∀ row ∈ c.changes.rows,
        post d row.1 (seen row.1) = post d row.1 (s.valueBy s.isApplied row.1) := by
      intro row hrow
      have hid : c.newValue row.1 ≠ none :=
        isSome_iff_ne_none.1 (lookup_isSome_iff.2 ⟨row, hrow, beq_self_eq_true _⟩)
      exact (hseen row hrow).trans
        (congrArg _ (h.split_turn hlog hnot hturn hid).value_filter.symm)
    have hrows := h.posted.rows c.changes.nodup hfound
    intro key
    have hkeys : (s.applyOps c).keys = (planOps d seen c.changes).foldl applyOp s.keys := by
      rw [← hops]
      rfl
    rw [hkeys]
    refine (hrows key).trans (exists_congr fun id => ?_)
    rw [(h.split_applyOps hc hnot hturn id).2]
    rfl
  · exact forall_mem_cons.2 ⟨h.below c hc, h.appliedBelow⟩
  · rintro e he (hin | hin)
    · rcases mem_cons.1 hin with heq | hin
      · rw [h.version_inj he hc heq]
        exact hcount
      · exact h.counted e he (.inl hin)
    · exact h.counted e he (.inr hin)
  · intro e he hin
    exact (h.settled e he hin).imp_left (mem_cons_of_mem _)

end

/-- The counter is raised. -/
theorem Inv.bump (hfind : s.find v = some c) :
    Inv d { s with
      counter := if c.ops = [] then s.counter else max s.counter v
      bumped := v :: s.bumped } := by
  obtain ⟨hc, rfl⟩ := find_spec hfind
  have hle : s.counter ≤ if c.ops = [] then s.counter else max s.counter c.version := by
    split
    · exact le_rfl
    · omega
  have hcounted : ∀ e ∈ s.commits, e.version ∈ s.applied ∨ e.version ∈ s.bumped →
      e.ops = [] ∨ e.version ≤ if c.ops = [] then s.counter else max s.counter c.version :=
    fun e he hin => (h.counted e he hin).imp_right fun hv => hv.trans hle
  refine { h with bumpedBelow := ?_, counted := ?_ }
  · exact forall_mem_cons.2 ⟨h.below c hc, h.bumpedBelow⟩
  rintro e he (hin | hin)
  · exact hcounted e he (.inl hin)
  rcases mem_cons.1 hin with heq | hin
  · rw [h.version_inj he hc heq]
    by_cases hops : c.ops = []
    · exact .inl hops
    · refine .inr ?_
      rw [if_neg hops]
      exact Nat.le_max_right _ _
  · exact hcounted e he (.inr hin)

/-- A version is settled. -/
theorem Inv.settle (hfind : s.find v = some c)
    (hfaithful : v ∈ s.applied ∨ c.ops = []) : Inv d { s with settled := v :: s.settled } := by
  obtain ⟨hc, rfl⟩ := find_spec hfind
  refine { h with settledBelow := ?_, settled := ?_ }
  · exact forall_mem_cons.2 ⟨h.below c hc, h.settledBelow⟩
  · intro e he hin
    rcases mem_cons.1 hin with heq | hin
    · rw [h.version_inj he hc heq]
      exact hfaithful
    · exact h.settled e he hin

/-- A commit is aborted. -/
theorem Inv.abort : Inv d { s with lastVersion := s.lastVersion + 1 } :=
  { h with
    below := fun c hc => (h.below c hc).trans (Nat.le_succ _)
    appliedBelow := fun v hv => (h.appliedBelow v hv).trans (Nat.le_succ _)
    bumpedBelow := fun v hv => (h.bumpedBelow v hv).trans (Nat.le_succ _)
    settledBelow := fun v hv => (h.settledBelow v hv).trans (Nat.le_succ _) }

/-- A restart. -/
theorem Inv.restart
    (hfaithful : ∀ c ∈ s.commits, c.version ∈ s.applied → c.ops = [] ∨ c.version ≤ s.ready) :
    Inv d { s with counter := s.ready, bumped := [], seeks := [] } :=
  { h with
    bumpedBelow := by simp
    counted := fun c hc hin => hin.elim (hfaithful c hc) (by simp) }

/-- Seeks change nothing else. -/
theorem Inv.withSeeks (seeks : List Seek) : Inv d { s with seeks } :=
  { h with }

end

end ShamirDb.AsOf
