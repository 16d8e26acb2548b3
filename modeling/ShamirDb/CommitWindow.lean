/-
# The commit window

A commit records, per table and ascending, the keys of the postings it sets
(`build_footprint_from_tx`).  A serializable commit asks whether one of its dependencies meets a
commit published after its snapshot: `predicate_conflicts` asks for one dependency, and
`predicate_conflicts_batch` for all of them in one walk of the window.
-/
import ShamirDb.PredicateRanges

namespace ShamirDb.Query

open List

/-! ## Records -/

/-- `PredicateDep`. -/
inductive PredicateDep where
  | indexRange (tableToken : UInt64) (range : IndexRange)
  | tableScan (tableToken : UInt64)

/-- `TableWriteFootprint`. -/
structure TableWriteFootprint where
  touched : Bool
  insertedIndexKeys : List Bytes
  sorted : insertedIndexKeys.Pairwise (· ≤ ·)

/-- `CommitWriteRecord`. -/
structure CommitWriteRecord where
  commitVersion : Nat
  perTable : UInt64 → Option TableWriteFootprint

/-- `IndexWriteOp`, by the key of its posting. -/
inductive IndexWriteOp where
  | setPosting (key : Bytes)
  | removePosting (key : Bytes)

/-- `IndexWriteOp::SetPosting`. -/
def IndexWriteOp.setKey : IndexWriteOp → Option Bytes
  | .setPosting key => some key
  | .removePosting _ => none

/-- The fields of a transaction a footprint is built from. -/
structure TxContext where
  serializable : Bool
  footprintTokens : List UInt64
  writeSet : List UInt64
  counterDeltas : List UInt64
  indexWriteSet : List (UInt64 × IndexWriteOp)

/-- `wants_footprint`. -/
def TxContext.wantsFootprint (tx : TxContext) (token : UInt64) : Bool :=
  tx.serializable || tx.footprintTokens.contains token

/-- `build_footprint_from_tx`: removed postings touch their table only. -/
def buildFootprintFromTx (tx : TxContext) (commitVersion : Nat) : CommitWriteRecord where
  commitVersion := commitVersion
  perTable token :=
    let ops := tx.indexWriteSet.filter (·.1 = token)
    if tx.wantsFootprint token && (tx.writeSet.contains token || tx.counterDeltas.contains token ||
        !ops.isEmpty) then
      some ⟨true, (ops.filterMap (·.2.setKey)).insertionSort (· ≤ ·), pairwise_sort_keys _⟩
    else none

/-- `record_conflicts`. -/
def recordConflicts (rec : CommitWriteRecord) : PredicateDep → Bool
  | .tableScan token => (rec.perTable token).any (·.touched)
  | .indexRange token range =>
    (rec.perTable token).any fun f => indexRangeOverlapsSorted f.insertedIndexKeys range

/-! ## The window -/

/-- The part of `RepoTxGate` that is read: `commit_write_log`, in order of version, and
`last_committed_version`. -/
structure CommitLog where
  commitWriteLog : List CommitWriteRecord
  lastCommitted : Nat

/-- `commit_write_log.range(snapshot + 1 ..= last)`. -/
def CommitLog.window (log : CommitLog) (snapshot : Nat) : List CommitWriteRecord :=
  log.commitWriteLog.filter fun rec =>
    snapshot + 1 ≤ rec.commitVersion ∧ rec.commitVersion ≤ log.lastCommitted

/-- `predicate_conflicts`. -/
def predicateConflicts (log : CommitLog) (dep : PredicateDep) (snapshot : Nat) : Bool :=
  if log.lastCommitted ≤ snapshot then false
  else (log.window snapshot).any (recordConflicts · dep)

/-- `predicate_conflicts_batch`: the place of the first dependency the first such record
conflicts with. -/
def predicateConflictsBatch (log : CommitLog) (deps : List PredicateDep) (snapshot : Nat) :
    Option Nat :=
  if log.lastCommitted ≤ snapshot then none
  else (log.window snapshot).findSome? fun rec => deps.findIdx? (recordConflicts rec)

variable (log : CommitLog) (snapshot : Nat)

theorem mem_window {rec : CommitWriteRecord} :
    rec ∈ log.window snapshot ↔ rec ∈ log.commitWriteLog ∧
      snapshot < rec.commitVersion ∧ rec.commitVersion ≤ log.lastCommitted := by
  rw [CommitLog.window, mem_filter, decide_eq_true_iff]
  rfl

/-- Without a commit since the snapshot the window is empty. -/
theorem window_eq_nil (h : log.lastCommitted ≤ snapshot) : log.window snapshot = [] := by
  apply eq_nil_iff_forall_not_mem.2
  intro rec hrec
  have hbounds := (mem_window log snapshot).1 hrec
  omega

theorem predicateConflicts_iff (dep : PredicateDep) :
    predicateConflicts log dep snapshot = true ↔
      ∃ rec ∈ log.window snapshot, recordConflicts rec dep = true := by
  unfold predicateConflicts
  split
  · rename_i h
    simp [window_eq_nil log snapshot h]
  · rw [any_eq_true]

theorem predicateConflictsBatch_iff (deps : List PredicateDep) :
    (predicateConflictsBatch log deps snapshot).isSome = true ↔
      ∃ rec ∈ log.window snapshot, ∃ dep ∈ deps, recordConflicts rec dep = true := by
  unfold predicateConflictsBatch
  split
  · rename_i h
    simp [window_eq_nil log snapshot h]
  · rw [isSome_findSome?]
    simp only [findIdx?_isSome, any_eq_true]

/-- **The search is exact**: one candidate decides whether a written key is in the range, and
the walk over all dependencies finds a conflict exactly if the check of some dependency does,
which is one with a record published after the snapshot. -/
theorem predicate_conflicts_batch_exact (deps : List PredicateDep) {keys : List Bytes}
    (hsorted : keys.Pairwise (· ≤ ·)) (range : IndexRange) :
    (indexRangeOverlapsSorted keys range = true ↔ ∃ k ∈ keys, keyInInterval k range = true) ∧
    ((predicateConflictsBatch log deps snapshot).isSome = true ↔
      ∃ dep ∈ deps, predicateConflicts log dep snapshot = true) ∧
    ((predicateConflictsBatch log deps snapshot).isSome = true ↔
      ∃ rec ∈ log.commitWriteLog, (snapshot < rec.commitVersion ∧
        rec.commitVersion ≤ log.lastCommitted) ∧ ∃ dep ∈ deps, recordConflicts rec dep = true) := by
  refine ⟨indexRangeOverlapsSorted_iff hsorted range, ?_, ?_⟩
  · rw [predicateConflictsBatch_iff]
    constructor
    · rintro ⟨rec, hrec, dep, hdep, hconf⟩
      exact ⟨dep, hdep, (predicateConflicts_iff log snapshot dep).2 ⟨rec, hrec, hconf⟩⟩
    · rintro ⟨dep, hdep, hconf⟩
      obtain ⟨rec, hrec, hrec'⟩ := (predicateConflicts_iff log snapshot dep).1 hconf
      exact ⟨rec, hrec, dep, hdep, hrec'⟩
  · rw [predicateConflictsBatch_iff]
    simp only [mem_window, and_assoc]

/-- The postings set by one commit: one of index 7, one of index 8 and one too short for any. -/
def threeKeys : TxContext :=
  ⟨false, [1], [], [], [(1, .setPosting (sortedPrefix 8)), (1, .setPosting (sortedPrefix 7 ++ [5])),
    (1, .removePosting (sortedPrefix 7)), (1, .setPosting [2])]⟩

/-- What a scan of the keys of index 7 depends on. -/
def scanOfSeven : IndexRange := ⟨7, .excluded (sortedPrefix 7), .unbounded⟩

/-- A commit whose second posting is in the range of the second dependency. -/
theorem predicate_conflicts_batch_exact_threeKeys :
    (predicateConflictsBatch ⟨[buildFootprintFromTx threeKeys 3], 3⟩
      [.tableScan 2, .indexRange 1 scanOfSeven] 2).isSome = true ∧
    indexRangeOverlapsSorted [sortedPrefix 7 ++ [5]] scanOfSeven = true :=
  have h := predicate_conflicts_batch_exact ⟨[buildFootprintFromTx threeKeys 3], 3⟩ 2
    [.tableScan 2, .indexRange 1 scanOfSeven] (pairwise_singleton _ _) scanOfSeven
  ⟨h.2.1.2 ⟨.indexRange 1 scanOfSeven, by simp, by decide +kernel⟩,
    h.1.2 ⟨_, mem_singleton_self _, by decide +kernel⟩⟩

/-- A record in the log that is not published yet, of version 3 with the published version at 2:
it is newer than the snapshot and conflicts, and the search does not see it. -/
theorem predicateConflictsBatch_unpublished :
    let entry := buildFootprintFromTx threeKeys 3
    let log : CommitLog := ⟨[entry], 2⟩
    entry ∈ log.commitWriteLog ∧ 1 < entry.commitVersion ∧
      recordConflicts entry (.indexRange 1 scanOfSeven) = true ∧
      predicateConflictsBatch log [.indexRange 1 scanOfSeven] 1 = none :=
  ⟨mem_singleton_self _, by decide, by decide +kernel, rfl⟩

end ShamirDb.Query
