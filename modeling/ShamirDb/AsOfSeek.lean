/-
# Keyset pages of a past version

A read AS OF a version that pages through a sorted index (`read_as_of`,
`read_as_of_keyset_seek`).  The index has the postings of the present; it may answer for a past
version only while it mirrors that version.  For this the index has a counter of the last
version that changed it (`last_mutation_version`): a commit raises it before it applies its
postings, and the seek is declined if the counter is above the version it reads at, before its
first or after its last posting.

The model runs the commits of a table, from the moment the index became ready, beside any number
of seeks.  A commit has its rows from its commit point on; raising the counter, applying the
postings and settling the version are steps of their own.  The postings are those that were
planned when the rows were staged, from the old values that were read then (`update_tx`); they
are not planned again at the commit point, where the rows may have other values.  The postings
of a commit that was dropped, or whose process ended, are replayed without raising the counter.
A restart sets the counter back to `ready_at_version`.  A seek reads the postings one at a time,
each from the index as it is then, with the row's value at its version; the cell of the row,
which only decides whether the seek is declined, may say anything.
-/
import ShamirDb.OverwriteLog
import ShamirDb.OrderLimit
import ShamirDb.Machine

namespace ShamirDb.AsOf

open Machine
open Query

/-! ## Commits and their postings -/

/-- What a commit does to the rows: one new value, or none, for each row it changes. -/
structure ChangeSet where
  rows : List (RecordId × Option Value)
  nodup : (rows.map Prod.fst).Nodup

/-- `IndexWriteOp`, for the postings of the index. -/
inductive PostingOp where
  | set (key : Bytes)
  | remove (key : Bytes)
  deriving DecidableEq

variable (d : SortedDef)

/-- The posting of a row that may not exist. -/
def post (id : RecordId) (value : Option Value) : Option Bytes := value.bind fun r => d.posting (id, r)

/-- `plan_record_created`. -/
def planRecordCreated (id : RecordId) (r : Value) : List PostingOp :=
  ((d.posting (id, r)).map PostingOp.set).toList

/-- `plan_record_deleted`. -/
def planRecordDeleted (id : RecordId) (r : Value) : List PostingOp :=
  ((d.posting (id, r)).map PostingOp.remove).toList

/-- `plan_record_updated`. -/
def planRecordUpdated (id : RecordId) (old new : Value) : List PostingOp :=
  if extractAndEncode old d.path = extractAndEncode new d.path then []
  else planRecordDeleted d id old ++ planRecordCreated d id new

/-- The planner for one row. -/
def planRow (id : RecordId) : Option Value → Option Value → List PostingOp
  | some old, some new => planRecordUpdated d id old new
  | none, some new => planRecordCreated d id new
  | some old, none => planRecordDeleted d id old
  | none, none => []

/-- The postings of a commit, from the old values its staging calls read. -/
def planOps (seen : RecordId → Option Value) (changes : ChangeSet) : List PostingOp :=
  changes.rows.flatMap fun row => planRow d row.1 (seen row.1) row.2

/-- A posting operation on the keys of the index. -/
def applyOp (keys : List Bytes) : PostingOp → List Bytes
  | .set key => if key ∈ keys then keys else key :: keys
  | .remove key => keys.filter (· ≠ key)

structure Commit where
  version : Nat
  changes : ChangeSet
  ops : List PostingOp

/-- What the commit makes of a row. -/
def Commit.newValue (c : Commit) (id : RecordId) : Option (Option Value) := c.changes.rows.lookup id

/-- Both commits change some row. -/
def Commit.meets (c c' : Commit) : Bool := c.changes.rows.any fun row => (c'.newValue row.1).isSome

/-! ## Seeks -/

/-- A query that `try_plan_keyset_seek` takes: an order by one field, the start value, the row
of the start value that was seen last, and the limit. -/
structure KeysetQuery where
  order : RowOrder
  start : ScalarRef
  afterId : Option RecordId
  limit : Nat

/-- `key_value_slice`. -/
def keyValueSlice (key : Bytes) (valueStart : Nat) : Bytes :=
  if key.length < valueStart + 16 then [] else (key.take (key.length - 16)).drop valueStart

/-- `skip_boundary_row`. -/
def skipBoundaryRow (key : Bytes) (afterId : Option RecordId) (direction : OrderDirection) : Bool :=
  match afterId with
  | none => true
  | some a =>
    match decodeRecordIdSuffix key with
    | none => true
    | some id =>
      match direction with
      | .asc => decide (id.bytes ≤ a.bytes)
      | .desc => decide (a.bytes ≤ id.bytes)

/-- The keys `lookup_range_first_k_page` returns, from the start value on. -/
def inRange (name : UInt64) (encoded : Bytes) (q : KeysetQuery) (key : Bytes) : Bool :=
  let bounds := match q.order.direction with
    | .asc => rangeBounds name (some encoded) none
    | .desc => rangeBounds name none (some encoded)
  decide (bounds.1 ≤ key) && decide (key ≤ bounds.2) &&
    !(decide (keyValueSlice key (sortedPrefix name).length = encoded) &&
      skipBoundaryRow key q.afterId q.order.direction) &&
    (decodeRecordIdSuffix key).isSome

/-- One key comes before another in the direction of the walk. -/
def keyBefore (direction : OrderDirection) (k k' : Bytes) : Bool :=
  match direction with
  | .asc => decide (k < k')
  | .desc => decide (k' < k)

/-- The first key in the direction of the walk. -/
def firstKey (direction : OrderDirection) : List Bytes → Option Bytes
  | [] => none
  | k :: keys =>
    match firstKey direction keys with
    | none => some k
    | some k' => some (if keyBefore direction k' k then k' else k)

/-- How a seek ended: declined, or with its page. -/
inductive Outcome where
  | declined
  | page (rows : List Row)

/-- A seek under way.  `flagged` is `concurrent_modified > 0`; `exhausted` says that the walk
has met the end of the range. -/
structure Seek where
  query : KeysetQuery
  encoded : Bytes
  version : Nat
  cursor : Option Bytes
  matched : List Row
  flagged : Bool
  exhausted : Bool
  outcome : Option Outcome

/-! ## The system -/

structure System where
  /-- The rows when the index became ready. -/
  base : Table
  /-- `ready_at_version`. -/
  ready : Nat
  commits : List Commit
  keys : List Bytes
  /-- `last_mutation_version`. -/
  counter : Nat
  lastVersion : Nat
  bumped : List Nat
  applied : List Nat
  settled : List Nat
  seeks : List Seek

/-- A table at the moment its index becomes ready (`mark_ready_at`): the postings are those of
the rows. -/
structure Ready where
  base : Table
  version : Nat
  keys : List Bytes
  exact_postings : ∀ key, key ∈ keys ↔ ∃ row ∈ base.rows, d.posting row = some key

inductive Event where
  | commit (changes : ChangeSet) (seen : RecordId → Option Value)
  | abort
  | bump (v : Nat)
  | apply (v : Nat)
  | replay (v : Nat)
  | settle (v : Nat)
  | restart
  | seek (q : KeysetQuery) (v : Nat)
  | next (i cell : Nat)
  | finish (i : Nat)

namespace System

/-- The start of a run. -/
def init (r : Ready d) : System :=
  ⟨r.base, r.version, [], r.keys, r.version, r.version, [], [], [], []⟩

/-- The value of a row after the `chosen` commits. -/
def valueBy (s : System) (chosen : Commit → Bool) (id : RecordId) : Option Value :=
  OverwriteLog.value Commit.newValue s.base.get (s.commits.filter chosen) id

/-- The value of a row at a version (`get_at`). -/
def valueAt (s : System) (v : Nat) (id : RecordId) : Option Value :=
  s.valueBy (fun c => c.version ≤ v) id

/-- The ids of all rows there ever were. -/
def ids (s : System) : List RecordId :=
  (s.base.rows.map Prod.fst ++ s.commits.flatMap fun c => c.changes.rows.map Prod.fst).dedup

/-- The rows of the full scan at a version. -/
def rowsAt (s : System) (v : Nat) : List Row :=
  s.ids.filterMap fun id => (s.valueAt v id).map fun r => (id, r)

/-- The version is at or below the visible floor. -/
def Visible (s : System) (v : Nat) : Prop :=
  v ≤ s.lastVersion ∧ ∀ c ∈ s.commits, c.version ≤ v → c.version ∈ s.settled

instance (s : System) (v : Nat) : Decidable (s.Visible v) :=
  inferInstanceAs (Decidable (_ ∧ ∀ c ∈ s.commits, c.version ≤ v → c.version ∈ s.settled))

def find (s : System) (v : Nat) : Option Commit := s.commits.find? fun c => c.version = v

/-- The value of a row after all commits. -/
def current (s : System) (id : RecordId) : Option Value :=
  OverwriteLog.value Commit.newValue s.base.get s.commits id

/-- The commit point, with the postings that were planned from the `seen` values. -/
def commit (s : System) (changes : ChangeSet) (seen : RecordId → Option Value) : System :=
  { s with
    lastVersion := s.lastVersion + 1
    commits := s.commits ++ [⟨s.lastVersion + 1, changes, planOps d seen changes⟩] }

/-- The postings of a commit reach the index. -/
def applyOps (s : System) (c : Commit) : System :=
  { s with keys := c.ops.foldl applyOp s.keys, applied := c.version :: s.applied }

def setSeek (s : System) (i : Nat) (seek : Seek) : System := { s with seeks := s.seeks.set i seek }

/-- The gate in `read_as_of`. -/
def seek (s : System) (q : KeysetQuery) (v : Nat) : System :=
  match encodeForSort q.start with
  | some encoded =>
    if s.Visible v ∧ 0 < q.limit then
      { s with seeks := s.seeks ++ [⟨q, encoded, v, none, [], false, false,
        if s.counter ≤ v then none else some .declined⟩] }
    else s
  | none => s

/-- One posting of the walk; `cell` is what `version_of` says about its row. -/
def next (s : System) (i : Nat) (seek : Seek) (cell : Nat) : System :=
  let direction := seek.query.order.direction
  match firstKey direction (s.keys.filter fun k => inRange d.name seek.encoded seek.query k &&
      seek.cursor.all fun cur => keyBefore direction cur k) with
  | none => s.setSeek i { seek with exhausted := true }
  | some key =>
    match decodeRecordIdSuffix key with
    | none => s
    | some id =>
      match s.valueAt seek.version id with
      | none => s.setSeek i { seek with cursor := some key }
      | some r =>
        if cell ≠ 0 ∧ cell ≤ seek.version then
          s.setSeek i { seek with cursor := some key, matched := seek.matched ++ [(id, r)] }
        else s.setSeek i { seek with cursor := some key, flagged := true }

/-- The end of `read_as_of_keyset_seek`. -/
def finish (s : System) (i : Nat) (seek : Seek) : System :=
  s.setSeek i { seek with
    outcome := some (if seek.flagged ∨ seek.version < s.counter then .declined
      else .page seek.matched) }

end System

def step (s : System) : Event → System
  | .commit changes seen => s.commit d changes seen
  | .abort => { s with lastVersion := s.lastVersion + 1 }
  | .bump v =>
    match s.find v with
    | some c =>
      { s with
        counter := if c.ops = [] then s.counter else max s.counter v
        bumped := v :: s.bumped }
    | none => s
  | .apply v =>
    match s.find v with
    | some c => if v ∈ s.bumped ∧ v ∉ s.applied then s.applyOps c else s
    | none => s
  | .replay v =>
    match s.find v with
    | some c => if v ∉ s.applied then s.applyOps c else s
    | none => s
  | .settle v =>
    match s.find v with
    | some _ => { s with settled := v :: s.settled }
    | none => s
  | .restart => { s with counter := s.ready, bumped := [], seeks := [] }
  | .seek q v => s.seek q v
  | .next i cell =>
    match s.seeks[i]? with
    | some seek =>
      if seek.outcome.isNone ∧ seek.exhausted = false ∧ seek.matched.length < seek.query.limit then
        s.next d i seek cell
      else s
    | none => s
  | .finish i =>
    match s.seeks[i]? with
    | some seek =>
      if seek.outcome.isNone ∧ (seek.exhausted ∨ seek.matched.length = seek.query.limit) then
        s.finish i seek
      else s
    | none => s

/-- The state after the events `es`. -/
abbrev after (r : Ready d) (es : List Event) : System := run (step d) (.init d r) es

/-! ## Faithful steps -/

/-- The postings of `c` are applied in the turn of its rows: after those of the earlier commits
of each row it changes, before those of the later ones. -/
def InTurn (s : System) (c : Commit) : Prop :=
  ∀ c' ∈ s.commits, c.meets c' = true → (c'.version < c.version → c'.version ∈ s.applied) ∧
      (c.version < c'.version → c'.version ∉ s.applied)

instance (s : System) (c : Commit) : Decidable (InTurn s c) :=
  inferInstanceAs (Decidable (∀ c' ∈ s.commits, c.meets c' = true →
    (c'.version < c.version → c'.version ∈ s.applied) ∧
      (c.version < c'.version → c'.version ∉ s.applied)))

/-- The step keeps the counter at the last version that changed the index: the postings of a
commit were planned from values with the postings that its rows have at the commit point, a
version is not visible before its postings are applied, postings are applied in turn, they are
replayed only below the counter, and a restart finds no posting applied above
`ready_at_version`. -/
def Faithful (s : System) : Event → Prop
  | .commit changes seen => ∀ row ∈ changes.rows,
    post d row.1 (seen row.1) = post d row.1 (s.current row.1)
  | .apply v => ∀ c ∈ s.find v, v ∉ s.applied → InTurn s c
  | .replay v => ∀ c ∈ s.find v, v ∉ s.applied → InTurn s c ∧ (c.ops = [] ∨ v ≤ s.counter)
  | .settle v => ∀ c ∈ s.find v, v ∈ s.applied ∨ c.ops = []
  | .restart => ∀ c ∈ s.commits, c.version ∈ s.applied → c.ops = [] ∨ c.version ≤ s.ready
  | _ => True

instance (s : System) (ev : Event) : Decidable (Faithful d s ev) := by
  unfold Faithful
  split <;> infer_instance

/-! ## Pages of the full scan -/

/-- The index has exactly the postings of the rows at the version. -/
def Mirrors (s : System) (v : Nat) : Prop :=
  ∀ key, key ∈ s.keys ↔ ∃ id, post d id (s.valueAt v id) = some key

/-- A row behind the start of the page: its key compares after the start value, or it ties with
it and its id is past the one seen last. -/
def KeysetQuery.past (q : KeysetQuery) (row : Row) : Bool :=
  match compareQvSortKeys q.order.lib (resolveQvOrderKey (q.order.projected row))
      (.fromQueryValue q.start.toValue) q.order.direction q.order.nulls with
  | .gt => true
  | .lt => false
  | .eq => q.afterId.any fun a =>
    match q.order.direction with
    | .asc => decide (a.bytes < row.1.bytes)
    | .desc => decide (row.1.bytes < a.bytes)

/-- On the rows of a version the order of the index is that of the query: the rows behind the
start are those the walk can meet, and the walk inverts no pair of them. -/
structure Agrees (q : KeysetQuery) (encoded : Bytes) (rows : List Row) : Prop where
  past : ∀ row ∈ rows, q.past row = true ↔ ∃ key, d.posting row = some key ∧
    inRange d.name encoded q key = true
  ordered : ∀ a ∈ rows, ∀ b ∈ rows, q.past a = true → q.past b = true →
    d.Before q.order.direction a b → ¬ q.order.After a b

end ShamirDb.AsOf
