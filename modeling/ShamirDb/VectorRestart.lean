/-
# Vector indexes across restarts

The graph of a vector index lives in memory.  A commit with vectors appends its two lists to
the durable log as one numbered chunk and then promotes them into the graph, in the order of
the chunk numbers; the commit acknowledges its chunk once the promote has succeeded.  A
background snapshot samples the length of the acknowledged prefix, dumps the graph while
promotes go on, publishes the dump with boundary `0`, then with the sampled boundary, and
prunes the chunks below it from the first on.  `restore_on_open` loads the published dump and
replays the chunks from its boundary on; without a dump it rebuilds the graph from the rows
of the table's data store.

A graph is its live map from records to vectors.  The process may stop after any step; the
durable part is then the chunks and the manifest.  `before` is not part of the program: it is
the map that promoting the chunks of all earlier processes gives.
-/
import Mathlib.Data.List.Sort
import ShamirDb.KeyedWrites
import ShamirDb.PaddedKeys
import ShamirDb.TaskList
import ShamirDb.Machine

namespace ShamirDb.VectorRestart

open Machine KeyedWrites List Option Function

/-! ## The two lists of a transaction -/

/-- The vectors a committed transaction sets and the records it deletes. -/
structure Lists (R V : Type*) where
  upserts : List (R × V)
  deletes : List R
  deriving DecidableEq

namespace Lists

variable {R V : Type*}

def upsertWrites (l : Lists R V) : List (Write R (Option V)) :=
  l.upserts.map fun x => ⟨x.1, some x.2⟩

def deleteWrites (l : Lists R V) : List (Write R (Option V)) :=
  l.deletes.map fun rid => ⟨rid, none⟩

/-- The promote of a commit: the deletes, then the upserts. -/
def promoted (l : Lists R V) : List (Write R (Option V)) := l.deleteWrites ++ l.upsertWrites

/-- The replay of a chunk, which `append_vector_delta` wrote with the upserts first. -/
def replayed (l : Lists R V) : List (Write R (Option V)) := l.upsertWrites ++ l.deleteWrites

/-- A transaction without vectors has no chunk. -/
def isEmpty (l : Lists R V) : Bool := l.upserts.isEmpty && l.deletes.isEmpty

/-- No record stands in both lists. -/
def Apart (l : Lists R V) : Prop := ∀ x ∈ l.upserts, x.1 ∉ l.deletes

instance [DecidableEq R] (l : Lists R V) : Decidable l.Apart :=
  inferInstanceAs (Decidable (∀ x ∈ l.upserts, x.1 ∉ l.deletes))

variable [DecidableEq R]

/-- Then the order of the two lists does not matter. -/
theorem Apart.last_replayed {l : Lists R V} (h : l.Apart) (k : R) :
    last k l.replayed = last k l.promoted := by
  rw [replayed, promoted, last_append, last_append]
  by_cases hk : k ∈ l.deletes
  · have hnone : last k l.upsertWrites = none := by
      rw [last_eq_none_iff]
      intro w hw heq
      obtain ⟨x, hx, rfl⟩ := mem_map.1 hw
      have heq : x.1 = k := heq
      exact h x hx (heq ▸ hk)
    rw [hnone, or_none, none_or]
  · have hnone : last k l.deleteWrites = none := by
      rw [last_eq_none_iff]
      intro w hw heq
      obtain ⟨x, hx, rfl⟩ := mem_map.1 hw
      exact hk (heq ▸ hx)
    rw [hnone, or_none, none_or]

end Lists

/-! ## The process -/

/-- Where a commit is.  `lost`: the append failed, and the chunk number was marked applied;
`dropped`: the commit was cancelled or its promote failed for good. -/
inductive Stage where
  | appending
  | appended
  | promoting (done : Nat)
  | promoted
  | acked
  | lost
  | dropped
  deriving DecidableEq

/-- A commit that has reserved a chunk number; `landed`: the chunk is in the store. -/
structure Task (R V : Type*) where
  lists : Lists R V
  stage : Stage
  landed : Bool
  deriving DecidableEq

namespace Task

variable {R V : Type*}

/-- The turn to promote has been passed on. -/
def released (t : Task R V) : Bool :=
  match t.stage with
  | .appending | .appended | .promoting _ => false
  | _ => true

/-- The chunk number counts for the applied prefix. -/
def applied (t : Task R V) : Bool :=
  match t.stage with
  | .acked | .lost => true
  | _ => false

/-- The lists are in the graph. -/
def settled (t : Task R V) : Bool :=
  match t.stage with
  | .promoted | .acked => true
  | _ => false

/-- The promote has begun. -/
def started (t : Task R V) : Bool :=
  match t.stage with
  | .promoting _ | .promoted | .acked => true
  | _ => false

/-- What promoting the chunk does, if there is one. -/
def writes (t : Task R V) : List (Write R (Option V)) := if t.landed then t.lists.promoted else []

end Task

/-- The steps of a commit that touch neither the store nor the graph. -/
inductive Move where
  | appended
  | appendFails
  | begin
  | retry
  | finish
  | ack
  | drop
  deriving DecidableEq

/-- The stage a step leads to, if it can be made; `turn`: all earlier commits are through. -/
def Task.move {R V : Type*} (t : Task R V) (turn : Bool) : Move → Option Stage
  | .appended => if t.stage = .appending ∧ t.landed then some .appended else none
  | .appendFails => if t.stage = .appending ∧ !t.landed then some .lost else none
  | .begin => if t.stage = .appended ∧ turn then some (.promoting 0) else none
  | .retry => match t.stage with
    | .promoting _ => some (.promoting 0)
    | _ => none
  | .finish => if t.stage = .promoting t.lists.promoted.length then some .promoted else none
  | .ack => if t.stage = .promoted then some .acked else none
  | .drop => if t.released then none else some .dropped

/-- The published dump; the chunks below `upto` are in it. -/
structure Manifest (R V : Type*) where
  image : R → Option V
  upto : Nat

/-- The background snapshot.  `recovery`: there was no manifest when it began. -/
inductive Snapshot (R V : Type*) where
  | idle
  | dumping (upto : Nat) (recovery : Bool) (image : R → Option V)
  | dumped (upto : Nat) (recovery : Bool)
  | pruning (upto next : Nat)

structure System (R V : Type*) where
  chunks : Nat → Option (Lists R V)
  manifest : Option (Manifest R V)
  /-- The first chunk number this process gives out. -/
  first : Nat
  /-- The commits of this process, in the order of their chunk numbers. -/
  tasks : List (Task R V)
  graph : R → Option V
  snapshot : Snapshot R V
  before : R → Option V

inductive Event (R V : Type*) where
  /-- `append_vector_delta` reserves a chunk number. -/
  | reserve (lists : Lists R V)
  /-- The chunk of commit `i` reaches the store. -/
  | land (i : Nat)
  | move (i : Nat) (m : Move)
  /-- The next write of commit `i` to the graph. -/
  | promote (i : Nat)
  /-- A snapshot begins: manifest and applied prefix are read. -/
  | sample
  /-- The dump reads the record's entry of the graph (once more). -/
  | capture (rid : R)
  /-- The dump is complete and published with boundary `0`. -/
  | publish
  /-- The boundary is published. -/
  | flip
  /-- The next chunk below the boundary is removed. -/
  | prune
  /-- The snapshot ends with an error. -/
  | abandon
  /-- The process stops and the index is opened again. -/
  | restart
  deriving DecidableEq

namespace System

variable {R V : Type*}

/-- `next_delta_idx` -/
def next (s : System R V) : Nat := s.first + s.tasks.length

/-- `applied_prefix`: the chunk numbers below it are all marked applied. -/
def appliedPrefix (s : System R V) : Nat := s.first + (s.tasks.takeWhile Task.applied).length

def setTask (s : System R V) (i : Nat) (t : Task R V) : System R V :=
  { s with tasks := s.tasks.set i t }

/-- The writes of the chunk with this number, as the replay makes them. -/
def replayedAt (s : System R V) (idx : Nat) : List (Write R (Option V)) :=
  match s.chunks idx with
  | some lists => lists.replayed
  | none => []

/-- The numbers of the chunks from `lo` on, in the order of their keys. -/
def scan (s : System R V) (lo : Nat) : List Nat :=
  ((range s.next).filter fun idx => (s.chunks idx).isSome && decide (lo ≤ idx)).insertionSort
    fun i j => PaddedKeys.textLe (PaddedKeys.key 10 i) (PaddedKeys.key 10 j) = true

/-- `replay_delta` from the boundary `lo`. -/
def replay [DecidableEq R] (s : System R V) (lo : Nat) (image : R → Option V) : R → Option V :=
  apply ((s.scan lo).flatMap s.replayedAt) image

/-- The highest number below `n` of a chunk in the store, `0` if there is none. -/
def highestBelow (chunks : Nat → Option (Lists R V)) : Nat → Nat
  | 0 => 0
  | n + 1 => if (chunks n).isSome then n else highestBelow chunks n

/-- `highest_delta_index` -/
def highest (s : System R V) : Nat := highestBelow s.chunks s.next

/-- The graph `restore_on_open` builds. -/
def restored [DecidableEq R] (rows : R → Option V) (s : System R V) : R → Option V :=
  match s.manifest with
  | some m => s.replay m.upto m.image
  | none => rows

/-- The chunk number the process goes on with. -/
def seed (s : System R V) : Nat :=
  match s.manifest with
  | some m => max m.upto s.highest + 1
  | none => if s.highest = 0 then 0 else s.highest + 1

/-- What promoting all committed lists in chunk order gives, on an empty graph. -/
def expected [DecidableEq R] (s : System R V) : R → Option V :=
  apply (s.tasks.flatMap Task.writes) s.before

/-- A new index. -/
def init : System R V :=
  ⟨fun _ => none, none, 0, [], fun _ => none, .idle, fun _ => none⟩

end System

section

variable {R V : Type*} {s : System R V} {t : Task R V} {idx i : Nat}

/-- A landed chunk writes what it promotes. -/
theorem Task.writes_of_landed (h : t.landed = true) : t.writes = t.lists.promoted := by
  rw [Task.writes, if_pos h]

/-- Another one writes nothing. -/
theorem Task.writes_of_not_landed (h : t.landed = false) : t.writes = [] := by
  rw [Task.writes, h]
  rfl

/-- No chunk, nothing to replay. -/
theorem replayedAt_of_none (h : s.chunks idx = none) : s.replayedAt idx = [] := by
  rw [System.replayedAt, h]

/-- A chunk is replayed in its own order. -/
theorem replayedAt_of_some {l : Lists R V} (h : s.chunks idx = some l) :
    s.replayedAt idx = l.replayed := by
  rw [System.replayedAt, h]

/-- Only the chunk matters. -/
theorem replayedAt_congr {s' : System R V} (h : s'.chunks idx = s.chunks idx) :
    s'.replayedAt idx = s.replayedAt idx := by
  rw [System.replayedAt, System.replayedAt, h]

/-- Chunks below the prefix are applied. -/
theorem applied_of_lt (ht : s.tasks[i]? = some t) (h : s.first + i < s.appliedPrefix) :
    t.applied = true := by
  have hlt : i < (s.tasks.takeWhile Task.applied).length := by
    rw [System.appliedPrefix] at h
    omega
  obtain ⟨u, hu, happ⟩ := TaskList.getElem?_of_lt_takeWhile hlt
  rw [ht, some.injEq] at hu
  exact hu ▸ happ

/-- The prefix ends before a chunk that is not. -/
theorem prefix_le_of_not_applied (ht : s.tasks[i]? = some t) (h : t.applied = false) :
    s.appliedPrefix ≤ s.first + i := by
  apply Nat.le_of_not_lt
  intro hlt
  rw [applied_of_lt ht hlt] at h
  simp at h

end

variable {R V : Type*} [DecidableEq R]

/-- A step of the background snapshot. -/
def snapshotStep (s : System R V) : Event R V → System R V
  | .sample => match s.snapshot with
    | .idle => { s with snapshot := .dumping s.appliedPrefix s.manifest.isNone s.graph }
    | _ => s
  | .capture rid => match s.snapshot with
    | .dumping upto recovery image =>
      { s with snapshot := .dumping upto recovery (update image rid (s.graph rid)) }
    | _ => s
  | .publish => match s.snapshot with
    | .dumping upto recovery image =>
      { s with manifest := some ⟨image, 0⟩, snapshot := .dumped upto recovery }
    | _ => s
  | .flip => match s.snapshot, s.manifest with
    | .dumped upto recovery, some m =>
      -- without a manifest to start from nothing is pruned
      { s with
        manifest := some { m with upto }
        snapshot := if recovery then .idle else .pruning upto 0 }
    | _, _ => s
  | .prune => match s.snapshot with
    | .pruning upto next =>
      if next < upto then
        { s with
          chunks := update s.chunks next none
          snapshot := .pruning upto (next + 1) }
      else { s with snapshot := .idle }
    | _ => s
  | .abandon => { s with snapshot := .idle }
  | _ => s

/-- One step; `rows` are the vectors of the rows in the data store that a rebuild scans.
Commits of a table write its rows elsewhere. -/
def step (rows : R → Option V) (s : System R V) : Event R V → System R V
  | .reserve lists =>
    if lists.isEmpty then s else { s with tasks := s.tasks ++ [⟨lists, .appending, false⟩] }
  | .land i => match s.tasks[i]? with
    | some t =>
      if t.stage = .appending ∧ !t.landed then
        { s.setTask i { t with landed := true } with
          chunks := update s.chunks (s.first + i) (some t.lists) }
      else s
    | none => s
  | .move i m => match s.tasks[i]? with
    | some t => match t.move ((s.tasks.take i).all Task.released) m with
      | some stage => s.setTask i { t with stage }
      | none => s
    | none => s
  | .promote i => match s.tasks[i]? with
    | some t => match t.stage with
      | .promoting done => match t.lists.promoted[done]? with
        | some w =>
          { s.setTask i { t with stage := .promoting (done + 1) } with
            graph := update s.graph w.key w.value }
        | none => s
      | _ => s
    | none => s
  | .restart =>
    { s with
      first := s.seed
      tasks := []
      graph := s.restored rows
      snapshot := .idle
      before := s.expected }
  | e => snapshotStep s e

/-- No record stands in both lists of a commit, chunk numbers have ten digits, and the index
is opened again only after a first snapshot has been published. -/
def Orderly (s : System R V) : Event R V → Prop
  | .reserve lists => lists.Apart ∧ s.next < 10 ^ 10
  | .restart => s.manifest.isSome
  | _ => True

instance (s : System R V) : ∀ e : Event R V, Decidable (Orderly s e)
  | .reserve lists => inferInstanceAs (Decidable (lists.Apart ∧ s.next < 10 ^ 10))
  | .restart => inferInstanceAs (Decidable (s.manifest.isSome = true))
  | .land _ | .move _ _ | .promote _ | .sample | .capture _ | .publish | .flip | .prune
  | .abandon => inferInstanceAs (Decidable True)

end ShamirDb.VectorRestart
