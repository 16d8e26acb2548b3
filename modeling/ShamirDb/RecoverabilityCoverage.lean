/-
# The recoverable prefix of versions

`RecoverabilityCoverage` reports a version `R` such that everything up to `R` survives a
crash.  The sync worker lists the versions it finds in the log (`written`), remembers
the generation of that list (`capture`), fsyncs, and then declares the generation synced.
Beside it, any number of calls settle single versions whose history is durable or that
were aborted, and recovery certifies a whole prefix at open.  All of them move the prefix
over the covered slots above it.

The model executes these calls one atomic access at a time.  There is one worker, so its
round is a component of its own; the other calls are tasks.  `captured` and `fsynced` are
history variables: the versions of every list whose capture has happened, and those
whose capture has happened before a successful fsync.

The in-memory log (`enable_memory`, `memory_completed`) has no worker rounds and is left
out.
-/
import Mathlib.Order.Bounds.Basic
import Mathlib.Tactic.Common
import Mathlib.Logic.Function.Basic
import ShamirDb.Machine

namespace ShamirDb.RecoverabilityCoverage

open Machine Function Option

/-! ## The shared fields -/

/-- `recoverable` is the source's prefix; a slot holds 0 for a settled version and
otherwise the generation of the list that wrote it. -/
structure Coverage where
  recoverable : Nat
  generation : Nat
  syncedGeneration : Nat
  slots : Nat → Option Nat

/-- `new`: the initial prefix is certified by recovery. -/
def Coverage.new (initial : Nat) : Coverage := ⟨initial, 0, 0, fun _ => none⟩

namespace Coverage

/-- The slot of `v` lets the prefix pass. -/
def Covered (c : Coverage) (v : Nat) : Prop := ∃ g, c.slots v = some g ∧ g ≤ c.syncedGeneration

/-- Version `v` is in the prefix, or waits in a slot of generation `g` or earlier. -/
def Held (c : Coverage) (v g : Nat) : Prop :=
  v ≤ c.recoverable ∨ ∃ h, c.slots v = some h ∧ h ≤ g

/-- `slots.insert`. -/
def insert (c : Coverage) (v g : Nat) : Coverage :=
  { c with slots := update c.slots v (some g) }

/-- `slots.entry(v).or_insert(g)`. -/
def orInsert (c : Coverage) (v g : Nat) : Coverage :=
  match c.slots v with
  | some _ => c
  | none => c.insert v g

/-- `slots.remove`. -/
def remove (c : Coverage) (v : Nat) : Coverage :=
  { c with slots := update c.slots v none }

end Coverage

/-! ## Accesses -/

/-- The next access of the loop in `advance`; `current` is the prefix it loaded. -/
inductive Advance where
  | load
  | slot (current : Nat)
  | synced (current generation : Nat)
  | cas (current : Nat)
  | remove (next : Nat)
  deriving DecidableEq

/-- One access of `advance`; `none` when the loop returns. -/
def Advance.access (c : Coverage) : Advance → Coverage × Option Advance
  | .load => (c, some (.slot c.recoverable))
  | .slot current =>
    match c.slots (current + 1) with
    | none => (c, none)
    | some 0 => (c, some (.cas current))
    | some g => (c, some (.synced current g))
  | .synced current g => (c, if g ≤ c.syncedGeneration then some (.cas current) else none)
  | .cas current =>
    if c.recoverable = current then
      ({ c with recoverable := current + 1 }, some (.remove (current + 1)))
    else (c, some .load)
  | .remove next => (c.remove next, some .load)

/-- The next access of the worker's round. -/
inductive RoundPc where
  | load
  | check (gen : Nat) (todo : List Nat)
  | insert (gen v : Nat) (todo : List Nat)
  | store (gen : Nat)
  | advanceWritten (a : Advance)
  | capture
  | fsync (gen : Nat)
  | synced (gen : Nat)
  | advanceSynced (a : Advance)
  | retainLoad
  | retain (below : Nat)
  deriving DecidableEq

/-- A round over the versions listed in one snapshot of the log. -/
structure Round where
  versions : List Nat
  pc : RoundPc
  deriving DecidableEq

/-- The round has not captured its generation yet. -/
def RoundPc.beforeCapture : RoundPc → Bool
  | .load | .check _ _ | .insert _ _ _ | .store _ | .advanceWritten _ | .capture => true
  | _ => false

/-- A call beside the worker. -/
inductive Call where
  | settle (version : Nat)
  | certifyExclusiveOpen (through : Nat)
  deriving DecidableEq

/-- The next access of a call. -/
inductive Pc where
  | settleLoad (version : Nat)
  | settleInsert (version : Nat)
  | certifyMax (through : Nat)
  | advance (a : Advance)
  | returned
  deriving DecidableEq

def Call.entry : Call → Pc
  | .settle version => .settleLoad version
  | .certifyExclusiveOpen through => .certifyMax through

structure Task where
  call : Call
  pc : Pc
  deriving DecidableEq

structure System where
  coverage : Coverage
  worker : Option Round
  tasks : Nat → Option Task
  captured : List Nat
  fsynced : List Nat

/-- What the environment contributes to an access of the worker: whether the fsync
succeeds, and which slot `retain` visits next (`none` when it is done). -/
structure Env where
  ok : Bool
  visit : Option Nat
  deriving DecidableEq

/-- Where the worker goes after an access of `advance`. -/
def Advance.resume (back : Advance → RoundPc) (leave : RoundPc) : Option Advance → RoundPc
  | some a => back a
  | none => leave

/-- One access of the worker's round. -/
def work (e : Env) (s : System) (r : Round) : System :=
  let c := s.coverage
  match r.pc with
  | .load => { s with worker := some { r with pc := .check (c.generation + 1) r.versions } }
  | .check gen [] => { s with worker := some { r with pc := .store gen } }
  | .check gen (v :: todo) =>
    let pc := if c.recoverable < v then .insert gen v todo else .check gen todo
    { s with worker := some { r with pc := pc } }
  | .insert gen v todo =>
    { s with coverage := c.orInsert v gen, worker := some { r with pc := .check gen todo } }
  | .store gen =>
    { s with
      coverage := { c with generation := gen }
      worker := some { r with pc := .advanceWritten .load } }
  | .advanceWritten a =>
    { s with
      coverage := (a.access c).1
      worker := some { r with pc := (Advance.resume .advanceWritten .capture) (a.access c).2 } }
  | .capture =>
    { s with
      captured := r.versions ++ s.captured
      worker := some { r with pc := .fsync c.generation } }
  | .fsync gen =>
    if e.ok then { s with fsynced := s.captured, worker := some { r with pc := .synced gen } }
    else { s with worker := none }
  | .synced gen =>
    { s with
      coverage := { c with syncedGeneration := max c.syncedGeneration gen }
      worker := some { r with pc := .advanceSynced .load } }
  | .advanceSynced a =>
    { s with
      coverage := (a.access c).1
      worker := some { r with pc := (Advance.resume .advanceSynced .retainLoad) (a.access c).2 } }
  | .retainLoad => { s with worker := some { r with pc := .retain c.recoverable } }
  | .retain below =>
    match e.visit with
    | some v => { s with coverage := if v ≤ below then c.remove v else c }
    | none => { s with worker := none }

/-- One access of a call beside the worker. -/
def access (c : Coverage) : Pc → Coverage × Pc
  | .settleLoad version => (c, if version ≤ c.recoverable then .returned else .settleInsert version)
  | .settleInsert version => (c.insert version 0, .advance .load)
  | .certifyMax through => ({ c with recoverable := max c.recoverable through }, .advance .load)
  | .advance a =>
    ((a.access c).1, match (a.access c).2 with | some b => .advance b | none => .returned)
  | .returned => (c, .returned)

/-- The scheduler starts a round if none is running, or a call under a fresh name, or lets
the worker or a call perform its next access. -/
inductive Event where
  | round (versions : List Nat)
  | work (e : Env)
  | invoke (i : Nat) (call : Call)
  | exec (i : Nat)
  deriving DecidableEq

def step (s : System) : Event → System
  | .round versions =>
    match s.worker with
    | none => { s with worker := some ⟨versions, .load⟩ }
    | some _ => s
  | .work e =>
    match s.worker with
    | none => s
    | some r => work e s r
  | .invoke i call =>
    match s.tasks i with
    | none => { s with tasks := update s.tasks i (some ⟨call, call.entry⟩) }
    | some _ => s
  | .exec i =>
    match s.tasks i with
    | none => s
    | some task =>
      { s with
        coverage := (access s.coverage task.pc).1
        tasks := update s.tasks i (some ⟨task.call, (access s.coverage task.pc).2⟩) }

def init (initial : Nat) : System := ⟨.new initial, none, fun _ => none, [], []⟩

/-- The state after the events `es` on a coverage opened at `initial`. -/
abbrev after (initial : Nat) (es : List Event) : System := run step (init initial) es

/-- The worker is idle and every call has returned. -/
def System.Quiescent (s : System) : Prop :=
  s.worker = none ∧ ∀ i task, s.tasks i = some task → task.pc = .returned

/-- A call has been made. -/
def System.Called (s : System) (call : Call) : Prop := ∃ i pc, s.tasks i = some ⟨call, pc⟩

/-- **Evidence** that version `v` is recoverable: it has been settled, certified at open,
or listed in a snapshot whose capture preceded a successful fsync. -/
def System.Evidence (s : System) (v : Nat) : Prop :=
  s.Called (.settle v) ∨ (∃ through, v ≤ through ∧ s.Called (.certifyExclusiveOpen through)) ∨
    v ∈ s.fsynced

/-! ## What the accesses do to the shared fields -/

/-- What every access does: the counters only grow and no version loses its place. -/
structure Coverage.Moves (c c' : Coverage) : Prop where
  recoverable : c.recoverable ≤ c'.recoverable
  generation : c.generation ≤ c'.generation
  synced : c.syncedGeneration ≤ c'.syncedGeneration
  held : ∀ v g, c.Held v g → c'.Held v g

namespace Coverage

/-- Nothing moves. -/
theorem Moves.refl (c : Coverage) : c.Moves c := ⟨le_rfl, le_rfl, le_rfl, fun _ _ => id⟩

variable {c : Coverage} {v g : Nat}

/-- What is held at a generation is held later. -/
theorem Held.mono {h : Nat} (hh : c.Held v g) (hgh : g ≤ h) : c.Held v h := by
  rcases hh with hle | ⟨x, hx, hxg⟩
  · exact .inl hle
  · exact .inr ⟨x, hx, hxg.trans hgh⟩

/-- A version is settled. -/
theorem moves_insert (c : Coverage) (v : Nat) : c.Moves (c.insert v 0) := by
  refine ⟨le_rfl, le_rfl, le_rfl, ?_⟩
  rintro w g (hle | ⟨h, hw, hg⟩)
  · exact .inl hle
  · by_cases hwv : w = v
    · exact .inr ⟨0, by simp [insert, hwv], Nat.zero_le g⟩
    · exact .inr ⟨h, by simp [insert, update_of_ne hwv, hw], hg⟩

/-- An inserted version is held. -/
theorem held_insert (c : Coverage) (v g : Nat) : (c.insert v g).Held v g :=
  .inr ⟨g, by simp [insert], le_rfl⟩

/-- A slot is kept, or inserted. -/
theorem orInsert_eq (c : Coverage) (v g : Nat) :
    (∃ h, c.slots v = some h ∧ c.orInsert v g = c) ∨
      (c.slots v = none ∧ c.orInsert v g = c.insert v g) := by
  unfold orInsert
  cases h : c.slots v with
  | none => exact .inr ⟨rfl, rfl⟩
  | some g' => exact .inl ⟨g', rfl, rfl⟩

/-- A round lists a version. -/
theorem moves_orInsert (c : Coverage) (v g : Nat) : c.Moves (c.orInsert v g) := by
  rcases c.orInsert_eq v g with ⟨h, -, heq⟩ | ⟨hnone, heq⟩
  · rw [heq]; exact .refl c
  rw [heq]
  refine ⟨le_rfl, le_rfl, le_rfl, ?_⟩
  rintro w k (hle | ⟨h, hw, hk⟩)
  · exact .inl hle
  · have hwv : w ≠ v := by rintro rfl; simp [hnone] at hw
    exact .inr ⟨h, by simp [insert, update_of_ne hwv, hw], hk⟩

/-- Removing a slot inside the prefix loses nothing. -/
theorem moves_remove (hv : v ≤ c.recoverable) : c.Moves (c.remove v) := by
  refine ⟨le_rfl, le_rfl, le_rfl, ?_⟩
  rintro w g (hle | ⟨h, hw, hg⟩)
  · exact .inl hle
  · by_cases hwv : w = v
    · exact .inl (hwv ▸ hv)
    · exact .inr ⟨h, by simp [remove, update_of_ne hwv, hw], hg⟩

/-- A removal adds nothing. -/
theorem slots_remove {w : Nat} (h : (c.remove v).slots w = some g) : c.slots w = some g := by
  by_cases hwv : w = v
  · simp [remove, hwv] at h
  · simpa [remove, update_of_ne hwv] using h

/-- The prefix moves on. -/
theorem moves_recoverable (c : Coverage) {n : Nat} (hn : c.recoverable ≤ n) :
    c.Moves { c with recoverable := n } := by
  refine ⟨hn, le_rfl, le_rfl, ?_⟩
  rintro v g (hle | hslot)
  · exact .inl (hle.trans hn)
  · exact .inr hslot

end Coverage

/-! ## The invariant -/

/-- The synced generation, counting the one the worker is about to declare. -/
def System.effectiveSynced (s : System) : Nat :=
  match s.worker with
  | some ⟨_, .synced gen⟩ => max s.coverage.syncedGeneration gen
  | _ => s.coverage.syncedGeneration

/-- A slot of version `v` and generation `g` may be believed: an fsync after its capture
has succeeded, or its generation is not synced yet and its capture has happened or will. -/
def System.Promised (s : System) (v g : Nat) : Prop :=
  v ∈ s.fsynced ∨ (s.effectiveSynced < g ∧
    (v ∈ s.captured ∨ ∃ r, s.worker = some r ∧ r.pc.beforeCapture = true ∧ v ∈ r.versions))

/-- What an access of `advance` knows. -/
def Advance.Ok (s : System) : Advance → Prop
  | .load | .slot _ => True
  | .synced current g => s.Promised (current + 1) g
  | .cas current => s.Evidence (current + 1)
  | .remove next => next ≤ s.coverage.recoverable

/-- This access of `advance` will not miss a covered slot above the prefix. -/
def Advance.Watches (c : Coverage) : Advance → Prop
  | .load | .cas _ | .remove _ => True
  | .slot current => current = c.recoverable
  | .synced current g => current = c.recoverable ∧ g ≤ c.syncedGeneration

/-- The effect of a call has taken place. -/
def Call.Done (c : Coverage) : Call → Prop
  | .settle version => c.Held version 0
  | .certifyExclusiveOpen through => through ≤ c.recoverable

def Task.Ok (s : System) (task : Task) : Prop :=
  match task.pc with
  | .settleLoad version | .settleInsert version => task.call = .settle version
  | .certifyMax through => task.call = .certifyExclusiveOpen through
  | .advance a => a.Ok s ∧ task.call.Done s.coverage
  | .returned => task.call.Done s.coverage

def Round.Ok (s : System) (r : Round) : Prop :=
  match r.pc with
  | .load => True
  | .check gen todo =>
    gen = s.coverage.generation + 1 ∧
      ∃ done, r.versions = done ++ todo ∧ ∀ v ∈ done, s.coverage.Held v gen
  | .insert gen v todo =>
    gen = s.coverage.generation + 1 ∧
      ∃ done, r.versions = done ++ v :: todo ∧ ∀ w ∈ done, s.coverage.Held w gen
  | .store gen =>
    gen = s.coverage.generation + 1 ∧ ∀ v ∈ r.versions, s.coverage.Held v gen
  | .advanceWritten a => a.Ok s ∧ ∀ v ∈ r.versions, s.coverage.Held v s.coverage.generation
  | .capture => ∀ v ∈ r.versions, s.coverage.Held v s.coverage.generation
  | .fsync gen | .synced gen => gen = s.coverage.generation
  | .advanceSynced a => a.Ok s
  | .retainLoad => True
  | .retain below => below ≤ s.coverage.recoverable

/-- Some access of `advance` in flight will not miss a covered slot above the prefix. -/
def System.Watched (s : System) : Prop :=
  (∃ i task a, s.tasks i = some task ∧ task.pc = .advance a ∧ a.Watches s.coverage) ∨
    ∃ r a, s.worker = some r ∧ (r.pc = .advanceWritten a ∨ r.pc = .advanceSynced a) ∧
      a.Watches s.coverage

structure Inv (initial : Nat) (s : System) : Prop where
  start_le : initial ≤ s.coverage.recoverable
  sound : ∀ v, initial < v → v ≤ s.coverage.recoverable → s.Evidence v
  /-- A slot is that of a settled version or may be believed. -/
  slots : ∀ v g, s.coverage.slots v = some g →
    (g = 0 ∧ s.Called (.settle v)) ∨ (0 < g ∧ s.Promised v g)
  slots_le : ∀ v g, s.coverage.slots v = some g → g ≤ s.coverage.generation + 1
  synced_le : s.coverage.syncedGeneration ≤ s.coverage.generation
  captured : ∀ v ∈ s.captured, s.coverage.Held v s.coverage.generation
  fsynced : ∀ v ∈ s.fsynced, v ∈ s.captured ∧ s.coverage.Held v s.effectiveSynced
  tasks : ∀ i task, s.tasks i = some task → task.Ok s
  worker : ∀ r, s.worker = some r → r.Ok s
  watched : s.coverage.Covered (s.coverage.recoverable + 1) → s.Watched

/-! ## What carries over to a later state -/

/-- The later state keeps every fact a task or the worker holds on to. -/
structure System.Leads (s s' : System) : Prop where
  moves : s.coverage.Moves s'.coverage
  called : ∀ call, s.Called call → s'.Called call
  fsynced : ∀ v ∈ s.fsynced, v ∈ s'.fsynced
  promised : ∀ v g, s.Promised v g → s'.Promised v g

variable {s s' : System} {a : Advance} {c c' : Coverage}

/-- Evidence is not lost. -/
theorem System.Leads.evidence (h : s.Leads s') {v : Nat} (hv : s.Evidence v) : s'.Evidence v := by
  rcases hv with hset | ⟨through, hle, hcert⟩ | hsync
  · exact .inl (h.called _ hset)
  · exact .inr (.inl ⟨through, hle, h.called _ hcert⟩)
  · exact .inr (.inr (h.fsynced v hsync))

/-- A loop that is well placed stays so. -/
theorem Advance.Ok.leads (h : s.Leads s') (ha : a.Ok s) : a.Ok s' := by
  cases a with
  | load | slot => trivial
  | synced current g => exact h.promised _ _ ha
  | cas current => exact h.evidence ha
  | remove next => exact ha.trans h.moves.recoverable

/-- What a call has done stays done. -/
theorem Call.Done.moves (h : c.Moves c') {call : Call} (hc : call.Done c) : call.Done c' := by
  cases call with
  | settle version => exact h.held _ _ hc
  | certifyExclusiveOpen through => exact hc.trans h.recoverable

/-- A call that is well placed stays so. -/
theorem Task.Ok.leads (h : s.Leads s') {task : Task} (ht : task.Ok s) : task.Ok s' := by
  obtain ⟨call, pc⟩ := task
  cases pc with
  | settleLoad | settleInsert | certifyMax => exact ht
  | advance a => exact ⟨ht.1.leads h, ht.2.moves h.moves⟩
  | returned => exact Call.Done.moves h.moves ht

/-- The worker's own facts also survive as long as nobody else touches the generation. -/
theorem Round.Ok.leads (h : s.Leads s') (hgen : s'.coverage.generation = s.coverage.generation)
    {r : Round} (hr : r.Ok s) : r.Ok s' := by
  obtain ⟨versions, pc⟩ := r
  cases pc with
  | load => trivial
  | check gen todo =>
    obtain ⟨heq, done, hsplit, hdone⟩ := hr
    exact ⟨by rw [hgen]; exact heq, done, hsplit, fun v hv => h.moves.held _ _ (hdone v hv)⟩
  | insert gen v todo =>
    obtain ⟨heq, done, hsplit, hdone⟩ := hr
    exact ⟨by rw [hgen]; exact heq, done, hsplit, fun w hw => h.moves.held _ _ (hdone w hw)⟩
  | store gen =>
    exact ⟨by rw [hgen]; exact hr.1, fun v hv => h.moves.held _ _ (hr.2 v hv)⟩
  | advanceWritten a =>
    exact ⟨hr.1.leads h, fun v hv => by
      show s'.coverage.Held v s'.coverage.generation
      rw [hgen]; exact h.moves.held _ _ (hr.2 v hv)⟩
  | capture =>
    intro v hv
    rw [hgen]
    exact h.moves.held _ _ (hr v hv)
  | fsync gen | synced gen => exact hr.trans hgen.symm
  | advanceSynced a => exact Advance.Ok.leads h hr
  | retainLoad => trivial
  | retain below => exact hr.trans h.moves.recoverable

/-! ## One access of `advance` -/

/-- Reading a slot changes nothing. -/
@[simp] theorem Advance.access_slot (c : Coverage) (current : Nat) :
    ((Advance.slot current).access c).1 = c := by
  simp only [Advance.access]
  split <;> rfl

/-- What an access of `advance` that knows `a.Ok` does to the shared fields. -/
structure Advance.Effect (s : System) (c' : Coverage) (next : Option Advance) : Prop where
  moves : s.coverage.Moves c'
  generation : c'.generation = s.coverage.generation
  synced : c'.syncedGeneration = s.coverage.syncedGeneration
  slots : ∀ v g, c'.slots v = some g → s.coverage.slots v = some g
  /-- The prefix moves over a version with evidence only, and the loop goes on. -/
  recoverable : c'.recoverable = s.coverage.recoverable ∨
    (c'.recoverable = s.coverage.recoverable + 1 ∧ s.Evidence (s.coverage.recoverable + 1) ∧
      ∃ b, next = some b ∧ b.Watches c')

/-- What an access of `advance` does. -/
theorem Advance.effect {s : System} (ha : a.Ok s) :
    Advance.Effect s (a.access s.coverage).1 (a.access s.coverage).2 := by
  have hsame : ∀ next, Advance.Effect s s.coverage next :=
    fun _ => ⟨.refl _, rfl, rfl, fun _ _ => id, .inl rfl⟩
  cases a with
  | load => exact hsame _
  | slot current => rw [Advance.access_slot]; exact hsame _
  | synced current g => exact hsame _
  | cas current =>
    by_cases heq : s.coverage.recoverable = current
    · subst heq
      simp only [Advance.access]
      exact ⟨s.coverage.moves_recoverable (Nat.le_succ _), rfl, rfl, fun _ _ => id,
        .inr ⟨rfl, ha, _, rfl, trivial⟩⟩
    · simp only [Advance.access, if_neg heq]
      exact hsame _
  | remove next =>
    exact ⟨Coverage.moves_remove ha, rfl, rfl, fun _ _ => Coverage.slots_remove, .inl rfl⟩

/-- The next access of `advance` knows what it has to. -/
theorem Advance.ok_next {initial : Nat} (h : Inv initial s) (hleads : s.Leads s')
    (hcov : s'.coverage = (a.access s.coverage).1) (ha : a.Ok s) {b : Advance}
    (hb : (a.access s.coverage).2 = some b) : b.Ok s' := by
  cases a with
  | load | remove next =>
    simp only [Advance.access, some.injEq] at hb
    subst hb; trivial
  | slot current =>
    cases hslot : s.coverage.slots (current + 1) with
    | none => simp [Advance.access, hslot] at hb
    | some g =>
      rcases h.slots _ _ hslot with ⟨hg, hcalled⟩ | ⟨hg, hpromised⟩
      · subst hg
        simp only [Advance.access, hslot, some.injEq] at hb
        subst hb
        exact hleads.evidence (.inl hcalled)
      · cases g with
        | zero => omega
        | succ g =>
          simp only [Advance.access, hslot, some.injEq] at hb
          subst hb
          exact hleads.promised _ _ hpromised
  | synced current g =>
    simp only [Advance.access] at hb
    split at hb
    case isFalse => simp at hb
    case isTrue hle =>
      simp only [some.injEq] at hb
      subst hb
      -- a synced generation can only be believed because of an fsync
      rcases ha with hsync | ⟨hlt, -⟩
      · exact hleads.evidence (.inr (.inr hsync))
      have hle' : s.coverage.syncedGeneration ≤ s.effectiveSynced := by
        unfold System.effectiveSynced
        split
        · omega
        · exact le_rfl
      omega
  | cas current =>
    simp only [Advance.access] at hb
    split at hb
    case isTrue heq =>
      simp only [some.injEq] at hb
      subst hb
      show current + 1 ≤ s'.coverage.recoverable
      rw [hcov, Advance.access, if_pos heq]
    case isFalse =>
      simp only [some.injEq] at hb
      subst hb; trivial

/-- If the slot above the prefix is covered after an access of `advance`, either the loop
goes on and watches it, or the slot was covered before, the prefix has not moved and this
access was not watching. -/
theorem Advance.watch_next (a : Advance)
    (hcov : (a.access c).1.Covered ((a.access c).1.recoverable + 1)) :
    (∃ b, (a.access c).2 = some b ∧ b.Watches (a.access c).1) ∨
      (c.Covered (c.recoverable + 1) ∧ (a.access c).1.recoverable = c.recoverable ∧
        ¬a.Watches c) := by
  cases a with
  | load => exact .inl ⟨_, rfl, rfl⟩
  | slot current =>
    by_cases hcur : current = c.recoverable
    · left
      subst hcur
      rw [Advance.access_slot] at hcov
      obtain ⟨g, hslot, hg⟩ := hcov
      cases g with
      | zero => exact ⟨.cas c.recoverable, by simp [Advance.access, hslot], trivial⟩
      | succ g =>
        simpa [Advance.access, hslot, Advance.Watches] using hg
    · rw [Advance.access_slot] at hcov ⊢
      exact .inr ⟨hcov, rfl, hcur⟩
  | synced current g =>
    by_cases hw : (Advance.synced current g).Watches c
    · exact .inl ⟨.cas current, by simp [Advance.access, hw.2], trivial⟩
    · exact .inr ⟨hcov, rfl, hw⟩
  | cas current =>
    by_cases heq : c.recoverable = current
    · exact .inl ⟨.remove (current + 1), by simp [Advance.access, heq], trivial⟩
    · exact .inl ⟨.load, by simp [Advance.access, heq], trivial⟩
  | remove next => exact .inl ⟨_, rfl, trivial⟩

/-- Watching survives any access that leaves the prefix where it is. -/
theorem Advance.Watches.moves (ha : a.Watches c) (hmoves : c.Moves c')
    (heq : c'.recoverable = c.recoverable) : a.Watches c' := by
  cases a with
  | load | cas | remove => trivial
  | slot current => exact Eq.trans ha heq.symm
  | synced current g => exact ⟨ha.1.trans heq.symm, ha.2.trans hmoves.synced⟩

end ShamirDb.RecoverabilityCoverage
