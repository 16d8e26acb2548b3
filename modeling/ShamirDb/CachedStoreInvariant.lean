/-
# What the mirror cache keeps to

While the store has not failed, the copy, the inner store and the map differ only in what the
owner has still to do (`Consistent`).  A `get` that misses reads the inner store; the value
it finds there is one the map has held since it began, or the one that the command under way
is going to leave (`GetInv`), and the fill it waits for comes after that command.
-/
import ShamirDb.CachedStore

namespace ShamirDb.CachedStore

open Machine KeyedWrites Linearized TaskList Function
open Mirrored (KvOp)

variable {K V : Type*} [DecidableEq K]

/-! ## The copy and the inner store -/

/-- The map with the entry taken out that is being replaced. -/
def gapped (map : K → Option V) : List (KvOp K V) → Bool → K → Option V
  | .set key _ :: _, true => update map key none
  | _, _ => map

/-- How the inner store, the copy and the map differ. -/
def Consistent (s : System K V) : Prop :=
  match s.work with
  | .publish (.call _) actions gap _ =>
    s.inner = apply (actions.map KvOp.write) s.watch.map ∧ s.cache = gapped s.watch.map actions gap
  | .publish _ actions gap _ =>
    s.inner = s.watch.map ∧ s.cache = gapped s.watch.map actions gap ∧
      ∀ op ∈ actions, s.watch.map op.write.key = op.write.value
  | .asyncSet _ key value created =>
    s.inner = s.watch.map ∧ s.cache = gapped s.watch.map [.set key value] created.isSome
  | .acking _ (.set key value) _ =>
    s.watch.map = apply [⟨key, some value⟩] s.inner ∧ s.cache = s.watch.map
  | .acking _ (.remove key) _ =>
    s.inner = s.watch.map ∧ s.cache = update s.watch.map key none
  | .writing _ op => s.watch.map = apply [op.write] s.inner ∧ s.cache = s.watch.map
  | _ => s.inner = s.watch.map ∧ s.cache = s.watch.map

/-- The commands that make the epoch odd. -/
def Work.mutates : Work K V → Bool
  | .idle | .flush _ | .publish (.fill _) _ _ _ => false
  | _ => true

/-- A command of a caller is being published: the inner store is ahead of the map. -/
def Work.publishing : Work K V → Bool
  | .publish (.call _) _ _ _ => true
  | _ => false

/-! ## Reads -/

/-- The `get` has not probed the copy yet. -/
def GetStage.unprobed : GetStage V → Bool
  | .started | .captured _ => true
  | _ => false

/-- While an acknowledged or published write has not reached the inner store, a `get` of the
key began before it, or it finds the entry in the copy, or it began behind the removal. -/
def Window (s : System K V) (g : Get K V) (r : Read K V) : Prop :=
  match s.work with
  | .acking _ (.set key _) _ | .writing _ (.set key _) =>
    key = g.key → s.inner key ∈ r.seen ∨ (g.stage.unprobed = true ∧ s.cache key ≠ none)
  | .writing i (.remove key) => key = g.key → s.inner key ∈ r.seen ∨ g.behind = some i
  | _ => True

/-- What a `get` knows, against what its key has held. -/
def GetInv (s : System K V) (g : Get K V) (r : Read K V) : Prop :=
  r.key = g.key ∧ match g.stage with
  | .started => r.answer = none ∧ s.watch.map g.key ∈ r.seen ∧ Window s g r
  | .captured epoch | .missed epoch =>
    r.answer = none ∧ s.watch.map g.key ∈ r.seen ∧ Window s g r ∧ epoch ≤ s.epoch
  | .read epoch value | .filling epoch value =>
    r.answer = none ∧ s.watch.map g.key ∈ r.seen ∧ epoch ≤ s.epoch ∧
      (s.epoch = epoch → s.epoch % 2 = 0 → s.inner g.key = value) ∧
      (value ∈ r.seen ∨ (s.work.publishing = true ∧ s.inner g.key = value))
  | .hit value => r.answer = none ∧ some value ∈ r.seen
  | .filled value => r.answer = none ∧ value ∈ r.seen
  | .failed | .returned _ => True

omit [DecidableEq K] in
/-- A step of the owner keeps what a `get` knows. -/
theorem GetInv.step {s s' : System K V} {g : Get K V} {r r' : Read K V} (h : GetInv s g r)
    (hkey : r'.key = r.key) (hanswer : r'.answer = r.answer) (hseen : ∀ v ∈ r.seen, v ∈ r'.seen)
    (hmap : r.answer = none → s.watch.map r.key ∈ r.seen → s'.watch.map r.key ∈ r'.seen)
    (hepoch : s.epoch ≤ s'.epoch)
    (hinner : s'.epoch = s.epoch → s.epoch % 2 = 0 → s'.inner = s.inner)
    (hpub : s.work.publishing = true →
      (s'.work.publishing = true ∧ s'.inner = s.inner) ∨ s'.watch.map = s.inner)
    (hwindow : s.watch.map g.key ∈ r.seen → Window s g r → Window s' g r') : GetInv s' g r' := by
  obtain ⟨hk, hstage⟩ := h
  refine ⟨hkey.trans hk, ?_⟩
  rw [hk] at hmap
  generalize g.stage = stage at hstage
  cases stage with
  | started =>
    obtain ⟨ha, hm, hw⟩ := hstage
    exact ⟨hanswer.trans ha, hmap ha hm, hwindow hm hw⟩
  | captured epoch | missed epoch =>
    obtain ⟨ha, hm, hw, he⟩ := hstage
    exact ⟨hanswer.trans ha, hmap ha hm, hwindow hm hw, Nat.le_trans he hepoch⟩
  | read epoch value | filling epoch value =>
    obtain ⟨ha, hm, he, hquiet, hv⟩ := hstage
    refine ⟨hanswer.trans ha, hmap ha hm, Nat.le_trans he hepoch, fun heq heven => ?_, ?_⟩
    · have hsame : s'.epoch = s.epoch := by omega
      rw [hsame] at heven
      rw [hinner hsame heven]
      exact hquiet (by omega) heven
    rcases hv with hv | ⟨hp, hv⟩
    · exact .inl (hseen _ hv)
    rcases hpub hp with ⟨hp', hsame⟩ | hdone
    · exact .inr ⟨hp', by rw [hsame, hv]⟩
    · -- the command is through, and the map holds what it left
      have hcurrent := hmap ha hm
      rw [hdone, hv] at hcurrent
      exact .inl hcurrent
  | hit value | filled value =>
    exact ⟨hanswer.trans hstage.1, hseen _ hstage.2⟩
  | failed | returned value => trivial

/-! ## Calls -/

/-- The answer to a command is right if the call changed the map as it says. -/
def Right (i : Nat) (changes : List (Change K V)) : Command K V → Reply K → Prop
  | _, .failed => True
  | .insert value, .created key => changes = [⟨i, ⟨key, some value⟩, false⟩]
  | .set key value, .flag created => changes = [⟨i, ⟨key, some value⟩, !created⟩]
  | .remove key, .flag existed => changes = [⟨i, ⟨key, none⟩, existed⟩]
  | .transact ops, .done =>
    changes.map Change.write = ops.map KvOp.write ∧ (ops.map fun op => op.write.key).Nodup
  | .reload, .done => changes = []
  | .flush, .done => changes = []
  | _, _ => False

/-- The changes that the actions are going to make. -/
def planned (map : K → Option V) (i : Nat) (actions : List (KvOp K V)) : List (Change K V) :=
  actions.map fun op => ⟨i, op.write, (map op.write.key).isSome⟩

/-- Call `i` waits for its answer. -/
def Waiting (s : System K V) (i : Nat) (command : Command K V) : Prop :=
  s.calls[i]? = some ⟨command, .queued⟩

/-- What the owner knows about the call it works for. -/
def Serves (s : System K V) : Prop :=
  match s.work with
  | .idle | .writing _ _ | .publish (.fill _) _ _ _ => True
  | .insert i value => Waiting s i (.insert value) ∧ s.watch.changesOf i = []
  | .store i command => Waiting s i command ∧ s.watch.changesOf i = [] ∧
    Right i (planned s.watch.map i command.ops) command (command.reply s.watch.map)
  | .publish (.call i) actions _ reply =>
    (actions.map fun op => op.write.key).Nodup ∧ ∃ command, Waiting s i command ∧
      Right i (s.watch.changesOf i ++ planned s.watch.map i actions) command reply
  | .publish (.reload i) _ _ reply =>
    Waiting s i .reload ∧ s.watch.changesOf i = [] ∧ reply = .done
  | .asyncSet i key value created => Waiting s i (.set key value) ∧
    s.watch.changesOf i = [] ∧ ∀ b ∈ created, b = (s.watch.map key).isNone
  | .asyncRemove i key => Waiting s i (.remove key) ∧ s.watch.changesOf i = []
  | .acking i (.set key value) flag => Waiting s i (.set key value) ∧
    s.watch.changesOf i = [⟨i, ⟨key, some value⟩, !flag⟩]
  | .acking i (.remove key) flag => Waiting s i (.remove key) ∧
    s.watch.changesOf i = [] ∧ flag = (s.watch.map key).isSome
  | .reload i => Waiting s i .reload ∧ s.watch.changesOf i = []
  | .flush i => Waiting s i .flush ∧ s.watch.changesOf i = []

/-- The call the owner works for and has not answered. -/
def Work.call : Work K V → Option Nat
  | .insert i _ | .store i _ | .asyncSet i _ _ _ | .asyncRemove i _ | .acking i _ _
  | .reload i | .flush i | .publish (.call i) _ _ _ | .publish (.reload i) _ _ _ => some i
  | _ => none

/-- The calls in the queue. -/
def System.queued (s : System K V) : List Nat :=
  s.queue.filterMap fun
    | .call i => some i
    | .fill _ => none

/-- The calls, the queue and the changes. -/
structure CallsInv (s : System K V) : Prop where
  nodup : s.queued.Nodup
  waiting : ∀ i ∈ s.queued, ∃ command, Waiting s i command
  /-- The call that is served is not in the queue. -/
  served : ∀ i ∈ s.work.call, i ∉ s.queued
  serves : Serves s
  /-- A call changes nothing before the owner begins it. -/
  untouched : ∀ i, (∀ c, s.calls[i]? = some c → c.stage = .admitting ∨ i ∈ s.queued) →
    s.watch.changesOf i = []
  distinct : ∀ c ∈ s.calls, ∀ ops, c.command = .transact ops →
    (ops.map fun op => op.write.key).Nodup

/-- The reads, the copy and the inner store. -/
structure ReadsInv (s : System K V) : Prop where
  consistent : Consistent s
  parity : s.epoch % 2 = if s.work.mutates then 1 else 0
  length : s.gets.length = s.watch.reads.length
  gets : ∀ (i : Nat) (g : Get K V) (r : Read K V), s.gets[i]? = some g →
    s.watch.reads[i]? = some r → GetInv s g r

structure Inv (s : System K V) : Prop where
  linear : s.watch.Linear
  answered : ∀ (i : Nat) (c : Call K V) reply, s.calls[i]? = some c →
    c.stage = .replied reply ∨ c.stage = .returned reply →
    Right i (s.watch.changesOf i) c.command reply
  calls : s.failed = false → CallsInv s
  reads : s.failed = false → ReadsInv s
  halted : s.failed = true → s.work = .idle

end ShamirDb.CachedStore
