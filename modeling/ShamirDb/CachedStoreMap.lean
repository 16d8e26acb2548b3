/-
# The mirror cache as one map: results and failure

What a step can do to the calls and the reads, said once (`step_moves`).  From it
the results that callers get are those the invariant speaks about, and a store that has failed
answers nothing but errors.
-/
import ShamirDb.CachedStoreLinear

namespace ShamirDb.CachedStore

open Machine KeyedWrites Linearized TaskList List Option
open Mirrored (KvOp)

variable {K V : Type*} [DecidableEq K] {s s' t : System K V} {i : Nat}

/-- The `get` has ended. -/
def GetStage.over : GetStage V → Bool
  | .failed | .returned _ => true
  | _ => false

/-- What can happen to the reads: nothing but that they see a change; one moves on; one
returns; one begins. -/
inductive GetsStep (s s' : System K V) : Prop where
  | same (hgets : s'.gets = s.gets) (hreads : s'.watch.reads = s.watch.reads)
  | change (hgets : s'.gets = s.gets) (w : Write K (Option V))
      (hreads : s'.watch.reads = s.watch.reads.map (Read.observe w))
  | move (i : Nat) (g : Get K V) (stage : GetStage V) (hg : s.gets[i]? = some g)
      (hopen : g.stage.over = false) (hstage : ∀ v, stage ≠ .returned v)
      (hgets : s'.gets = s.gets.set i { g with stage })
      (hreads : s'.watch.reads = s.watch.reads)
  | answer (i : Nat) (g : Get K V) (v : Option V) (hg : s.gets[i]? = some g)
      (hopen : g.stage.over = false) (hgets : s'.gets = s.gets.set i { g with stage := .returned v })
      (hreads : s'.watch.reads = s.watch.reads.modify i fun r => { r with answer := some v })
  | begin (g : Get K V) (hstage : g.stage = if s.failed then .failed else .started)
      (hgets : s'.gets = s.gets ++ [g])
      (hreads : s'.watch.reads = s.watch.reads ++ [⟨g.key, [s.watch.map g.key], none⟩])

/-- What can happen to the calls: nothing, one moves on, one begins. -/
inductive CallsStep (s s' : System K V) : Prop where
  | same (hcalls : s'.calls = s.calls)
  | move (i : Nat) (c : Call K V) (stage : CallStage K) (hc : s.calls[i]? = some c)
      (hopen : ∀ reply, c.stage ≠ .returned reply)
      (hcalls : s'.calls = s.calls.set i { c with stage })
  | begin (command : Command K V)
      (hcalls : s'.calls =
        s.calls ++ [⟨command, if s.failed then .returned .failed else .admitting⟩])

/-- What a step does to the reads and the calls; a failure is not taken back. -/
structure Moves (s s' : System K V) : Prop where
  gets : GetsStep s s'
  calls : CallsStep s s'
  failed : s.failed = true → s'.failed = true

/-- A step that is not about them. -/
theorem Moves.of_same (h : (s'.gets, s'.watch.reads, s'.calls, s'.failed) =
    (s.gets, s.watch.reads, s.calls, s.failed)) : Moves s s' := by
  simp only [Prod.mk.injEq] at h
  exact ⟨.same h.1 h.2.1, .same h.2.2.1, h.2.2.2 ▸ id⟩

/-- One `get` moves on. -/
theorem Moves.of_get {g : Get K V} {stage : GetStage V} (hg : s.gets[i]? = some g)
    (hopen : g.stage.over = false) (hstage : ∀ v, stage ≠ .returned v)
    (h : (s'.gets, s'.watch.reads, s'.calls, s'.failed) =
      (s.gets.set i { g with stage }, s.watch.reads, s.calls, s.failed)) : Moves s s' := by
  simp only [Prod.mk.injEq] at h
  exact ⟨.move i g stage hg hopen hstage h.1 h.2.1, .same h.2.2.1, h.2.2.2 ▸ id⟩

/-- A step that answers a call. -/
theorem Moves.reply (i : Nat) (r : Reply K)
    (h : ∀ calls, GetsStep s { t with calls } ∧ t.calls = s.calls ∧
      (s.failed = true → t.failed = true)) : Moves s (t.reply i r) := by
  obtain ⟨hgets, hcalls, hfailed⟩ := h t.calls
  unfold System.reply
  cases hc : t.calls[i]? with
  | none => exact ⟨hgets, .same hcalls, hfailed⟩
  | some c =>
    cases hstage : c.stage with
    | queued =>
      simp only [hstage, if_true]
      exact ⟨(h _).1, .move i c (.replied r) (hcalls ▸ hc) (by simp [hstage])
        (by rw [← hcalls]; rfl), hfailed⟩
    | _ =>
      simp only [hstage, Bool.false_eq_true, if_false]
      exact ⟨hgets, .same hcalls, hfailed⟩

/-- A step that ends a fill. -/
theorem Moves.of_fill {t' : System K V}
    (h : (t.gets, t.watch.reads, t.calls, t.failed) = (s.gets, s.watch.reads, s.calls, s.failed))
    (hfill : t' = t ∨ ∃ g epoch value stage, t.gets[i]? = some g ∧ g.stage = .filling epoch value ∧
      (∀ v, stage ≠ .returned v) ∧ t' = t.setGet i { g with stage }) : Moves s t' := by
  rcases hfill with rfl | ⟨g, epoch, value, stage, hg, hfilling, hstage, rfl⟩
  · exact .of_same h
  · simp only [Prod.mk.injEq] at h
    obtain ⟨hgets, hreads, hcalls, hfailed⟩ := h
    exact ⟨.move i g stage (hgets ▸ hg) (by rw [hfilling]; rfl) hstage (by rw [← hgets]; rfl) hreads,
      .same hcalls, hfailed ▸ id⟩

section

variable {t : System K V} (i : Nat)
  (h : (t.gets, t.watch.reads, t.calls, t.failed) = (s.gets, s.watch.reads, s.calls, s.failed))
include h

/-- A fill is done. -/
theorem moves_fillDone : Moves s (t.fillDone i) := by
  refine .of_fill (i := i) h ?_
  unfold System.fillDone
  repeat' split
  all_goals first | exact .inl rfl | exact .inr ⟨_, _, _, _, ‹_›, ‹_›, by simp, rfl⟩

/-- A fill is refused. -/
theorem moves_fillFails : Moves s (t.fillFails i) := by
  refine .of_fill (i := i) h ?_
  unfold System.fillFails
  repeat' split
  all_goals first | exact .inl rfl | exact .inr ⟨_, _, _, _, ‹_›, ‹_›, by simp, rfl⟩

end

/-- A change to the copy. -/
theorem moves_publishStep (client : Client) (reply : Reply K) (actions : List (KvOp K V))
    (gap : Bool) : Moves s (publishStep s client reply actions gap) := by
  have hchange : ∀ (op : KvOp K V) (t : System K V), t.gets = s.gets → t.calls = s.calls →
      t.failed = s.failed → t.watch = client.change s.watch op → Moves s t := by
    intro op t hgets hcalls hfailed hwatch
    refine ⟨?_, .same hcalls, hfailed ▸ id⟩
    cases client with
    | call i => exact .change hgets op.write (by rw [hwatch]; rfl)
    | reload i | fill i => exact .same hgets (by rw [hwatch]; rfl)
  cases actions with
  | nil =>
    cases client with
    | call i | reload i => exact .reply i _ (by exact fun _ => ⟨.same rfl rfl, rfl, id⟩)
    | fill i => exact moves_fillDone i (by rfl)
  | cons op rest =>
    cases op with
    | set key value =>
      cases gap with
      | false => exact .of_same rfl
      | true => exact hchange (.set key value) _ rfl rfl rfl rfl
    | remove key => exact hchange (.remove key) _ rfl rfl rfl rfl

/-- The owner's next step. -/
theorem moves_proceed (fresh : K) : Moves s (proceed fresh s) := by
  unfold proceed
  cases hwork : s.work with
  | idle | store _ _ | asyncRemove _ _ | writing _ _ | reload _ => exact .of_same rfl
  | insert i value =>
    dsimp only
    split <;> exact .of_same rfl
  | publish client actions gap reply => exact moves_publishStep client reply actions gap
  | asyncSet i key value created =>
    cases created with
    | none => exact .of_same rfl
    | some created => exact ⟨.change rfl ⟨key, some value⟩ rfl, .same rfl, id⟩
  | acking i op flag =>
    cases op with
    | set key value => exact .reply i _ (by exact fun _ => ⟨.same rfl rfl, rfl, id⟩)
    | remove key => exact .reply i _ (by exact fun _ => ⟨.change rfl ⟨key, none⟩ rfl, rfl, id⟩)
  | flush i => exact .reply i _ (by exact fun _ => ⟨.same rfl rfl, rfl, id⟩)

/-- The inner store fails. -/
theorem moves_fails (left : K → Option V) : Moves s (fails left s) := by
  unfold fails
  cases hwork : s.work with
  | insert i _ | store i _ | reload i | flush i =>
    exact .reply i _ (by exact fun _ => ⟨.same rfl rfl, rfl, by simp⟩)
  | writing _ _ => exact ⟨.same rfl rfl, .same rfl, fun _ => rfl⟩
  | _ => exact .of_same rfl

/-- The owner takes the next item. -/
theorem moves_dequeue (mode : WriteMode) : Moves s (dequeue mode s) := by
  unfold dequeue
  split
  · rename_i i rest _ _
    split
    · exact .reply i _ (by exact fun _ => ⟨.same rfl rfl, rfl, id⟩)
    split
    · rename_i c _
      cases c.command with
      | set key value | remove key => cases mode <;> exact .of_same rfl
      | _ => exact .of_same rfl
    · exact .of_same rfl
  · rename_i i rest _ _
    split
    · exact moves_fillFails i (by rfl)
    unfold System.startFill
    split
    · split
      · split
        · exact .of_same rfl
        · exact moves_fillDone i (by rfl)
      · exact moves_fillDone i (by rfl)
    · exact .of_same rfl
  · exact .of_same rfl

/-- A step of a `get`. -/
theorem moves_getStep (s : System K V) (e : Event K V) : Moves s (getStep s e) := by
  -- the `get` moves on, or the event is not for it
  cases e with first
    | exact .of_same rfl
    | (rw [getStep]; (try split); try split) <;> try exact .of_same rfl
  | get key => exact ⟨.begin _ (by simp_all) rfl rfl, .same rfl, id⟩
  | recheck i | finish i =>
    rename_i g hg _ value hstage
    have hopen : g.stage.over = false := by rw [hstage]; rfl
    split
    · exact .of_get hg hopen (by simp) rfl
    · exact ⟨.answer i g _ hg hopen rfl rfl, .same rfl, id⟩
  | giveUp i => exact moves_fillFails i (by rfl)
  | capture i | probe i | readInner i | readFails i | fill i =>
    rename_i hstage
    have hopen := congrArg GetStage.over hstage
    repeat' split
    all_goals exact .of_get ‹_› hopen (by simp) rfl

/-- A step of a caller. -/
theorem moves_callStep (s : System K V) (e : Event K V) : Moves s (callStep s e) := by
  have hmove : ∀ {i c stage} {t : System K V}, s.calls[i]? = some c →
      (∀ reply, c.stage ≠ .returned reply) → t.calls = s.calls.set i { c with stage } →
      (t.gets, t.watch.reads, t.failed) = (s.gets, s.watch.reads, s.failed) → Moves s t := by
    intro i c stage t hc hopen hcalls h
    simp only [Prod.mk.injEq] at h
    exact ⟨.same h.1 h.2.1, .move i c stage hc hopen hcalls, h.2.2 ▸ id⟩
  cases e with first
    | exact .of_same rfl
    | (rw [callStep]; try split) <;> try exact .of_same rfl
  | call command => exact ⟨.same rfl rfl, .begin command (by simp [*]), id⟩
  | enqueue i | receive i =>
    rename_i c hc
    split
    · rename_i hstage
      repeat' split
      all_goals exact hmove hc (by simp [hstage]) rfl rfl
    · exact .of_same rfl
  | abandon i =>
    rename_i c hc
    cases hstage : c.stage with
    | queued =>
      dsimp only
      split
      · exact hmove hc (by simp [hstage]) rfl rfl
      · exact .of_same rfl
    | _ =>
      rw [Bool.and_false]
      exact .of_same rfl

/-- **What a step does to the reads and the calls.** -/
theorem step_moves (mode : WriteMode) (s : System K V) (e : Event K V) :
    Moves s (step mode s e) := by
  cases e with
  | dequeue => exact moves_dequeue mode
  | proceed fresh => exact moves_proceed fresh
  | fails left => exact moves_fails left
  | halt left => exact ⟨.same rfl rfl, .same rfl, fun _ => rfl⟩
  | call _ | enqueue _ | receive _ | abandon _ =>
    simp only [step]
    exact moves_callStep s _
  | _ =>
    simp only [step]
    exact moves_getStep s _

/-! ## Calls that have not been made -/

omit [DecidableEq K] in
/-- An answer changes neither the map nor the failure. -/
theorem reply_same (s : System K V) (i : Nat) (r : Reply K) :
    (s.reply i r).watch = s.watch ∧ (s.reply i r).failed = s.failed := by
  unfold System.reply
  repeat' split
  all_goals exact ⟨rfl, rfl⟩

omit [DecidableEq K] in
/-- Nor does a fill that is done. -/
theorem fillDone_same (s : System K V) (i : Nat) :
    (s.fillDone i).watch = s.watch ∧ (s.fillDone i).failed = s.failed := by
  unfold System.fillDone
  repeat' split
  all_goals exact ⟨rfl, rfl⟩

omit [DecidableEq K] in
/-- Nor one that is refused. -/
theorem fillFails_same (s : System K V) (i : Nat) :
    (s.fillFails i).watch = s.watch ∧ (s.fillFails i).failed = s.failed := by
  unfold System.fillFails
  repeat' split
  all_goals exact ⟨rfl, rfl⟩

omit [DecidableEq K] in
/-- Taking a command changes nothing in the map. -/
theorem dequeue_same (mode : WriteMode) (s : System K V) :
    (dequeue mode s).watch = s.watch := by
  unfold dequeue
  split
  · split
    · exact (reply_same _ _ _).1
    · split
      · rename_i c _
        cases c.command with
        | set _ _ | remove _ => cases mode <;> rfl
        | _ => rfl
      · rfl
  · split
    · exact (fillFails_same _ _).1
    · unfold System.startFill
      repeat' split
      all_goals first
        | rfl
        | exact (fillDone_same _ _).1
  · rfl

/-- The owner's steps make no failure. -/
theorem proceed_failed (fresh : K) (s : System K V) : (proceed fresh s).failed = s.failed := by
  unfold proceed
  cases s.work with
  | publish client actions gap reply =>
    show (publishStep s client reply actions gap).failed = s.failed
    unfold publishStep
    repeat' split
    all_goals first
      | rfl
      | exact (reply_same _ _ _).2
      | exact (fillDone_same _ _).2
  | acking i op flag => cases op <;> exact (reply_same _ _ _).2
  | flush i => exact (reply_same _ _ _).2
  | insert i value =>
    dsimp only
    split <;> rfl
  | asyncSet i key value created => cases created <;> rfl
  | _ => rfl

/-- A `get` changes nothing in the map. -/
theorem getStep_changes (s : System K V) (e : Event K V) :
    (getStep s e).watch.changes = s.watch.changes := by
  unfold getStep
  repeat' split
  all_goals first
    | rfl
    | rw [(fillFails_same s _).1]

omit [DecidableEq K] in
/-- Nor does a caller. -/
theorem callStep_same (s : System K V) (e : Event K V) : (callStep s e).watch = s.watch := by
  unfold callStep
  repeat' split
  all_goals rfl

/-- A step of a store that has failed, or by which it fails, changes nothing in the map. -/
theorem Inv.changes_failed (h : Inv s) (mode : WriteMode) (e : Event K V)
    (hf : (CachedStore.step mode s e).failed = true) :
    (CachedStore.step mode s e).watch.changes = s.watch.changes := by
  cases e with
  | dequeue => exact congrArg Watch.changes (dequeue_same mode s)
  | proceed fresh =>
    have hfailed : s.failed = true := (proceed_failed fresh s).symm.trans hf
    show (CachedStore.proceed fresh s).watch.changes = s.watch.changes
    rw [CachedStore.proceed, h.halted hfailed]
  | fails left =>
    show (CachedStore.fails left s).watch.changes = s.watch.changes
    unfold CachedStore.fails
    split
    all_goals first
      | rfl
      | rw [(reply_same _ _ _).1]
  | halt left => rfl
  | call _ | enqueue _ | receive _ | abandon _ =>
    exact congrArg Watch.changes (callStep_same s _)
  | _ => exact getStep_changes s _

omit [DecidableEq K] in
/-- The calls only get more. -/
theorem CallsStep.length_le (h : CallsStep s s') : s.calls.length ≤ s'.calls.length := by
  cases h with
  | same hcalls => exact Nat.le_of_eq (by rw [hcalls])
  | move i c stage _ _ hcalls => exact Nat.le_of_eq (by rw [hcalls, length_set])
  | begin command hcalls => simp [hcalls]

/-- Nothing has been changed for calls that have not been made. -/
def Unmade (s : System K V) : Prop := ∀ i, s.calls.length ≤ i → s.watch.changesOf i = []

/-- One step keeps it. -/
theorem Unmade.step (h : Unmade s) (hinv : Inv s) (mode : WriteMode) (e : Event K V)
    (hinv' : Inv (step mode s e)) : Unmade (step mode s e) := by
  intro i hi
  cases hf : (CachedStore.step mode s e).failed with
  | false =>
    refine (hinv'.calls hf).untouched i fun c hc => ?_
    rw [getElem?_eq_none hi] at hc
    simp at hc
  | true =>
    rw [Watch.changesOf, hinv.changes_failed mode e hf]
    exact h i (Nat.le_trans (step_moves mode s e).calls.length_le hi)

/-! ## Results -/

/-- The `get`s are the reads of the map, with the same results. -/
structure Matched (s : System K V) : Prop where
  length : s.gets.length = s.watch.reads.length
  read : ∀ (i : Nat) (g : Get K V) (r : Read K V), s.gets[i]? = some g →
    s.watch.reads[i]? = some r → r.key = g.key ∧ ∀ v, g.stage = .returned v → r.answer = some v

/-- One step keeps the reads matched. -/
theorem Matched.next (h : Matched s) (hs : GetsStep s s') : Matched s' := by
  obtain ⟨hlength, hread⟩ := h
  cases hs with
  | same hgets hreads =>
    constructor
    · rw [hgets, hreads, hlength]
    · rw [hgets, hreads]
      exact hread
  | change hgets w hreads =>
    constructor
    · rw [hgets, hreads, length_map, hlength]
    intro i g r hg hr
    rw [hgets] at hg
    rw [hreads, getElem?_map, map_eq_some_iff] at hr
    obtain ⟨r₀, hr₀, rfl⟩ := hr
    rw [Read.key_observe, Read.answer_observe]
    exact hread i g r₀ hg hr₀
  | move i g stage hg hopen hstage hgets hreads =>
    constructor
    · rw [hgets, hreads, length_set, hlength]
    intro j g' r hg' hr
    rw [hgets] at hg'
    rw [hreads] at hr
    rcases set_cases hg hg' with ⟨rfl, rfl⟩ | ⟨-, hold⟩
    · exact ⟨(hread j g r hg hr).1, fun v hv => absurd hv (hstage v)⟩
    · exact hread j g' r hold hr
  | answer i g v hg hopen hgets hreads =>
    constructor
    · rw [hgets, hreads, length_set, length_modify, hlength]
    intro j g' r hg' hr
    rw [hgets] at hg'
    rw [hreads, getElem?_modify] at hr
    rcases set_cases hg hg' with ⟨rfl, rfl⟩ | ⟨hne, hold⟩
    · simp only [if_true] at hr
      obtain ⟨r₀, hr₀, rfl⟩ := map_eq_some_iff.1 hr
      refine ⟨(hread j g r₀ hg hr₀).1, fun u hu => ?_⟩
      rw [GetStage.returned.inj hu]
    · simp only [Ne.symm hne, if_false, Option.map_eq_map, Option.map_id'] at hr
      exact hread j g' r hold hr
  | begin g hstage hgets hreads =>
    constructor
    · rw [hgets, hreads, length_append, length_append, hlength]
      rfl
    intro j g' r hg' hr
    rw [hgets] at hg'
    rw [hreads] at hr
    rcases concat_cases hg' with hold | ⟨hj, rfl⟩
    · rcases concat_cases hr with hr | ⟨hlen, -⟩
      · exact hread j g' r hold hr
      · have hlt := (List.getElem?_eq_some_iff.1 hold).1
        omega
    · rcases concat_cases hr with hr | ⟨-, rfl⟩
      · have hlt := (List.getElem?_eq_some_iff.1 hr).1
        omega
      · refine ⟨rfl, fun v hv => ?_⟩
        rw [hstage] at hv
        split at hv <;> simp at hv

/-- Everything that began when the store had failed already ends in an error. -/
structure Refused (gets calls : Nat) (s : System K V) : Prop where
  failed : s.failed = true
  get : ∀ (i : Nat) (g : Get K V), gets ≤ i → s.gets[i]? = some g → g.stage = .failed
  call : ∀ (i : Nat) (c : Call K V), calls ≤ i → s.calls[i]? = some c →
    c.stage = .returned .failed

/-- Errors stay errors, and new calls get them. -/
theorem Refused.step {gets calls : Nat} (h : Refused gets calls s) (mode : WriteMode)
    (e : Event K V) : Refused gets calls (step mode s e) where
  failed := (step_moves mode s e).failed h.failed
  get := by
    intro i g hi hg
    cases (step_moves mode s e).gets with
    | same hgets _ | change hgets _ _ => exact h.get i g hi (hgets ▸ hg)
    | move j g₀ stage hg₀ hopen _ hgets _ | answer j g₀ v hg₀ hopen hgets _ =>
      rw [hgets] at hg
      rcases set_cases hg₀ hg with ⟨rfl, -⟩ | ⟨-, hold⟩
      · simp [h.get i g₀ hi hg₀, GetStage.over] at hopen
      · exact h.get i g hi hold
    | begin g₀ hstage hgets _ =>
      rw [hgets] at hg
      rcases concat_cases hg with hold | ⟨-, rfl⟩
      · exact h.get i g hi hold
      · rw [hstage, h.failed]
        rfl
  call := by
    intro i c hi hc
    cases (step_moves mode s e).calls with
    | same hcalls => exact h.call i c hi (hcalls ▸ hc)
    | move j c₀ stage hc₀ hopen hcalls =>
      rw [hcalls] at hc
      rcases set_cases hc₀ hc with ⟨rfl, -⟩ | ⟨-, hold⟩
      · exact absurd (h.call i c₀ hi hc₀) (hopen _)
      · exact h.call i c hi hold
    | begin command hcalls =>
      rw [hcalls] at hc
      rcases concat_cases hc with hold | ⟨-, rfl⟩
      · exact h.call i c hi hold
      · rw [h.failed]
        rfl

omit [DecidableEq K] in
/-- At the failure nothing has begun after it. -/
theorem refused_of_failed (h : s.failed = true) : Refused s.gets.length s.calls.length s where
  failed := h
  get i g hi hg := absurd (List.getElem?_eq_some_iff.1 hg).1 (by omega)
  call i c hi hc := absurd (List.getElem?_eq_some_iff.1 hc).1 (by omega)

omit [DecidableEq K] in
/-- A new store has no reads. -/
theorem matched_build (inner : K → Option V) (domain : List K) :
    Matched (System.build inner domain) where
  length := rfl
  read i g r hg := absurd hg (by simp [System.build])

/-- **The mirror cache behaves as one map**, in either mode.  In an orderly run a `get` returns
a value its key held in the map while it was under way; an answered call has changed the map
as its answer says; and nothing has been changed for a call before it was made.  In every run,
once a write to the inner store has failed, whatever begins later ends in an error. -/
theorem cached_store_is_one_map (mode : WriteMode) (inner : K → Option V) (domain : List K)
    (es fs : List (Event K V)) :
    (Along (step mode) Orderly (System.build inner domain) es →
      (∀ (i : Nat) (g : Get K V) v,
        (run (step mode) (System.build inner domain) es).gets[i]? = some g →
        g.stage = .returned v →
        ∃ r, (run (step mode) (System.build inner domain) es).watch.reads[i]? = some r ∧
          r.key = g.key ∧ v ∈ r.seen) ∧
      (∀ (i : Nat) (c : Call K V) reply,
        (run (step mode) (System.build inner domain) es).calls[i]? = some c →
        c.stage = .returned reply →
        Right i ((run (step mode) (System.build inner domain) es).watch.changesOf i)
          c.command reply) ∧
      ∀ i, (run (step mode) (System.build inner domain) es).calls.length ≤ i →
        (run (step mode) (System.build inner domain) es).watch.changesOf i = []) ∧
    ((run (step mode) (System.build inner domain) es).failed = true →
      Refused (run (step mode) (System.build inner domain) es).gets.length
        (run (step mode) (System.build inner domain) es).calls.length
        (run (step mode) (System.build inner domain) (es ++ fs))) := by
  constructor
  · intro h
    have hunmade : Unmade (System.build inner domain) := fun _ _ => rfl
    obtain ⟨hinv, hunmade⟩ :=
      along_invariant (I := fun s => Inv s ∧ Unmade s)
        (fun s e hs he => ⟨hs.1.step mode e he, hs.2.step hs.1 mode e (hs.1.step mode e he)⟩)
        ⟨inv_build inner domain, hunmade⟩ h
    have hmatched : Matched (run (step mode) (System.build inner domain) es) :=
      run_invariant (fun s e hs => hs.next (step_moves mode s e).gets)
        (matched_build inner domain) es
    refine ⟨?_, ?_, hunmade⟩
    · intro i g v hg hstage
      have hlt := (List.getElem?_eq_some_iff.1 hg).1
      rw [hmatched.length] at hlt
      obtain ⟨hkey, hanswer⟩ := hmatched.read i g _ hg (getElem?_eq_getElem hlt)
      refine ⟨_, getElem?_eq_getElem hlt, hkey, ?_⟩
      exact hinv.linear _ (getElem_mem hlt) v (hanswer v hstage)
    · intro i c reply hc hstage
      exact hinv.answered i c reply hc (Or.inr hstage)
  · intro hf
    rw [run_append]
    exact run_invariant (fun s e hs => hs.step mode e) (refused_of_failed hf) fs

/-- The removal of key `1` is submitted, acknowledged and returned. -/
def removeRun : List (Event Nat Nat) :=
  [.call (.remove 1), .enqueue 0, .dequeue, .proceed 0, .proceed 0, .receive 0]

/-- A `get` begins behind it, misses, and reads the inner store only after the removal has
reached it. -/
def lateRead : List (Event Nat Nat) :=
  [.get 1, .capture 0, .probe 0, .proceed 0, .readInner 0, .fill 0, .dequeue, .finish 0]

/-- The next write is acknowledged and fails. -/
def failingSet : List (Event Nat Nat) :=
  [.call (.set 1 30), .enqueue 1, .dequeue, .proceed 0, .proceed 0, .proceed 0, .receive 1,
    .fails fun _ => none, .get 1]

def removedRun : List (Event Nat Nat) := removeRun ++ lateRead ++ failingSet

/-- Behind an acknowledged removal a `get` that reads the inner store in turn returns nothing, and
one that begins after the failed write ends in an error. -/
theorem cached_store_is_one_map_removed :
    (run (step .async) (System.build (fun _ => some 10) [1]) removedRun).gets.map Get.stage =
        [.returned none, .failed] ∧
      ∀ (i : Nat) (g : Get Nat Nat) v,
        (run (step .async) (System.build (fun _ => some 10) [1]) removedRun).gets[i]? = some g →
        g.stage = .returned v →
        ∃ r, (run (step .async) (System.build (fun _ => some 10) [1]) removedRun).watch.reads[i]? =
            some r ∧ r.key = g.key ∧ v ∈ r.seen :=
  ⟨by decide +kernel,
    ((cached_store_is_one_map .async (fun _ => some 10) [1] removedRun []).1 (by decide +kernel)).1⟩

/-- The `get` reads the inner store before the removal gets there. -/
def earlyRead : List (Event Nat Nat) :=
  [.get 1, .capture 0, .probe 0, .readInner 0, .fill 0, .proceed 0, .dequeue, .finish 0]

/-- A `get` of a key that a transaction writes twice, between the two writes to the copy. -/
def twiceRun : List (Event Nat Nat) :=
  [.call (.transact [.set 1 20, .set 1 30]), .enqueue 0, .dequeue, .proceed 0, .proceed 0,
    .proceed 0, .get 1, .capture 0, .probe 0, .recheck 0]

/-- **A `get` returns what was removed before it began**: the removal of key `1` has been
acknowledged, the `get` misses and reads the inner store before the removal gets there, and
returns the old value although its fill is rejected.  And a transaction that writes a key
twice shows the first value to a `get`. -/
theorem cached_store_returns_removed :
    (run (step .async) (System.build (fun _ => some 10) [1]) removeRun).calls.map Call.stage =
        [.returned (.flag true)] ∧
      (run (step .async) (System.build (fun _ => some 10) [1])
        (removeRun ++ earlyRead)).gets.map Get.stage = [.returned (some 10)] ∧
      (run (step .async) (System.build (fun _ => some 10) [1])
        (removeRun ++ earlyRead)).watch.reads.map Read.seen = [[none]] ∧
      (run (step .sync) (System.build (fun _ => none) []) twiceRun).gets.map Get.stage =
        [.returned (some 20)] := by
  decide +kernel

end ShamirDb.CachedStore
