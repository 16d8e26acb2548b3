/-
# The owner of the mirror cache

The steps of the owner keep the invariant.  A step that does not change the map is framed by
`Inv.quiet` (in the middle of a command `Inv.within`, at its end `Inv.finish`), one that does
by `Inv.change`; what is left is what the step does for the call it serves.
-/
import ShamirDb.CachedStoreInvariant

namespace ShamirDb.CachedStore

open Machine KeyedWrites Linearized TaskList List Function
open Mirrored (KvOp)

variable {K V : Type*} [DecidableEq K] {s : System K V} {w work : Work K V}

omit [DecidableEq K] in
/-- The owner works for nobody. -/
theorem Serves.of_call_eq_none (h : s.work.call = none) : Serves s := by
  unfold Serves
  cases hwork : s.work with
  | idle | writing _ _ => trivial
  | publish client actions gap reply =>
    cases client with
    | call i | reload i => simp [hwork, Work.call] at h
    | fill i => trivial
  | _ => simp [hwork, Work.call] at h

section

variable {i : Nat} {c c' : Call K V} {command : Command K V}

omit [DecidableEq K]

/-- Who waits is in the queue. -/
theorem Waiting.stage (h : Waiting s i command) (hc : s.calls[i]? = some c) : c.stage = .queued := by
  rw [← Option.some.inj (h.symm.trans hc)]

/-- Another call moves on. -/
theorem Waiting.set {j : Nat} (h : Waiting s j command) (hc : s.calls[i]? = some c)
    (hold : c.stage ≠ .queued) (c' : Call K V) :
    (s.calls.set i c')[j]? = some ⟨command, .queued⟩ := by
  have hne : j ≠ i := by
    rintro rfl
    exact hold (h.stage hc)
  exact (set_other hne _).trans h

/-- A call that moves on keeps its command. -/
theorem CallsInv.distinct_set [DecidableEq K] (h : CallsInv s) (hc : s.calls[i]? = some c)
    (hcommand : c'.command = c.command) :
    ∀ d ∈ s.calls.set i c', ∀ ops, d.command = .transact ops →
      (ops.map fun op => op.write.key).Nodup := by
  intro d hd ops hops
  rcases mem_or_eq_of_mem_set hd with hd | rfl
  · exact h.distinct d hd ops hops
  · exact h.distinct c (mem_of_getElem? hc) ops (hcommand ▸ hops)

end

/-- Every `get` has its read. -/
theorem ReadsInv.exists_read {i : Nat} {g : Get K V} (h : ReadsInv s) (hg : s.gets[i]? = some g) :
    ∃ r, s.watch.reads[i]? = some r := by
  have hlt := (List.getElem?_eq_some_iff.1 hg).1
  rw [h.length] at hlt
  exact ⟨_, getElem?_eq_getElem hlt⟩

/-! ## Frame rules -/

namespace Inv

variable (h : Inv s) (hf : s.failed = false) (hwork : s.work = w) {i : Nat}
include h hf hwork

/-- The copy is as the new work says. -/
theorem consistent : Consistent { s with work := w } := by
  subst hwork
  exact (h.reads hf).consistent

/-- The new work serves its call. -/
theorem serves : Serves { s with work := w } := by
  subst hwork
  exact (h.calls hf).serves

/-- The epoch is odd while the new work mutates. -/
theorem parity : s.epoch % 2 = if w.mutates then 1 else 0 := by
  subst hwork
  exact (h.reads hf).parity

/-- The call that is served has left the queue. -/
theorem served (hi : w.call = some i) : i ∉ s.queued := by
  subst hwork
  exact (h.calls hf).served i hi

variable {command : Command K V} {domain : List K} {inner cache : K → Option V} {epoch : Nat}

/-- A step of the owner that changes neither the map nor the calls. -/
theorem quiet (hcons : Consistent { s with inner, domain, cache, epoch, work })
    (hserves : Serves { s with inner, domain, cache, epoch, work })
    (hparity : epoch % 2 = if work.mutates then 1 else 0) (hcall : ∀ i ∈ work.call, i ∈ w.call)
    (hepoch : s.epoch ≤ epoch) (hinner : epoch = s.epoch → s.epoch % 2 = 0 → inner = s.inner)
    (hpub : w.publishing = true →
      (work.publishing = true ∧ inner = s.inner) ∨ s.watch.map = s.inner)
    (hwindow : ∀ g r, Window s g r → Window { s with inner, domain, cache, epoch, work } g r) :
    Inv { s with inner, domain, cache, epoch, work } := by
  subst hwork
  have hc := h.calls hf
  have hr := h.reads hf
  refine ⟨h.linear, h.answered, fun _ => ?_, fun _ => ?_, fun hfail => ?_⟩
  · exact { hc with served := fun i hi => hc.served i (hcall i hi), serves := hserves }
  · refine ⟨hcons, hparity, hr.length, fun i g r hg hread => ?_⟩
    exact (hr.gets i g r hg hread).step rfl rfl (fun _ => id) (fun _ => id) hepoch hinner
      hpub fun _ => hwindow g r
  · exact absurd (hf.symm.trans hfail) (by simp)

/-- A step of the owner in the middle of a command. -/
theorem within (hcons : Consistent { s with inner, domain, cache, work })
    (hserves : Serves { s with inner, domain, cache, work }) (hcall : work.call = w.call)
    (hmutates : work.mutates = w.mutates)
    (hinner : inner = s.inner ∨ w.mutates = true ∧ w.publishing = false)
    (hpub : w.publishing = true → work.publishing = true)
    (hwindow : ∀ g r, Window { s with inner, domain, cache, work } g r) :
    Inv { s with inner, domain, cache, work } := by
  have hparity := h.parity hf hwork
  refine h.quiet hf hwork hcons hserves (by rw [hmutates, hparity]) (fun i hi => hcall ▸ hi)
    (Nat.le_refl _) (fun _ heven => ?_) (fun hp => ?_) fun g r _ => hwindow g r
  · rcases hinner with hsame | ⟨hm, -⟩
    · exact hsame
    · rw [hm, heven] at hparity
      simp at hparity
  · rcases hinner with hsame | ⟨-, hno⟩
    · exact .inl ⟨hpub hp, hsame⟩
    · exact absurd (hp.symm.trans hno) (by simp)

/-- The owner is through with a command. -/
theorem idle {inner : K → Option V} (hmap : inner = s.watch.map) (hcache : s.cache = s.watch.map)
    (heven : epoch % 2 = 0) (hepoch : s.epoch ≤ epoch) (hinner : epoch = s.epoch → inner = s.inner)
    (hpub : w.publishing = true → s.watch.map = s.inner) :
    Inv { s with inner, domain, epoch, work := .idle } :=
  h.quiet hf hwork ⟨hmap, hcache⟩ trivial heven (fun _ hi => absurd hi (by simp [Work.call]))
    hepoch (fun heq _ => hinner heq) (fun hp => .inr (hpub hp)) fun _ _ _ => trivial

/-- The owner changes the map for the call it serves. -/
theorem change {x : Write K (Option V)} {cache : K → Option V} (hi : w.call = some i)
    (hwait : Waiting s i command)
    (hcons : Consistent { s with cache, watch := s.watch.change i x, work })
    (hserves : Serves { s with cache, watch := s.watch.change i x, work })
    (hmutates : work.mutates = w.mutates) (hcall : ∀ j ∈ work.call, j ∈ w.call)
    (hpub : w.publishing = true → work.publishing = true)
    (hwindow : ∀ (g : Get K V) (r : Read K V), s.watch.map g.key ∈ r.seen →
      Window { s with cache, watch := s.watch.change i x, work } g (r.observe x)) :
    Inv { s with cache, watch := s.watch.change i x, work } := by
  have hserved := h.served hf hwork hi
  have hparity := h.parity hf hwork
  subst hwork
  have hc := h.calls hf
  have hr := h.reads hf
  refine ⟨h.linear.change i x, ?_, fun _ => ?_, fun _ => ?_, fun hfail => ?_⟩
  · intro j c reply hcj hstage
    have hne : j ≠ i := by
      rintro rfl
      simp [hwait.stage hcj] at hstage
    rw [Watch.changesOf_change_of_ne hne]
    exact h.answered j c reply hcj hstage
  · refine { hc with
      served := fun j hj => hc.served j (hcall j hj), serves := hserves, untouched := ?_ }
    intro j hj
    have hne : j ≠ i := by
      rintro rfl
      rcases hj _ hwait with hstage | hmem
      · simp at hstage
      · exact hserved hmem
    rw [Watch.changesOf_change_of_ne hne]
    exact hc.untouched j hj
  · refine ⟨hcons, by rw [hmutates, ← hparity], hr.length.trans (length_map _).symm, ?_⟩
    intro j g r hg hread
    obtain ⟨r₀, hr₀, rfl⟩ := Option.map_eq_some_iff.1 (getElem?_map ▸ hread)
    exact (hr.gets j g r₀ hg hr₀).step (Read.key_observe _ _) (Read.answer_observe _ _)
      (fun v hv => Read.mem_seen_observe hv) (fun ha hm => Watch.current_change hm ha)
      (Nat.le_refl _) (fun _ _ => rfl) (fun hp => .inl ⟨hpub hp, rfl⟩)
      fun hm _ => hwindow g r₀ hm
  · exact absurd (hf.symm.trans hfail) (by simp)

omit hwork in
/-- The served call is answered, rightly; nothing else is served. -/
theorem reply {i : Nat} {reply : Reply K} (hwait : Waiting s i command) (hi : i ∉ s.queued)
    (hdone : s.work.call = none) (hright : Right i (s.watch.changesOf i) command reply) :
    Inv (s.reply i reply) := by
  have hc := h.calls hf
  have hr := h.reads hf
  have hset : s.reply i reply = s.setCall i ⟨command, .replied reply⟩ := by
    rw [System.reply, hwait]
    rfl
  rw [hset]
  refine ⟨h.linear, ?_, fun _ => ⟨hc.nodup, ?_, ?_, ?_, ?_, hc.distinct_set hwait rfl⟩,
    fun _ => { hr with }, h.halted⟩
  · intro j c reply' hcj hstage
    rcases set_cases hwait hcj with ⟨rfl, rfl⟩ | ⟨-, hold⟩
    · obtain rfl : reply = reply' := by simpa using hstage
      exact hright
    · exact h.answered j c reply' hold hstage
  · intro j hj
    obtain ⟨c, hcj⟩ := hc.waiting j hj
    have hne : j ≠ i := by
      rintro rfl
      exact hi hj
    exact ⟨c, (set_other hne _).trans hcj⟩
  · simp [show (s.setCall i ⟨command, .replied reply⟩).work = s.work from rfl, hdone]
  · exact Serves.of_call_eq_none hdone
  · intro j hj
    by_cases hne : j = i
    · subst hne
      rcases hj _ (set_self hwait _) with hstage | hmem
      · simp at hstage
      · exact absurd hmem hi
    · refine hc.untouched j fun c hcj => hj c ?_
      exact (set_other hne _).trans hcj

/-- The owner is through with a command and answers it. -/
theorem finish {reply : Reply K} (hmap : s.inner = s.watch.map) (hcache : s.cache = s.watch.map)
    (heven : epoch % 2 = 0) (hepoch : s.epoch ≤ epoch) (hi : w.call = some i)
    (hwait : Waiting s i command) (hright : Right i (s.watch.changesOf i) command reply) :
    Inv ({ s with epoch, work := .idle }.reply i reply) := by
  have hidle : Inv { s with epoch, work := .idle } :=
    h.idle hf hwork hmap hcache heven hepoch (fun _ => rfl) fun _ => hmap.symm
  exact hidle.reply hf hwait (h.served hf hwork hi) rfl hright

end Inv

variable {i : Nat} {rest : List (KvOp K V)} {client : Client} {key : K} {value : V} {op : KvOp K V}
  {gap : Bool}

/-- A `get` moves on by itself. -/
theorem Inv.setGet (h : Inv s) {g g' : Get K V} (hg : s.gets[i]? = some g)
    (hnew : s.failed = false → ∀ r, GetInv s g r → GetInv s g' r) : Inv (s.setGet i g') where
  linear := h.linear
  answered := h.answered
  calls hf := by
    have hc := h.calls hf
    exact { hc with }
  reads hf := by
    have hr := h.reads hf
    refine ⟨hr.consistent, hr.parity, (length_set ..).trans hr.length, ?_⟩
    intro j d r hd hread
    rcases set_cases hg hd with ⟨rfl, rfl⟩ | ⟨-, hold⟩
    · exact hnew hf r (hr.gets j g r hg hread)
    · exact hr.gets j d r hold hread
  halted := h.halted

/-- The fill of a `get` is answered when no command is under way. -/
theorem Inv.fillDone (h : Inv s) (hidle : s.work = .idle) (i : Nat) : Inv (s.fillDone i) := by
  unfold System.fillDone
  split
  · rename_i g hg
    split
    · rename_i epoch value hstage
      refine h.setGet hg fun _ r hinv => ?_
      obtain ⟨hkey, hinv⟩ := hinv
      simp only [hstage] at hinv
      obtain ⟨ha, -, -, -, hv⟩ := hinv
      refine ⟨hkey, ha, hv.resolve_right fun hp => ?_⟩
      rw [hidle] at hp
      exact absurd hp.1 (by simp [Work.publishing])
    · exact h
  · exact h

/-- A fill is refused. -/
theorem Inv.fillFails (h : Inv s) (i : Nat) : Inv (s.fillFails i) := by
  unfold System.fillFails
  split
  · rename_i g hg
    split
    · exact h.setGet hg fun _ r hinv => ⟨hinv.1, trivial⟩
    · exact h
  · exact h

/-- The order of the fills in the queue does not matter to the calls. -/
theorem Inv.requeue (h : Inv s) {queue : List Item}
    (hqueued : ({ s with queue } : System K V).queued = s.queued) : Inv { s with queue } where
  linear := h.linear
  answered := h.answered
  calls hf := by
    have hc := h.calls hf
    refine ⟨hqueued ▸ hc.nodup, ?_, ?_, hc.serves, ?_, hc.distinct⟩
    · rw [hqueued]
      exact hc.waiting
    · rw [hqueued]
      exact hc.served
    · rw [hqueued]
      exact hc.untouched
  reads hf := by
    have hr := h.reads hf
    exact { hr with }
  halted := h.halted

/-! ## The inner store is written first -/

/-- One write. -/
theorem apply_single (w : Write K (Option V)) (m : K → Option V) :
    apply [w] m = update m w.key w.value := rfl

/-- Without a gap the copy is the map. -/
theorem gapped_false (m : K → Option V) (actions : List (KvOp K V)) :
    gapped m actions false = m := by
  cases actions with
  | nil => rfl
  | cons op rest => cases op <;> rfl

/-- The entry goes out and the new one in. -/
theorem link_update_none (m : K → Option V) (key : K) (value : V) :
    link (update m key none) key value = update m key (some value) := by
  rw [link, update_self, if_pos Option.isNone_none, update_idem]

/-- The changes a call has planned, once the first of them is made. -/
theorem planned_change {w : Watch K V} (hnodup : ((op :: rest).map fun op => op.write.key).Nodup) :
    (w.change i op.write).changesOf i ++ planned (w.change i op.write).map i rest =
      w.changesOf i ++ planned w.map i (op :: rest) := by
  have hsame : planned (w.change i op.write).map i rest = planned w.map i rest := by
    apply map_congr_left
    intro x hx
    have hne : x.write.key ≠ op.write.key := by
      intro heq
      rw [map_cons, nodup_cons] at hnodup
      exact hnodup.1 (mem_map.2 ⟨x, hx, heq⟩)
    rw [Watch.map_change_of_ne hne]
  rw [hsame, Watch.changesOf_change_self, append_assoc]
  rfl

/-- While a write is on its way to the inner store, a `get` under way has seen the old value. -/
theorem mem_seen_of_change {inner map : K → Option V} {key k : K} {r : Read K V}
    {x : Write K (Option V)} (hinner : inner = map) (hm : map k ∈ r.seen) (hkey : key = k) :
    inner key ∈ (r.observe x).seen := by
  rw [hinner, hkey]
  exact Read.mem_seen_observe hm

section

variable (h : Inv s) (hf : s.failed = false) {command : Command K V} {reply : Reply K}
  {cache : K → Option V} {flag : Bool}
include h hf

/-- The inner store has the inserted value. -/
theorem Inv.insert {fresh : K} (hwork : s.work = .insert i value)
    (hfresh : (s.inner fresh).isNone = true) :
    Inv { s with
      inner := update s.inner fresh (some value)
      domain := s.domain.insert fresh
      work := .publish (.call i) [.set fresh value] true (.created fresh) } := by
  obtain ⟨hinner, hcache⟩ : s.inner = s.watch.map ∧ s.cache = s.watch.map := h.consistent hf hwork
  obtain ⟨hwait, hnone⟩ : Waiting s i (.insert value) ∧ s.watch.changesOf i = [] :=
    h.serves hf hwork
  have habsent : s.watch.map fresh = none := by
    rw [← hinner]
    exact Option.isNone_iff_eq_none.1 hfresh
  refine h.within hf hwork ⟨?_, ?_⟩ ⟨pairwise_singleton _ _, .insert value, hwait, ?_⟩ rfl
    rfl (.inr ⟨rfl, rfl⟩) (fun _ => rfl) fun _ _ => trivial
  · show update s.inner fresh (some value) = _
    rw [hinner]
    rfl
  · rw [hcache]
    exact (update_eq_self_iff.2 habsent.symm).symm
  · show _ = _
    rw [hnone]
    simp [planned, KvOp.write, habsent]

/-- The inner store has a command. -/
theorem Inv.store (hwork : s.work = .store i command) :
    Inv { s with
      inner := apply (command.ops.map KvOp.write) s.inner
      domain := s.domain ∪ command.ops.map fun op => op.write.key
      work := .publish (.call i) command.ops false (command.reply s.inner) } := by
  obtain ⟨hinner, hcache⟩ : s.inner = s.watch.map ∧ s.cache = s.watch.map := h.consistent hf hwork
  obtain ⟨hwait, hnone, hright⟩ : Waiting s i command ∧ s.watch.changesOf i = [] ∧
      Right i (planned s.watch.map i command.ops) command (command.reply s.watch.map) :=
    h.serves hf hwork
  refine h.within hf hwork ⟨?_, ?_⟩ ⟨?_, command, hwait, ?_⟩ rfl rfl (.inr ⟨rfl, rfl⟩)
    (fun _ => rfl) fun _ _ => trivial
  · rw [hinner]
  · rw [hcache, gapped_false]
  · cases command with
    | transact ops => exact (h.calls hf).distinct _ (mem_of_getElem? hwait) ops rfl
    | set key value | remove key => exact pairwise_singleton _ _
    | insert value | reload | flush => exact nodup_nil
  · rw [hinner, hnone]
    exact hright

/-! ## The copy is changed -/

/-- The old entry is taken out. -/
theorem Inv.unlink (hwork : s.work = .publish client (.set key value :: rest) false reply) :
    Inv { s with
      cache := update s.cache key none
      work := .publish client (.set key value :: rest) true reply } := by
  have hcons := h.consistent hf hwork
  have hserves := h.serves hf hwork
  refine h.within hf hwork ?_ ?_ ?_ ?_ (.inl rfl) ?_ fun _ _ => trivial
  · cases client with
    | call i => exact ⟨hcons.1, congrArg (update · key none) hcons.2⟩
    | reload i | fill i =>
      exact ⟨hcons.1, congrArg (update · key none) hcons.2.1, hcons.2.2⟩
  · cases client <;> exact hserves
  · cases client <;> rfl
  · cases client <;> rfl
  · cases client <;> exact fun hp => hp

/-- One action of a command is visible in the copy and, at that moment, in the map. -/
theorem Inv.publishCall (hwork : s.work = .publish (.call i) (op :: rest) gap reply)
    (hcache : s.cache = gapped s.watch.map (op :: rest) gap →
      cache = update s.watch.map op.write.key op.write.value) :
    Inv { s with
      cache := cache
      watch := s.watch.change i op.write
      work := .publish (.call i) rest false reply } := by
  obtain ⟨hinner, hgap⟩ := h.consistent hf hwork
  obtain ⟨hnodup, command, hwait, hright⟩ := h.serves hf hwork
  refine h.change hf hwork rfl hwait ⟨hinner, ?_⟩ ⟨?_, command, hwait, ?_⟩ rfl (fun _ => id)
    (fun _ => rfl) fun _ _ _ => trivial
  · rw [hcache hgap, gapped_false]
    rfl
  · rw [map_cons, nodup_cons] at hnodup
    exact hnodup.2
  · rw [planned_change hnodup]
    exact hright

/-- An action of a fill or a reload puts in what the map holds. -/
theorem Inv.publishSame (hclient : ∀ i, client ≠ .call i)
    (hwork : s.work = .publish client (op :: rest) gap reply)
    (hcache : s.cache = gapped s.watch.map (op :: rest) gap →
      cache = update s.watch.map op.write.key op.write.value) :
    Inv { s with
      cache := cache
      work := .publish client rest false reply } := by
  have hcons := h.consistent hf hwork
  have hserves := h.serves hf hwork
  cases client with
  | call i => exact absurd rfl (hclient i)
  | reload i | fill i =>
    obtain ⟨hinner, hgap, hsame⟩ := hcons
    refine h.within hf hwork ⟨hinner, ?_, ?_⟩ hserves rfl rfl (.inl rfl) id fun _ _ => trivial
    · rw [hcache hgap, gapped_false]
      exact update_eq_self_iff.2 (hsame op mem_cons_self).symm
    · exact fun op' hop' => hsame op' (mem_cons_of_mem _ hop')

/-! ## The copy is changed first -/

/-- The old entry is out. -/
theorem Inv.asyncUnlink (hwork : s.work = .asyncSet i key value none) :
    Inv { s with
      cache := update s.cache key none
      work := .asyncSet i key value (some (s.cache key).isNone) } := by
  obtain ⟨hinner, hcache⟩ : s.inner = s.watch.map ∧ s.cache = s.watch.map := h.consistent hf hwork
  obtain ⟨hwait, hnone, -⟩ := h.serves hf hwork
  refine h.within hf hwork ⟨hinner, ?_⟩ ⟨hwait, hnone, ?_⟩ rfl rfl (.inl rfl) id fun _ _ => trivial
  · rw [hcache]
    rfl
  · intro b hb
    rw [← Option.some.inj hb, hcache]

/-- The new entry is in. -/
theorem Inv.asyncLink {created : Bool} (hwork : s.work = .asyncSet i key value (some created)) :
    Inv { s with
      cache := link s.cache key value
      watch := s.watch.change i ⟨key, some value⟩
      work := .acking i (.set key value) created } := by
  obtain ⟨hinner, hcache⟩ : s.inner = s.watch.map ∧
      s.cache = update s.watch.map key none := h.consistent hf hwork
  obtain ⟨hwait, hnone, hcreated⟩ := h.serves hf hwork
  refine h.change hf hwork rfl hwait ⟨?_, ?_⟩ ⟨hwait, ?_⟩ rfl (fun _ => id) id
    fun g r hm hkey => .inl (mem_seen_of_change hinner hm hkey)
  · show update s.watch.map key (some value) = update s.inner key (some value)
    rw [hinner]
  · rw [hcache, link_update_none]
    rfl
  · rw [Watch.changesOf_change_self, hnone, hcreated created rfl]
    simp

/-- A removed entry is out. -/
theorem Inv.asyncEvict (hwork : s.work = .asyncRemove i key) :
    Inv { s with
      cache := update s.cache key none
      work := .acking i (.remove key) (s.cache key).isSome } := by
  obtain ⟨hinner, hcache⟩ : s.inner = s.watch.map ∧ s.cache = s.watch.map := h.consistent hf hwork
  obtain ⟨hwait, hnone⟩ := h.serves hf hwork
  refine h.within hf hwork ⟨hinner, ?_⟩ ⟨hwait, hnone, ?_⟩ rfl rfl (.inl rfl) id fun _ _ => trivial
  · rw [hcache]
  · rw [hcache]

/-- A set is acknowledged. -/
theorem Inv.ackSet (hwork : s.work = .acking i (.set key value) flag) :
    Inv ({ s with work := .writing i (.set key value) }.reply i (.flag flag)) := by
  have hcons := h.consistent hf hwork
  have hparity := h.parity hf hwork
  obtain ⟨hwait, hchanges⟩ := h.serves hf hwork
  have hwriting : Inv { s with work := .writing i (.set key value) } := by
    refine h.quiet hf hwork hcons trivial hparity
      (fun _ hi => absurd hi (by simp [Work.call])) (Nat.le_refl _) (fun _ _ => rfl)
      (fun hp => absurd hp (by simp [Work.publishing])) fun g r hw => ?_
    rw [Window, hwork] at hw
    exact hw
  exact hwriting.reply hf hwait (h.served hf hwork rfl) rfl hchanges

/-- A removal is acknowledged, and visible from here on. -/
theorem Inv.ackRemove (hwork : s.work = .acking i (.remove key) flag) :
    Inv ({ s with
      watch := s.watch.change i ⟨key, none⟩
      work := .writing i (.remove key) }.reply i (.flag flag)) := by
  obtain ⟨hinner, hcache⟩ := h.consistent hf hwork
  obtain ⟨hwait, hnone, hflag⟩ := h.serves hf hwork
  have hwriting : Inv { s with
      watch := s.watch.change i ⟨key, none⟩
      work := .writing i (.remove key) } := by
    refine h.change hf hwork rfl hwait ⟨?_, hcache⟩ trivial rfl
      (fun _ hj => absurd hj (by simp [Work.call])) id
      fun g r hm hkey => .inl (mem_seen_of_change hinner hm hkey)
    show update s.watch.map key none = update s.inner key none
    rw [hinner]
  refine hwriting.reply hf hwait (h.served hf hwork rfl) rfl ?_
  show Watch.changesOf _ _ = _
  rw [Watch.changesOf_change_self, hnone, hflag]
  rfl

/-- The inner store has the acknowledged write. -/
theorem Inv.written (hwork : s.work = .writing i op) :
    Inv { s with
      inner := apply [op.write] s.inner
      domain := s.domain.insert op.write.key
      epoch := s.epoch + 1
      work := .idle } := by
  obtain ⟨hmap, hcache⟩ := h.consistent hf hwork
  have hodd : s.epoch % 2 = 1 := h.parity hf hwork
  exact h.idle hf hwork hmap.symm hcache (by omega) (Nat.le_succ _) (fun heq => by omega)
    fun hp => absurd hp (by simp [Work.publishing])

/-! ## Reload -/

/-- A reload has scanned the inner store. -/
theorem Inv.scanned (hwork : s.work = .reload i) :
    Inv { s with work := .publish (.reload i) s.reloadActions false .done } := by
  obtain ⟨hinner, hcache⟩ : s.inner = s.watch.map ∧ s.cache = s.watch.map := h.consistent hf hwork
  obtain ⟨hwait, hnone⟩ := h.serves hf hwork
  refine h.within hf hwork ⟨hinner, ?_, ?_⟩ ⟨hwait, hnone, rfl⟩ rfl rfl (.inl rfl)
    id fun _ _ => trivial
  · rw [hcache, gapped_false]
  intro op hop
  show s.watch.map op.write.key = op.write.value
  rw [← hinner]
  rcases mem_append.1 hop with hgone | hfound
  · obtain ⟨key, hkey, rfl⟩ := mem_map.1 hgone
    have habsent := (Bool.and_eq_true_iff.1 (mem_filter.1 hkey).2).2
    exact Option.isNone_iff_eq_none.1 habsent
  · obtain ⟨key, -, hkey⟩ := mem_filterMap.1 hfound
    obtain ⟨value, hvalue, rfl⟩ := Option.map_eq_some_iff.1 hkey
    exact hvalue

/-! ## The next command -/

/-- The owner takes a call off the queue, with nothing changed yet. -/
theorem Inv.begin (hidle : s.work = .idle) {rest : List Item} (hqueue : s.queue = .call i :: rest)
    {epoch : Nat} (hcall : work.call = some i)
    (hepoch : epoch = s.epoch + if work.mutates then 1 else 0)
    (hcons : Consistent { s with work := .idle } → Consistent { s with queue := rest, epoch, work })
    (hserves : s.watch.changesOf i = [] → Serves { s with queue := rest, epoch, work })
    (hwindow : ∀ g r, Window { s with queue := rest, epoch, work } g r) :
    Inv { s with queue := rest, epoch, work } := by
  have hc := h.calls hf
  have hr := h.reads hf
  have heven : s.epoch % 2 = 0 := h.parity hf hidle
  have hqueued : s.queued = i :: ({ s with queue := rest, epoch, work } : System K V).queued := by
    rw [System.queued, hqueue]
    rfl
  have hnodup := hc.nodup
  rw [hqueued, nodup_cons] at hnodup
  refine ⟨h.linear, h.answered, fun _ => ⟨hnodup.2, ?_, ?_, hserves ?_, ?_, hc.distinct⟩,
    fun _ => ⟨hcons (h.consistent hf hidle), ?_, hr.length, ?_⟩,
    fun hfail => absurd (hf.symm.trans hfail) (by simp)⟩
  · exact fun j hj => hc.waiting j (hqueued ▸ mem_cons_of_mem _ hj)
  · intro j hj
    rw [← Option.some.inj (hcall.symm.trans hj)]
    exact hnodup.1
  · exact hc.untouched i fun _ _ => .inr (hqueued ▸ mem_cons_self)
  · intro j hj
    refine hc.untouched j fun c hcj => ?_
    rw [hqueued]
    exact (hj c hcj).imp_right (mem_cons_of_mem _)
  · show epoch % 2 = if work.mutates then 1 else 0
    rw [hepoch, Nat.add_mod, heven]
    split <;> rfl
  · intro j g r hg hread
    refine (hr.gets j g r hg hread).step rfl rfl (fun _ => id) (fun _ => id)
      (by show s.epoch ≤ epoch; omega) (fun _ _ => rfl) (fun hp => ?_) fun _ _ => hwindow g r
    rw [hidle] at hp
    simp [Work.publishing] at hp

/-- The owner begins a command. -/
theorem Inv.start (mode : WriteMode) {rest : List Item} (hidle : s.work = .idle)
    (hqueue : s.queue = .call i :: rest) (hwait : Waiting s i command) :
    Inv ({ s with queue := rest }.start mode i command) := by
  cases command with
  | insert value | reload | flush =>
    exact h.begin hf hidle hqueue rfl rfl id (fun hnone => ⟨hwait, hnone⟩) fun _ _ => trivial
  | set key value =>
    cases mode with
    | sync =>
      refine h.begin hf hidle hqueue rfl rfl id (fun hnone => ⟨hwait, hnone, ?_⟩) fun _ _ => trivial
      simp [Right, planned, Command.ops, KvOp.write, Command.reply]
    | async =>
      exact h.begin hf hidle hqueue rfl rfl id
        (fun hnone => ⟨hwait, hnone, fun b hb => absurd hb (by simp)⟩) fun _ _ => trivial
  | remove key =>
    cases mode with
    | sync =>
      refine h.begin hf hidle hqueue rfl rfl id (fun hnone => ⟨hwait, hnone, ?_⟩) fun _ _ => trivial
      simp [Right, planned, Command.ops, KvOp.write, Command.reply]
    | async =>
      exact h.begin hf hidle hqueue rfl rfl id (fun hnone => ⟨hwait, hnone⟩) fun _ _ => trivial
  | transact ops =>
    refine h.begin hf hidle hqueue rfl rfl id (fun hnone => ⟨hwait, hnone, ?_, ?_⟩)
      fun _ _ => trivial
    · rw [planned, map_map]
      rfl
    · exact (h.calls hf).distinct _ (mem_of_getElem? hwait) ops rfl

/-- A fill that is accepted puts in what the inner store holds. -/
theorem Inv.startFill (hidle : s.work = .idle) (i : Nat) : Inv (s.startFill i) := by
  have hr := h.reads hf
  obtain ⟨hinner, hcache⟩ : s.inner = s.watch.map ∧ s.cache = s.watch.map := h.consistent hf hidle
  have hdone := h.fillDone hidle i
  unfold System.startFill
  cases hg : s.gets[i]? with
  | none => exact h
  | some g =>
    dsimp only
    split
    · rename_i epoch value hstage
      by_cases haccept : s.epoch = epoch ∧ s.epoch % 2 = 0
      · rw [if_pos haccept]
        obtain ⟨r, hread⟩ := hr.exists_read hg
        obtain ⟨-, hinv⟩ := hr.gets i g r hg hread
        simp only [hstage] at hinv
        refine h.within hf hidle ⟨hinner, hcache, ?_⟩ trivial rfl rfl (.inl rfl) id
          fun _ _ => trivial
        intro op hop
        obtain rfl : op = .set g.key value := by simpa using hop
        show s.watch.map g.key = some value
        rw [← hinner]
        exact hinv.2.2.2.1 haccept.1 haccept.2
      · rw [if_neg haccept]
        exact hdone
    · exact hdone

end

/-! ## Failure -/

/-- Once the store has failed, only answers matter, and they are errors. -/
theorem Inv.failing {s' : System K V} (h : Inv s) (hf : s'.failed = true) (hidle : s'.work = .idle)
    (hwatch : s'.watch = s.watch) (hcalls : s'.calls = s.calls) : Inv s' where
  linear := by rw [hwatch]; exact h.linear
  answered := by
    rw [hcalls, hwatch]
    exact h.answered
  calls hfalse := absurd (hf.symm.trans hfalse) (by simp)
  reads hfalse := absurd (hf.symm.trans hfalse) (by simp)
  halted _ := hidle

/-- A call of a failed store gets an error. -/
theorem Inv.setFailed (h : Inv s) (hf : s.failed = true) {c : Call K V} (hc : s.calls[i]? = some c)
    {stage : CallStage K} (hstage : stage = .replied .failed ∨ stage = .returned .failed) :
    Inv (s.setCall i { c with stage }) where
  linear := h.linear
  answered := by
    intro j c' reply hcj hanswer
    rcases set_cases hc hcj with ⟨rfl, rfl⟩ | ⟨-, hold⟩
    · obtain rfl : reply = .failed := by
        rcases hstage with rfl | rfl <;> simpa [eq_comm] using hanswer
      simp [Right]
    · exact h.answered j c' reply hold hanswer
  calls hfalse := absurd (hf.symm.trans hfalse) (by simp)
  reads hfalse := absurd (hf.symm.trans hfalse) (by simp)
  halted := h.halted

/-- The owner answers with an error. -/
theorem Inv.replyFailed (h : Inv s) (hf : s.failed = true) (i : Nat) : Inv (s.reply i .failed) := by
  unfold System.reply
  split
  · rename_i c hc
    split
    · exact h.setFailed hf hc (.inl rfl)
    · exact h
  · exact h

/-! ## All steps of the owner -/

variable {reply : Reply K}

/-- Nothing is left to publish: the call is answered, or the fill of the `get`. -/
theorem Inv.complete (h : Inv s) (hf : s.failed = false)
    (hwork : s.work = .publish client [] gap reply) : Inv (publishStep s client reply [] gap) := by
  have hparity := h.parity hf hwork
  cases client with
  | call i =>
    obtain ⟨hinner, hcache⟩ := h.consistent hf hwork
    obtain ⟨-, command, hwait, hright⟩ := h.serves hf hwork
    have hodd : s.epoch % 2 = 1 := hparity
    rw [show planned s.watch.map i [] = [] from rfl, append_nil] at hright
    exact h.finish hf hwork hinner hcache (by omega) (Nat.le_succ _) rfl hwait hright
  | reload i =>
    obtain ⟨hinner, hcache, -⟩ := h.consistent hf hwork
    obtain ⟨hwait, hnone, rfl⟩ := h.serves hf hwork
    have hodd : s.epoch % 2 = 1 := hparity
    exact h.finish hf hwork hinner hcache (by omega) (Nat.le_succ _) rfl hwait hnone
  | fill i =>
    obtain ⟨hinner, hcache, -⟩ := h.consistent hf hwork
    have hidle : Inv { s with work := .idle } :=
      h.idle hf hwork hinner hcache hparity (Nat.le_refl _) (fun _ => rfl) fun _ => hinner.symm
    exact hidle.fillDone rfl i

/-- One step of a change to the copy. -/
theorem Inv.publishStep (h : Inv s) (hf : s.failed = false) {actions : List (KvOp K V)}
    (hwork : s.work = .publish client actions gap reply) :
    Inv (publishStep s client reply actions gap) := by
  cases actions with
  | nil => exact h.complete hf hwork
  | cons op rest =>
    cases op with
    | set key value =>
      cases gap with
      | false => exact h.unlink hf hwork
      | true =>
        have hcache : s.cache = gapped s.watch.map (.set key value :: rest) true →
            link s.cache key value = update s.watch.map key (some value) := by
          intro heq
          rw [heq]
          exact link_update_none ..
        cases client with
        | call i => exact h.publishCall hf hwork hcache
        | reload i | fill i => exact h.publishSame hf (by simp) hwork hcache
    | remove key =>
      have hcache : s.cache = gapped s.watch.map (.remove key :: rest) gap →
          update s.cache key none = update s.watch.map key none := by
        intro heq
        rw [heq]
        rfl
      cases client with
      | call i => exact h.publishCall hf hwork hcache
      | reload i | fill i => exact h.publishSame hf (by simp) hwork hcache

/-- Every step of the owner. -/
theorem Inv.proceed (h : Inv s) (fresh : K) : Inv (proceed fresh s) := by
  by_cases hfail : s.failed = true
  · rw [CachedStore.proceed, h.halted hfail]
    exact h
  have hf : s.failed = false := by simpa using hfail
  unfold CachedStore.proceed
  cases hwork : s.work with
  | idle => exact h
  | insert i value =>
    by_cases hfresh : (s.inner fresh).isNone = true
    · simp only [hfresh]
      exact h.insert hf hwork hfresh
    · dsimp only
      rw [if_neg hfresh]
      exact h
  | store i command => exact h.store hf hwork
  | publish client actions gap reply => exact h.publishStep hf hwork
  | asyncSet i key value created =>
    cases created with
    | none => exact h.asyncUnlink hf hwork
    | some created => exact h.asyncLink hf hwork
  | asyncRemove i key => exact h.asyncEvict hf hwork
  | acking i op flag =>
    cases op with
    | set key value => exact h.ackSet hf hwork
    | remove key => exact h.ackRemove hf hwork
  | writing i op => exact h.written hf hwork
  | reload i => exact h.scanned hf hwork
  | flush i =>
    obtain ⟨hinner, hcache⟩ := h.consistent hf hwork
    obtain ⟨hwait, hnone⟩ := h.serves hf hwork
    exact h.finish hf hwork hinner hcache (h.parity hf hwork) (Nat.le_refl _) rfl hwait hnone

/-- An access to the inner store fails. -/
theorem Inv.fails (h : Inv s) (left : K → Option V) : Inv (fails left s) := by
  by_cases hfail : s.failed = true
  · rw [CachedStore.fails, h.halted hfail]
    exact h
  have hf : s.failed = false := by simpa using hfail
  have hdown : Inv { s with
      inner := left
      failed := true
      work := .idle } := h.failing rfl rfl rfl rfl
  unfold CachedStore.fails
  cases hwork : s.work with
  | insert i _ | store i _ => exact hdown.replyFailed rfl i
  | writing i op => exact hdown
  | reload i =>
    obtain ⟨hinner, hcache⟩ := h.consistent hf hwork
    obtain ⟨hwait, -⟩ := h.serves hf hwork
    have hodd : s.epoch % 2 = 1 := h.parity hf hwork
    exact h.finish hf hwork hinner hcache (by omega) (Nat.le_succ _) rfl hwait (by simp [Right])
  | flush i =>
    obtain ⟨hinner, hcache⟩ := h.consistent hf hwork
    obtain ⟨hwait, -⟩ := h.serves hf hwork
    exact h.finish hf hwork hinner hcache (h.parity hf hwork) (Nat.le_refl _) rfl hwait
      (by simp [Right])
  | _ => exact h

/-- The owner takes the next item. -/
theorem Inv.dequeue (h : Inv s) (mode : WriteMode) : Inv (dequeue mode s) := by
  unfold CachedStore.dequeue
  split
  · rename_i i rest hidle hqueue
    by_cases hfail : s.failed = true
    · rw [if_pos hfail]
      have hrest : Inv { s with queue := rest } := h.failing hfail hidle rfl rfl
      exact hrest.replyFailed hfail i
    rw [if_neg hfail]
    have hf : s.failed = false := by simpa using hfail
    obtain ⟨command, hwait⟩ : ∃ command, Waiting s i command := by
      apply (h.calls hf).waiting i
      rw [System.queued, hqueue]
      exact mem_cons_self
    rw [show s.calls[i]? = some ⟨command, .queued⟩ from hwait]
    exact h.start hf mode hidle hqueue hwait
  · rename_i i rest hidle hqueue
    have hrest : Inv { s with queue := rest } := by
      apply h.requeue
      rw [System.queued, System.queued, hqueue]
      rfl
    by_cases hfail : s.failed = true
    · rw [if_pos hfail]
      exact hrest.fillFails i
    · rw [if_neg hfail]
      exact hrest.startFill (by simpa using hfail) hidle i
  · exact h

end ShamirDb.CachedStore
