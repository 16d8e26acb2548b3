/-
# The mirror cache behaves as one map

The steps of the callers and of the reads keep the invariant, so in every orderly run each
`get` returns a value that the map held while it was under way, and each call that is
answered has changed the map as the answer says.
-/
import ShamirDb.CachedStoreOwner

namespace ShamirDb.CachedStore

open Machine KeyedWrites Linearized TaskList List Option Function
open Mirrored (KvOp)

variable {K V : Type*} [DecidableEq K] {s s' : System K V}

/-! ## Callers -/

variable {i : Nat} {g : Get K V} {value : V} {c : Call K V} {m : K → Option V} {k : K}

omit [DecidableEq K] in
/-- The call that is served waits. -/
theorem Serves.waiting (h : Serves s) (hi : s.work.call = some i) :
    ∃ command, Waiting s i command := by
  unfold Serves at h
  generalize s.work = work at h hi
  cases work with
  | idle | writing _ _ => simp [Work.call] at hi
  | publish client actions gap reply =>
    cases client with
    | call j =>
      obtain rfl : j = i := some.inj hi
      obtain ⟨-, command, hwait, -⟩ := h
      exact ⟨command, hwait⟩
    | reload j =>
      obtain rfl : j = i := some.inj hi
      exact ⟨_, h.1⟩
    | fill j => simp [Work.call] at hi
  | acking j op flag =>
    obtain rfl : j = i := some.inj hi
    cases op <;> exact ⟨_, h.1⟩
  | insert j _ | store j _ | asyncSet j _ _ _ | asyncRemove j _ | reload j | flush j =>
    obtain rfl : j = i := some.inj hi
    exact ⟨_, h.1⟩

omit [DecidableEq K] in
/-- The owner does not notice what other calls do. -/
theorem Serves.mono (h : Serves s) (hwork : s'.work = s.work) (hwatch : s'.watch = s.watch)
    (hwait : ∀ i command, Waiting s i command → Waiting s' i command) : Serves s' := by
  unfold Serves at h ⊢
  rw [hwork, hwatch]
  generalize s.work = work at h
  cases work with
  | idle | writing _ _ => trivial
  | publish client actions gap reply =>
    cases client with
    | call j =>
      obtain ⟨hnodup, command, hold, hright⟩ := h
      exact ⟨hnodup, command, hwait _ _ hold, hright⟩
    | reload j => exact ⟨hwait _ _ h.1, h.2⟩
    | fill j => trivial
  | acking j op flag => cases op <;> exact ⟨hwait _ _ h.1, h.2⟩
  | insert _ _ | store _ _ | asyncSet _ _ _ _ | asyncRemove _ _ | reload _ | flush _ =>
    exact ⟨hwait _ _ h.1, h.2⟩

/-- A call begins. -/
theorem Inv.call (h : Inv s) {command : Command K V}
    (hdistinct : ∀ ops, command = .transact ops → (ops.map fun op => op.write.key).Nodup) :
    Inv (callStep s (.call command)) where
  linear := h.linear
  answered := by
    intro i c reply hc hstage
    rcases concat_cases hc with hold | ⟨-, rfl⟩
    · exact h.answered i c reply hold hstage
    · by_cases hf : s.failed = true
      · obtain rfl : Reply.failed = reply := by simpa [hf] using hstage
        simp [Right]
      · simp [hf] at hstage
  calls hf := by
    have hc := h.calls hf
    exact {
      nodup := hc.nodup
      waiting := by
        intro i hi
        obtain ⟨c, hwait⟩ := hc.waiting i hi
        exact ⟨c, getElem?_concat_of hwait _⟩
      served := hc.served
      serves := hc.serves.mono rfl rfl fun i c hwait => getElem?_concat_of hwait _
      untouched := fun i hi => hc.untouched i fun c hci => hi c (getElem?_concat_of hci _)
      distinct := by
        intro c hmem ops hops
        rcases mem_concat_iff.1 hmem with hold | rfl
        · exact hc.distinct c hold ops hops
        · exact hdistinct ops hops }
  reads hf := by
    have hr := h.reads hf
    exact { hr with }
  halted := h.halted

/-- A call that is neither queued nor served moves on. -/
theorem Inv.setCall (h : Inv s) {c' : Call K V} (hc : s.calls[i]? = some c)
    (hcommand : c'.command = c.command) (hold : c.stage ≠ .queued)
    (hadmitting : c'.stage ≠ .admitting)
    (hanswer : ∀ reply, c'.stage = .replied reply ∨ c'.stage = .returned reply →
      reply = .failed ∨ c.stage = .replied reply) : Inv (s.setCall i c') where
  linear := h.linear
  answered := by
    intro j d reply hd hstage
    rcases set_cases hc hd with ⟨rfl, rfl⟩ | ⟨-, hkept⟩
    · rcases hanswer reply hstage with rfl | hreplied
      · simp [Right]
      · rw [hcommand]
        exact h.answered j c reply hc (.inl hreplied)
    · exact h.answered j d reply hkept hstage
  calls hf := by
    have hci := h.calls hf
    exact {
      nodup := hci.nodup
      waiting := by
        intro j hj
        obtain ⟨command, hwait⟩ := hci.waiting j hj
        exact ⟨command, hwait.set hc hold c'⟩
      served := hci.served
      serves := hci.serves.mono rfl rfl fun j command hwait => hwait.set hc hold c'
      untouched := by
        intro j hj
        by_cases hne : j = i
        · subst hne
          rcases hj _ (set_self hc _) with hstage | hmem
          · exact absurd hstage hadmitting
          · obtain ⟨command, hwait⟩ := hci.waiting j hmem
            exact absurd (hwait.stage hc) hold
        · refine hci.untouched j fun d hd => hj d ?_
          exact (set_other hne _).trans hd
      distinct := hci.distinct_set hc hcommand }
  reads hf := by
    have hr := h.reads hf
    exact { hr with }
  halted := h.halted

/-- A call gets its place in the queue. -/
theorem Inv.enqueue (h : Inv s) (hf : s.failed = false) (hc : s.calls[i]? = some c)
    (hstage : c.stage = .admitting) :
    Inv { s.setCall i { c with stage := .queued } with queue := s.queue ++ [.call i] } := by
  have hci := h.calls hf
  have hr := h.reads hf
  have hqueued : ({ s.setCall i { c with stage := .queued } with
      queue := s.queue ++ [.call i] } : System K V).queued = s.queued ++ [i] :=
    filterMap_append
  have hold : c.stage ≠ .queued := by simp [hstage]
  have hfree : i ∉ s.queued := by
    intro hmem
    obtain ⟨command, hwait⟩ := hci.waiting i hmem
    exact hold (hwait.stage hc)
  exact {
    linear := h.linear
    answered := by
      intro j d reply hd hanswer
      rcases set_cases hc hd with ⟨-, rfl⟩ | ⟨-, hkept⟩
      · simp at hanswer
      · exact h.answered j d reply hkept hanswer
    calls := fun _ => {
      nodup := by
        rw [hqueued, nodup_append]
        refine ⟨hci.nodup, pairwise_singleton _ _, fun j hj k hk => ?_⟩
        rw [mem_singleton.1 hk]
        rintro rfl
        exact hfree hj
      waiting := by
        intro j hj
        rw [hqueued] at hj
        rcases mem_concat_iff.1 hj with hj | rfl
        · obtain ⟨command, hwait⟩ := hci.waiting j hj
          exact ⟨command, hwait.set hc hold _⟩
        · exact ⟨c.command, set_self hc _⟩
      served := by
        intro j hj
        rw [hqueued, mem_append, not_or]
        refine ⟨hci.served j hj, fun hmem => ?_⟩
        rw [mem_singleton.1 hmem] at hj
        obtain ⟨command, hwait⟩ := hci.serves.waiting hj
        exact hold (hwait.stage hc)
      serves := hci.serves.mono rfl rfl fun j command hwait => hwait.set hc hold _
      untouched := by
        intro j hj
        by_cases hne : j = i
        · subst hne
          exact hci.untouched j fun d hd => .inl (some.inj (hc.symm.trans hd) ▸ hstage)
        refine hci.untouched j fun d hd => ?_
        have hcase := hj d ((set_other hne _).trans hd)
        rw [hqueued] at hcase
        refine hcase.imp_right fun hmem => ?_
        rcases mem_append.1 hmem with hmem | hmem
        · exact hmem
        · exact absurd (mem_singleton.1 hmem) hne
      distinct := hci.distinct_set hc rfl }
    reads := fun _ => { hr with }
    halted := h.halted }

/-- Every step of a caller. -/
theorem Inv.callStep (h : Inv s) (e : Event K V) (he : Orderly s e) : Inv (callStep s e) := by
  cases e with
  | call command =>
    apply h.call
    intro ops hops
    subst hops
    exact he
  | enqueue i =>
    rw [CachedStore.callStep]
    split
    · rename_i c hc
      split
      · rename_i hstage
        by_cases hf : s.failed = true
        · rw [if_pos hf]
          exact h.setFailed hf hc (.inr rfl)
        · rw [if_neg hf]
          exact h.enqueue (by simpa using hf) hc hstage
      · exact h
    · exact h
  | receive i =>
    rw [CachedStore.callStep]
    split
    · rename_i c hc
      split
      · rename_i r hstage
        refine h.setCall hc rfl (by simp [hstage]) (by simp) fun reply hreply => ?_
        by_cases hf : s.failed = true
        · refine .inl ?_
          simpa [hf, eq_comm] using hreply
        · refine .inr ?_
          rw [hstage]
          simpa [hf] using hreply
      · exact h
    · exact h
  | abandon i =>
    rw [CachedStore.callStep]
    split
    · rename_i c hc
      by_cases hf : s.failed = true
      · cases hstage : c.stage with
        | queued =>
          rw [hf]
          exact h.setFailed hf hc (.inr rfl)
        | _ =>
          rw [Bool.and_false]
          exact h
      · rw [Bool.not_eq_true] at hf
        rw [hf]
        exact h
    · exact h
  | _ => exact h

/-! ## Reads -/

/-- A `get` returns a value its key has held. -/
theorem Inv.answer (h : Inv s) (hf : s.failed = false) (hg : s.gets[i]? = some g) {value : Option V}
    (hvalue : ∀ r, GetInv s g r → value ∈ r.seen) :
    Inv { s.setGet i { g with stage := .returned value } with
      watch := s.watch.answer i value } := by
  have hc := h.calls hf
  have hr := h.reads hf
  obtain ⟨r, hread⟩ := hr.exists_read hg
  exact {
    linear := h.linear.answer hread (hvalue r (hr.gets i g r hg hread))
    answered := h.answered
    calls := fun _ => ⟨hc.nodup, hc.waiting, hc.served, hc.serves, hc.untouched, hc.distinct⟩
    reads := fun _ => {
      consistent := hr.consistent
      parity := hr.parity
      length := by
        show (s.gets.set i _).length = (s.watch.reads.modify i _).length
        rw [length_set, length_modify, hr.length]
      gets := by
        intro j d r' hd hr'
        have hr' : (s.watch.reads.modify i fun r => { r with answer := some value })[j]? =
          some r' := hr'
        rw [getElem?_modify] at hr'
        rcases set_cases hg hd with ⟨rfl, rfl⟩ | ⟨hne, hold⟩
        · rw [hread] at hr'
          obtain rfl : { r with answer := some value } = r' := by simpa using hr'
          exact ⟨(hr.gets j g r hg hread).1, trivial⟩
        · simp only [Ne.symm hne, if_false, Option.map_eq_map, Option.map_id'] at hr'
          exact hr.gets j d r' hold hr' }
    halted := h.halted }

/-- What the inner store holds when a `get` reads it. -/
theorem Inv.readInner (h : Inv s) (hf : s.failed = false) {r : Read K V} {epoch : Nat}
    (hstage : g.stage = .missed epoch) (hinv : GetInv s g r)
    (hbehind : ∀ j ∈ g.behind, s.work.removing g.key ≠ some j) :
    GetInv s { g with stage := .read epoch (s.inner g.key) } r := by
  obtain ⟨hkey, hinv⟩ := hinv
  simp only [hstage] at hinv
  obtain ⟨ha, hm, hw, he⟩ := hinv
  refine ⟨hkey, ha, hm, he, fun _ _ => rfl, ?_⟩
  have hcons := (h.reads hf).consistent
  have hsame : s.inner = s.watch.map → s.inner g.key ∈ r.seen := by
    intro heq
    rw [heq]
    exact hm
  unfold Consistent at hcons
  unfold Window at hw
  generalize s.work = work at hcons hw hbehind
  cases work with
  | publish client actions gap reply =>
    cases client with
    | call i => exact .inr ⟨rfl, rfl⟩
    | reload i | fill i => exact .inl (hsame hcons.1)
  | acking i op flag =>
    cases op with
    | set key value =>
      by_cases hk : key = g.key
      · rcases hw hk with hseen | ⟨hun, -⟩
        · exact .inl (hk ▸ hseen)
        · simp [hstage, GetStage.unprobed] at hun
      · refine .inl ?_
        rw [hcons.1, apply_single, update_of_ne (Ne.symm hk)] at hm
        exact hm
    | remove key => exact .inl (hsame hcons.1)
  | writing i op =>
    by_cases hk : op.write.key = g.key
    · cases op with
      | set key value =>
        rcases hw hk with hseen | ⟨hun, -⟩
        · exact .inl ((show key = g.key from hk) ▸ hseen)
        · simp [hstage, GetStage.unprobed] at hun
      | remove key =>
        rcases hw hk with hseen | hlate
        · exact .inl (hk ▸ hseen)
        · exact absurd (if_pos hk) (hbehind i hlate)
    · refine .inl ?_
      rw [hcons.1, apply_single, update_of_ne (Ne.symm hk)] at hm
      exact hm
  | _ => exact .inl (hsame hcons.1)

/-- A `get` that begins finds an entry that has not reached the inner store in the copy, and
is behind a removal that has not. -/
theorem Consistent.window (h : Consistent s) (hstage : g.stage = .started)
    (hbehind : g.behind = s.work.removing g.key) (r : Read K V) : Window s g r := by
  unfold Consistent at h
  unfold Window
  have hentry : ∀ k value, s.watch.map = apply [⟨k, some value⟩] s.inner →
      s.cache = s.watch.map → s.cache k ≠ none := by
    intro k value hmap hcache
    rw [hcache, hmap]
    simp
  generalize s.work = work at h hbehind
  cases work with
  | acking j op flag =>
    cases op with
    | set k value => exact fun _ => .inr ⟨by rw [hstage]; rfl, hentry k value h.1 h.2⟩
    | remove k => trivial
  | writing j op =>
    cases op with
    | set k value => exact fun _ => .inr ⟨by rw [hstage]; rfl, hentry k value h.1 h.2⟩
    | remove k =>
      intro hk
      rw [hbehind, Work.removing, if_pos hk]
      exact .inr rfl
  | _ => trivial

/-- A `get` begins. -/
theorem Inv.get (h : Inv s) (hf : s.failed = false) (key : K) :
    Inv { s with
      gets := s.gets ++ [⟨key, .started, s.work.removing key⟩]
      watch := s.watch.begin key } := by
  have hc := h.calls hf
  have hr := h.reads hf
  exact {
    linear := h.linear.begin key
    answered := h.answered
    calls := fun _ => { hc with }
    reads := fun _ => {
      consistent := hr.consistent
      parity := hr.parity
      length := by
        show (s.gets ++ [_]).length = (s.watch.reads ++ [_]).length
        rw [length_append, length_append, hr.length]
        rfl
      gets := by
        intro i g r hg hread
        rcases concat_cases hg with hold | ⟨hi, rfl⟩
        · rcases concat_cases hread with hread | ⟨hlen, -⟩
          · exact hr.gets i g r hold hread
          · have hlt := (List.getElem?_eq_some_iff.1 hold).1
            rw [hr.length] at hlt
            omega
        · rcases concat_cases hread with hread | ⟨-, rfl⟩
          · have hlt := (List.getElem?_eq_some_iff.1 hread).1
            rw [← hr.length] at hlt
            omega
          · refine ⟨rfl, rfl, mem_singleton.2 rfl, ?_⟩
            exact hr.consistent.window rfl rfl _ }
    halted := h.halted }

/-- What is left after a removal was there before. -/
theorem of_update_none {key : K} (h : update m key none k = some value) : m k = some value := by
  by_cases hk : k = key
  · rw [hk] at h
    simp at h
  · rwa [update_of_ne hk] at h

/-- What the copy has in a gap, the map has. -/
theorem of_gapped {actions : List (KvOp K V)} {gap : Bool}
    (h : gapped m actions gap k = some value) : m k = some value := by
  unfold gapped at h
  split at h
  · exact of_update_none h
  · exact h

/-- An entry of the copy is that of the map. -/
theorem Consistent.hit (h : Consistent s) (hk : s.cache k = some value) :
    s.watch.map k = some value := by
  unfold Consistent at h
  generalize s.work = work at h
  cases work with
  | publish client actions gap reply =>
    cases client with
    | call i => exact of_gapped (h.2 ▸ hk)
    | reload i | fill i => exact of_gapped (h.2.1 ▸ hk)
  | asyncSet i key value created => exact of_gapped (h.2 ▸ hk)
  | acking i op flag =>
    cases op with
    | set key value => rw [← h.2, hk]
    | remove key => exact of_update_none (h.2 ▸ hk)
  | _ => rw [← h.2, hk]

omit [DecidableEq K] in
/-- A `get` moves on. -/
theorem Window.move {g g' : Get K V} {r : Read K V} (h : Window s g r) (hkey : g'.key = g.key)
    (hbehind : g'.behind = g.behind)
    (hprobed : g.stage.unprobed = true → g'.stage.unprobed = true ∨ s.cache g.key = none) :
    Window s g' r := by
  have hset : ∀ key : K, (key = g.key → s.inner key ∈ r.seen ∨
        (g.stage.unprobed = true ∧ s.cache key ≠ none)) →
      key = g'.key → s.inner key ∈ r.seen ∨ (g'.stage.unprobed = true ∧ s.cache key ≠ none) := by
    intro key hold hk
    have hk : key = g.key := hk.trans hkey
    rcases hold hk with hseen | ⟨hun, hentry⟩
    · exact .inl hseen
    · rcases hprobed hun with hun' | hnone
      · exact .inr ⟨hun', hentry⟩
      · exact absurd (hk ▸ hnone) hentry
  unfold Window at h ⊢
  generalize s.work = work at h
  cases work with
  | acking i op flag =>
    cases op with
    | set key value => exact hset key h
    | remove key => trivial
  | writing i op =>
    cases op with
    | set key value => exact hset key h
    | remove key =>
      intro hk
      rw [hbehind]
      exact h (hk.trans hkey)
  | _ => trivial

/-- The steps of a `get`. -/
theorem Inv.getStep (h : Inv s) (e : Event K V) (he : Orderly s e) : Inv (getStep s e) := by
  have hfails : ∀ (i : Nat) (g : Get K V), s.gets[i]? = some g →
      Inv (s.setGet i { g with stage := .failed }) := by
    intro i g hg
    exact h.setGet hg fun _ r hinv => ⟨hinv.1, trivial⟩
  -- a step that does not find its call at its stage changes nothing
  cases e with first
    | exact h
    | (rw [CachedStore.getStep]; (try split); try split) <;> try exact h
  | get key =>
    rename_i hf
    first
    | exact h.get (by simpa using hf) key
    | exact ⟨h.linear.begin key, h.answered, fun hfalse => absurd (hf.symm.trans hfalse) (by simp),
        fun hfalse => absurd (hf.symm.trans hfalse) (by simp), h.halted⟩
  | capture i =>
    rename_i g hg _ hstage
    refine h.setGet hg fun _ r hinv => ?_
    obtain ⟨hkey, hinv⟩ := hinv
    simp only [hstage] at hinv
    obtain ⟨ha, hm, hw⟩ := hinv
    exact ⟨hkey, ha, hm, hw.move rfl rfl fun _ => .inl rfl, Nat.le_refl _⟩
  | probe i =>
    rename_i g hg _ epoch hstage
    split
    · rename_i value hcache
      refine h.setGet hg fun hf r hinv => ?_
      obtain ⟨hkey, hinv⟩ := hinv
      simp only [hstage] at hinv
      obtain ⟨ha, hm, -⟩ := hinv
      rw [(h.reads hf).consistent.hit hcache] at hm
      exact ⟨hkey, ha, hm⟩
    · rename_i hcache
      refine h.setGet hg fun _ r hinv => ?_
      obtain ⟨hkey, hinv⟩ := hinv
      simp only [hstage] at hinv
      obtain ⟨ha, hm, hw, he⟩ := hinv
      exact ⟨hkey, ha, hm, hw.move rfl rfl fun _ => .inr hcache, he⟩
  | recheck i | finish i =>
    rename_i g hg _ value hstage
    split
    · exact hfails i g hg
    · rename_i hf
      refine h.answer (by simpa using hf) hg fun r hinv => ?_
      have hinv := hinv.2
      simp only [hstage] at hinv
      exact hinv.2
  | readInner i =>
    rename_i g hg _ epoch hstage
    exact h.setGet hg fun hf r hinv => h.readInner hf hstage hinv (he g hg)
  | readFails i => exact hfails i _ ‹_›
  | fill i =>
    rename_i g hg _ epoch value hstage
    split
    · exact hfails i g hg
    have hset : Inv (s.setGet i { g with stage := .filling epoch value }) := by
      refine h.setGet hg fun _ r hinv => ⟨hinv.1, ?_⟩
      have hinv := hinv.2
      simp only [hstage] at hinv
      exact hinv
    exact hset.requeue (filterMap_append.trans (append_nil _))
  | giveUp i => exact h.fillFails i

/-! ## Every run -/

/-- A new store. -/
theorem inv_build (inner : K → Option V) (domain : List K) : Inv (System.build inner domain) where
  linear := fun r hr => absurd hr (not_mem_nil)
  answered := fun i c reply hc => absurd hc (by simp [System.build])
  calls _ := {
    nodup := nodup_nil
    waiting := fun i hi => absurd hi (not_mem_nil)
    served := fun i hi => absurd hi (by simp [System.build, Work.call])
    serves := trivial
    untouched := fun _ _ => rfl
    distinct := fun c hc => absurd hc (not_mem_nil) }
  reads _ := {
    consistent := ⟨rfl, rfl⟩
    parity := rfl
    length := rfl
    gets := fun i g r hg => absurd hg (by simp [System.build]) }
  halted hf := rfl

/-- Every orderly step. -/
theorem Inv.step (h : Inv s) (mode : WriteMode) (e : Event K V) (he : Orderly s e) :
    Inv (step mode s e) := by
  cases e with
  | dequeue => exact h.dequeue mode
  | proceed fresh => exact h.proceed fresh
  | fails left => exact h.fails left
  | halt left => exact h.failing rfl rfl rfl rfl
  | call command | enqueue i | receive i | abandon i => exact h.callStep _ he
  | get key | capture i | probe i | recheck i | readInner i | readFails i | fill i | finish i
    | giveUp i => exact h.getStep _ he

end ShamirDb.CachedStore
