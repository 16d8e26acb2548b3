/-
# What the journal's writer may confirm

`line` is the way of a message through the writer: the batch, the barrier the writer holds,
and the channel.  A version is `Written` once its event is in the store or a gap covers it,
and `Deferred` while it is pending with `min_version` at or below it.  The invariant says
that every barrier in the line will find each version it vouches for written or deferred, so
that after the clamp the confirmed ones are all written.

Two steps of the program can break it, and `InTurn` excludes them: a drainer that retires a
version whose event it sent behind a barrier that is still in the line, and a scan that
stores a value above a version that came into the set meanwhile.

`Keeps` collects what a step leaves as it is; the invariant of a step is assembled from it
and from what the step adds (`Inv.next`).
-/
import ShamirDb.ChangeFeed

namespace ShamirDb.ChangeFeed

open Machine BarrierLine List TaskList

variable {E : Type*}

/-! ## Accounts -/

def Writer.held : Writer → List (Msg E)
  | .holding w => [.barrier w]
  | _ => []

/-- The messages on their way to the store. -/
def Feed.line (s : Feed E) : List (Msg E) :=
  s.batch.map (fun b => .event b.version b.event) ++ s.writer.held ++ s.queue

/-- A version with an event. -/
def Needed (s : Feed E) (v : Nat) : Prop := (s.event v).isSome = true

/-- A gap is marked that covers the version. -/
def Gapped (s : Feed E) (v : Nat) : Prop := ∃ g, s.gap = some g ∧ g.1 ≤ v ∧ v ≤ g.2

def Written (s : Feed E) (v : Nat) : Prop := (s.store v).isSome = true ∨ Gapped s v

/-- The version is pending and clamps the barriers. -/
def Deferred (s : Feed E) (v : Nat) : Prop :=
  v ∈ s.pending ∧ s.minVersion ≠ 0 ∧ s.minVersion ≤ v

/-- The event needs no further admission. -/
def Account (s : Feed E) (v : Nat) : Prop := s.closed = true ∨ Written s v ∨ holds s.line v

/-- Everything up to `w` is completed and written. -/
def Safe (s : Feed E) (w : Nat) : Prop := w ≤ s.watermark ∧ ∀ v ≤ w, Needed s v → Written s v

/-- A version is retired only if its event is not behind a barrier for it, and a scan stores
a value that covers the pending versions the old one did. -/
def mayAccess (s : Feed E) (t : Task E) : Bool :=
  match t.stage with
  | .removing => decide (t.version ∈ s.pending → behind t.version s.line = false)
  | .scanning acc =>
    decide (∀ k ∈ s.pending, s.minVersion ≠ 0 → s.minVersion ≤ k → acc ≠ 0 ∧ acc ≤ k)
  | _ => true

/-- The condition on the steps of a run. -/
def InTurn (s : Feed E) : Event E → Prop
  | .access i => ∀ t ∈ s.tasks[i]?, mayAccess s t = true
  | _ => True

instance decidableInTurn (s : Feed E) (e : Event E) : Decidable (InTurn s e) :=
  match e with
  | .access i => inferInstanceAs (Decidable (∀ t ∈ s.tasks[i]?, mayAccess s t = true))
  | .assign _ | .complete _ | .drain _ | .unrepairable _ | .visit _ _ | .take | .put _
  | .result _ | .clamp | .confirm | .close | .recordGap _ _ | .pull _ _ | .reserve _
  | .barrier _ | .confirmed _ _ | .giveUp _ _ | .scan _ _ | .stop _ | .rangeFails _
  | .check _ => isTrue trivial

/-- What is known of an admission at each of its stages. -/
def TaskOk (s : Feed E) (t : Task E) : Prop :=
  match t.stage with
  | .probing => t.drain = true
  | .loading => t.version ∈ s.pending ∨ Account s t.version
  | .casing cur => (cur = 0 ∨ t.version < cur) ∧ (t.version ∈ s.pending ∨ Account s t.version)
  | .removing | .scanning _ => Account s t.version
  | .returned => t.drain = false → Deferred s t.version ∨ Account s t.version
  | _ => True

/-- What is known of a pull: up to its bound all is written, and as far as it has read, the
entries are the events unless there is a gap. -/
def PullOk (s : Feed E) (p : Pull E) : Prop :=
  match p.stage with
  | .sampled w | .reserved w | .waiting w => w ≤ s.watermark
  | .reading bound cursor raw => Safe s bound ∧ p.fromVersion ≤ cursor ∧ (∀ x ∈ raw, x.1 < cursor) ∧
      (raw.takeWhile (fun x => decide (x.1 ≤ bound)) =
          eventsBetween s p.fromVersion (min cursor (bound + 1)) ∨
        ∃ v, p.fromVersion ≤ v ∧ Gapped s v)
  | .read bound events => Safe s bound ∧
      (events <+: eventsBetween s p.fromVersion (bound + 1) ∨ ∃ v, p.fromVersion ≤ v ∧ Gapped s v)
  | .done r => Safe s r.bound ∧
      (r.gapAt = none → r.events <+: eventsBetween s p.fromVersion (r.bound + 1))

/-- The commit's admission has returned. -/
def Emitted (s : Feed E) (v : Nat) : Prop :=
  ∃ t ∈ s.tasks, t.version = v ∧ t.drain = false ∧ t.stage = .returned

/-- What is known of a message in the line. -/
def MsgOk (s : Feed E) : Msg E → Prop
  | .event v event => s.event v = some event
  | .barrier w => w ≤ s.watermark

/-- A commit before its record is the only one that has to do with its version. -/
structure Admissions (s : Feed E) : Prop where
  event : ∀ t ∈ s.tasks, s.event t.version = some t.event
  pending : ∀ v ∈ s.pending, Needed s v
  distinct : s.tasks.Pairwise fun t u => t.drain = false → u.drain = false → t.version ≠ u.version
  fresh : ∀ t ∈ s.tasks, t.drain = false → t.stage = .sending ∨ t.stage = .inserting →
    t.version ∉ s.pending ∧ ∀ u ∈ s.tasks, u.version = t.version → u.drain = false

structure Inv (s : Feed E) : Prop where
  guarded : Guarded (Needed s) s.line fun v => Written s v ∨ Deferred s v
  line : ∀ m ∈ s.line, MsgOk s m
  store : ∀ v event, s.store v = some event → s.event v = some event
  batch : ∀ b ∈ s.batch, b.written = true → (s.store b.version).isSome = true
  admissions : Admissions s
  tasks : ∀ t ∈ s.tasks, TaskOk s t
  closed : s.closed = true → s.line = []
  completed : ∀ i x, s.versions[i]? = some x → x.completed = true →
    Needed s (i + 1) → Emitted s (i + 1)
  confirmed : Safe s s.confirmed
  writer : ∀ w, s.writer = .confirming w → Safe s w
  pulls : ∀ p ∈ s.pulls, PullOk s p

/-! ## What a step keeps -/

/-- What every step leaves as it is, or moves from one account to the next. -/
structure Keeps (s s' : Feed E) : Prop where
  length : s.versions.length ≤ s'.versions.length
  event : ∀ v ≤ s.versions.length, s'.event v = s.event v
  watermark : s.watermark ≤ s'.watermark
  gapped : ∀ v, Gapped s v → Gapped s' v
  written : ∀ v, Written s v → Written s' v
  account : ∀ v, Account s v → Account s' v
  pending : ∀ v ∈ s.pending, v ∈ s'.pending ∨ Account s' v
  deferred : ∀ v, Deferred s v → Deferred s' v ∨ Account s' v

variable {s s' : Feed E}

theorem watermark_le_length (s : Feed E) : s.watermark ≤ s.versions.length :=
  (takeWhile_sublist _).length_le

theorem Safe.le_length {w : Nat} (h : Safe s w) : w ≤ s.versions.length :=
  Nat.le_trans h.1 (watermark_le_length s)

variable {t : Task E} {i : Nat} {v : Nat}

theorem event_eq_none_of_lt (h : s.versions.length < v) : s.event v = none := by
  rw [Feed.event, if_neg (by omega), getElem?_eq_none (by omega)]
  rfl

theorem Needed.le_length (h : Needed s v) : v ≤ s.versions.length := by
  by_contra hlt
  rw [Needed, event_eq_none_of_lt (by omega)] at h
  simp at h

namespace Keeps

section

variable (k : Keeps s s') {v : Nat}
include k

theorem event_some {event : E} (h : s.event v = some event) : s'.event v = some event := by
  have hneed : Needed s v := by rw [Needed, h]; rfl
  rw [k.event v hneed.le_length, h]

theorem needed (h : Needed s v) : Needed s' v := by
  rw [Needed, k.event v h.le_length]
  exact h

theorem safe {w : Nat} (h : Safe s w) : Safe s' w := by
  refine ⟨Nat.le_trans h.1 k.watermark, fun v hv hn => k.written v (h.2 v hv ?_)⟩
  rw [Needed, ← k.event v (Nat.le_trans hv h.le_length)]
  exact hn

theorem eventsBetween_eq {a c : Nat} (h : c ≤ s.versions.length + 1) :
    eventsBetween s' a c = eventsBetween s a c := by
  apply filterMap_congr
  intro v hv
  rw [mem_range'_1] at hv
  rw [k.event v (by omega)]

theorem taskOk {t : Task E} (h : TaskOk s t) : TaskOk s' t := by
  unfold TaskOk at h ⊢
  split at h
  · exact h
  · exact h.elim (fun hp => k.pending _ hp) fun ha => .inr (k.account _ ha)
  · exact ⟨h.1, h.2.elim (fun hp => k.pending _ hp) fun ha => .inr (k.account _ ha)⟩
  · exact k.account _ h
  · exact k.account _ h
  · intro hd
    exact (h hd).elim (fun hp => k.deferred _ hp) fun ha => .inr (k.account _ ha)
  · trivial

theorem pullOk {p : Pull E} (h : PullOk s p) : PullOk s' p := by
  have hgap : (∃ v, p.fromVersion ≤ v ∧ Gapped s v) → ∃ v, p.fromVersion ≤ v ∧ Gapped s' v := by
    rintro ⟨v, hv, hg⟩
    exact ⟨v, hv, k.gapped v hg⟩
  unfold PullOk at h ⊢
  split at h
  · exact Nat.le_trans h k.watermark
  · exact Nat.le_trans h k.watermark
  · exact Nat.le_trans h k.watermark
  · obtain ⟨hsafe, hle, hraw, hread⟩ := h
    have hlen := hsafe.le_length
    refine ⟨k.safe hsafe, hle, hraw, hread.imp (fun heq => ?_) hgap⟩
    rw [k.eventsBetween_eq (by omega)]
    exact heq
  · obtain ⟨hsafe, hread⟩ := h
    have hlen := hsafe.le_length
    refine ⟨k.safe hsafe, hread.imp (fun heq => ?_) hgap⟩
    rw [k.eventsBetween_eq (by omega)]
    exact heq
  · obtain ⟨hsafe, hread⟩ := h
    have hlen := hsafe.le_length
    refine ⟨k.safe hsafe, fun hnone => ?_⟩
    rw [k.eventsBetween_eq (by omega)]
    exact hread hnone

theorem msgOk {m : Msg E} (h : MsgOk s m) : MsgOk s' m := by
  cases m with
  | event v event => exact k.event_some h
  | barrier w => exact Nat.le_trans h k.watermark

/-- The barriers of a line that did not change. -/
theorem guarded (h : Inv s) (hline : s'.line = s.line)
    (hd : ∀ v, Deferred s v → Written s' v ∨ Deferred s' v) :
    Guarded (Needed s') s'.line fun v => Written s' v ∨ Deferred s' v := by
  rw [hline]
  refine h.guarded.mono ?_ ?_
  · rintro v - (hw | hdef)
    · exact .inl (k.written v hw)
    · exact hd v hdef
  · rintro v m hm w rfl hv hn
    have hw : w ≤ s.watermark := h.line _ hm
    have hlen := watermark_le_length s
    rw [Needed, ← k.event v (by omega)]
    exact hn

end

end Keeps

/-- **The invariant of a step**, from what it keeps and what it adds. -/
theorem Inv.next (h : Inv s) (k : Keeps s s')
    (hguard : Guarded (Needed s') s'.line fun v => Written s' v ∨ Deferred s' v)
    (hline : ∀ m ∈ s'.line, m ∈ s.line ∨ MsgOk s' m)
    (hstore : ∀ v event, s'.store v = some event → s.store v = some event ∨ s'.event v = some event)
    (hbatch : ∀ b ∈ s'.batch, b.written = true → (s'.store b.version).isSome = true)
    (hadm : Admissions s') (htasks : ∀ t ∈ s'.tasks, t ∈ s.tasks ∨ TaskOk s' t)
    (hclosed : s'.closed = true → s'.line = [])
    (hcompleted : ∀ i x, s'.versions[i]? = some x → x.completed = true →
      Needed s' (i + 1) → Emitted s' (i + 1))
    (hconfirmed : s'.confirmed = s.confirmed ∨ Safe s' s'.confirmed)
    (hwriter : ∀ w, s'.writer = .confirming w → s.writer = .confirming w ∨ Safe s' w)
    (hpulls : ∀ p ∈ s'.pulls, p ∈ s.pulls ∨ PullOk s' p) : Inv s' where
  guarded := hguard
  line m hm := (hline m hm).elim (fun hold => k.msgOk (h.line m hold)) id
  store v event hv := (hstore v event hv).elim (fun hold => k.event_some (h.store v event hold)) id
  batch := hbatch
  admissions := hadm
  tasks t ht := (htasks t ht).elim (fun hold => k.taskOk (h.tasks t hold)) id
  closed := hclosed
  completed := hcompleted
  confirmed := hconfirmed.elim (fun heq => heq ▸ k.safe h.confirmed) id
  writer w hw := (hwriter w hw).elim (fun hold => k.safe (h.writer w hold)) id
  pulls p hp := (hpulls p hp).elim (fun hold => k.pullOk (h.pulls p hold)) id

/-! ## Steps that leave the versions alone -/

namespace Keeps

/-- A step that leaves the versions alone. -/
theorem of_versions (hv : s'.versions = s.versions) (hg : ∀ v, Gapped s v → Gapped s' v)
    (hw : ∀ v, Written s v → Written s' v) (ha : ∀ v, Account s v → Account s' v)
    (hp : ∀ v ∈ s.pending, v ∈ s'.pending ∨ Account s' v)
    (hd : ∀ v, Deferred s v → Deferred s' v ∨ Account s' v) : Keeps s s' where
  length := Nat.le_of_eq (by rw [hv])
  event v _ := by rw [Feed.event, Feed.event, hv]
  watermark := Nat.le_of_eq (by rw [Feed.watermark, Feed.watermark, hv])
  gapped := hg
  written := hw
  account := ha
  pending := hp
  deferred := hd

/-- A step that leaves all that is accounted for alone, but for a wider gap. -/
theorem of_same {tasks queue permits batch writer gap confirmed pulls}
    (hg : ∀ v, Gapped s v → Gapped { s with gap } v)
    (hline : ({ s with tasks, queue, permits, batch, writer, gap, confirmed, pulls } : Feed E).line =
      s.line) :
    Keeps s { s with tasks, queue, permits, batch, writer, gap, confirmed, pulls } := by
  refine of_versions rfl hg (fun v => Or.imp_right (hg v)) (fun v h => ?_) (fun _ => .inl)
    fun _ => .inl
  rw [Account, hline]
  exact h.imp_right (Or.imp_left (Or.imp_right (hg v)))

end Keeps

/-- A completed version has been emitted. -/
theorem Inv.completed_next (h : Inv s) (hv : s'.versions = s.versions)
    (he : ∀ v, Emitted s v → Emitted s' v) (i : Nat) (x : Version E) (hx : s'.versions[i]? = some x)
    (hc : x.completed = true) (hn : Needed s' (i + 1)) : Emitted s' (i + 1) := by
  rw [hv] at hx
  have hn' : Needed s (i + 1) := by
    rw [Needed, Feed.event, ← hv]
    exact hn
  exact he _ (h.completed i x hx hc hn')

/-- An admission that was not over is replaced. -/
theorem emitted_set {t t' : Task E} (hi : s.tasks[i]? = some t) (hnot : t.stage ≠ .returned)
    (hs : s'.tasks = s.tasks.set i t') (v : Nat) (h : Emitted s v) : Emitted s' v := by
  obtain ⟨u, hu, huv, hud, hur⟩ := h
  obtain ⟨front, back, hsplit, hset⟩ := set_split hi
  refine ⟨u, ?_, huv, hud, hur⟩
  rw [hsplit] at hu
  rw [hs, hset t']
  rcases mem_append.1 hu with hu | hu
  · exact mem_append_left _ hu
  · rcases mem_cons.1 hu with rfl | hu
    · exact absurd hur hnot
    · exact mem_append_right _ (mem_cons_of_mem _ hu)

/-- A task is about a version with an event. -/
theorem Admissions.needed (h : Admissions s) (ht : t ∈ s.tasks) : Needed s t.version := by
  rw [Needed, h.event t ht]
  rfl

theorem Needed.pos (h : Needed s v) : v ≠ 0 := by
  rintro rfl
  simp [Needed, Feed.event] at h

theorem Admissions.set (h : Admissions s) {stage : Stage} (hi : s.tasks[i]? = some t)
    (hs : s'.tasks = s.tasks.set i { t with stage }) (hv : s'.versions = s.versions)
    (hp : ∀ v ∈ s'.pending, v ∈ s.pending ∨ (v = t.version ∧ stage = .loading))
    (hstage : stage = .sending ∨ stage = .inserting →
      t.drain = true ∨ t.stage = .sending ∨ t.stage = .inserting) : Admissions s' := by
  have hevent : ∀ v, s'.event v = s.event v := fun v => by rw [Feed.event, Feed.event, hv]
  have hmem : ∀ u ∈ s'.tasks, u ∈ s.tasks ∨ u = { t with stage } := fun u hu =>
    mem_or_eq_of_mem_set (hs ▸ hu)
  have ht : t ∈ s.tasks := mem_of_getElem? hi
  obtain ⟨front, back, hsplit, hset⟩ := set_split hi
  have hdist := h.distinct
  rw [hsplit] at hdist
  -- the other commits are for other versions
  have hother : ∀ u ∈ front ++ back, t.drain = false → u.drain = false → u.version ≠ t.version := by
    intro u hu htd hud
    rw [pairwise_append, pairwise_cons] at hdist
    rcases mem_append.1 hu with hu | hu
    · exact hdist.2.2 u hu t mem_cons_self hud htd
    · exact (hdist.2.1.1 u hu htd hud).symm
  constructor
  · intro u hu
    rw [hevent]
    rcases hmem u hu with hold | rfl
    · exact h.event u hold
    · exact h.event t ht
  · intro v hvp
    rw [Needed, hevent]
    rcases hp v hvp with hold | ⟨rfl, -⟩
    · exact h.pending v hold
    · exact h.needed ht
  · rw [hs, hset]
    rw [pairwise_append, pairwise_cons] at hdist ⊢
    refine ⟨hdist.1, hdist.2.1, fun u hu x hx => ?_⟩
    rcases mem_cons.1 hx with rfl | hx
    · exact hdist.2.2 u hu t mem_cons_self
    · exact hdist.2.2 u hu x (mem_cons_of_mem _ hx)
  · intro u hu hud hus
    have hu' : u = { t with stage } ∨ u ∈ front ++ back := by
      rw [hs, hset] at hu
      simp only [mem_append, mem_cons] at hu ⊢
      rcases hu with hu | hu | hu
      · exact .inr (.inl hu)
      · exact .inl hu
      · exact .inr (.inr hu)
    have hdrains : ∀ w ∈ s'.tasks, ∀ x ∈ s.tasks, (∀ y ∈ s.tasks, y.version = x.version →
        y.drain = false) → w.version = x.version → w.drain = false := by
      intro w hw x _ hx hwx
      rcases hmem w hw with hold | rfl
      · exact hx w hold hwx
      · exact hx t ht hwx
    rcases hu' with rfl | hu'
    · have hud' : t.drain = false := hud
      have hfresh := h.fresh t ht hud ((hstage hus).resolve_left (by simp [hud']))
      refine ⟨fun hin => ?_, fun w hw => hdrains w hw t ht hfresh.2⟩
      rcases hp _ hin with hold | ⟨-, rfl⟩
      · exact hfresh.1 hold
      · simp at hus
    · have hold : u ∈ s.tasks := by
        rw [hsplit]
        simp only [mem_append, mem_cons] at hu' ⊢
        exact hu'.imp_right .inr
      have hfresh := h.fresh u hold hud hus
      refine ⟨fun hin => ?_, fun w hw => hdrains w hw u hold hfresh.2⟩
      rcases hp _ hin with hin | ⟨heq, -⟩
      · exact hfresh.1 hin
      · exact hother u hu' (hfresh.2 t ht heq.symm) hud heq

/-- A merged gap covers both parts. -/
theorem mergeGap_covers (gap : Option (Nat × Nat)) (g : Nat × Nat) (v : Nat)
    (h : (∃ old, gap = some old ∧ old.1 ≤ v ∧ v ≤ old.2) ∨ (g.1 ≤ v ∧ v ≤ g.2)) :
    (mergeGap gap g).1 ≤ v ∧ v ≤ (mergeGap gap g).2 := by
  cases gap with
  | none =>
    rcases h with ⟨old, hold, -⟩ | h
    · simp at hold
    · exact h
  | some old =>
    show min old.1 g.1 ≤ v ∧ v ≤ max old.2 g.2
    rcases h with ⟨old', hold, h1, h2⟩ | h
    · obtain rfl := Option.some.inj hold
      omega
    · omega

theorem gapped_mergeGap (g : Nat × Nat) (hgap : s'.gap = some (mergeGap s.gap g)) (v : Nat)
    (h : Gapped s v) : Gapped s' v :=
  ⟨_, hgap, mergeGap_covers s.gap g v (.inl h)⟩

/-- A version in the gap counts as written. -/
theorem written_markGap (hv : v ≠ 0) (hgap : s'.gap = (markGap s v).gap) : Written s' v := by
  refine .inr ⟨_, hgap, mergeGap_covers s.gap _ v (.inr ?_)⟩
  show max v 1 ≤ v ∧ v ≤ max v 1
  omega

/-- The compare-and-swap loop looks at `min_version`: the version is covered, or the loop
goes on. -/
theorem retry_ok (h : t.version ∈ s.pending ∨ Account s t.version) :
    TaskOk s { t with stage := retry t.version s.minVersion } := by
  by_cases hcur : s.minVersion = 0 ∨ t.version < s.minVersion
  · rw [retry, if_pos hcur]
    exact ⟨hcur, h⟩
  · rw [retry, if_neg hcur]
    intro _
    rw [not_or, Nat.not_lt] at hcur
    exact h.imp_left fun hp => ⟨hp, hcur⟩

section

variable (h : Inv s) (hi : s.tasks[i]? = some t) {stage : Stage}
include h hi

/-- **An admission goes on**, and with it the queue, the pending versions and the gap. -/
theorem Inv.task {queue : List (Msg E)} {pending : List Nat} {minVersion : Nat}
    {gap : Option (Nat × Nat)} (hnot : t.stage ≠ .returned)
    (hs : s' = { s.setTask i { t with stage } with queue, pending, minVersion, gap })
    (hp : ∀ v ∈ pending, v ∈ s.pending ∨ (v = t.version ∧ stage = .loading))
    (hstage : stage = .sending ∨ stage = .inserting →
      t.drain = true ∨ t.stage = .sending ∨ t.stage = .inserting) (k : Keeps s s')
    (hguard : Guarded (Needed s') s'.line fun v => Written s' v ∨ Deferred s' v)
    (hline : ∀ m ∈ s'.line, m ∈ s.line ∨ MsgOk s' m) (hclosed : s'.closed = true → s'.line = [])
    (hok : TaskOk s' { t with stage }) : Inv s' := by
  subst hs
  refine h.next k hguard hline (fun _ _ => .inl) h.batch ?_ ?_ hclosed ?_ (.inl rfl)
    (fun _ => .inl) fun _ => .inl
  · exact h.admissions.set hi rfl rfl hp hstage
  · intro u hu
    rcases mem_or_eq_of_mem_set hu with hold | rfl
    · exact .inl hold
    · exact .inr hok
  · exact h.completed_next rfl (emitted_set hi hnot rfl)

/-- An admission goes on and touches nothing else. -/
theorem Inv.setTask (hnot : t.stage ≠ .returned)
    (hstage : stage = .sending ∨ stage = .inserting →
      t.drain = true ∨ t.stage = .sending ∨ t.stage = .inserting) (hok : TaskOk s { t with stage }) :
    Inv (s.setTask i { t with stage }) := by
  have k : Keeps s (s.setTask i { t with stage }) :=
    Keeps.of_same (fun _ => id) rfl
  exact h.task hi hnot rfl (fun _ => .inl) hstage k
    (k.guarded h rfl fun _ => .inr) (fun _ => .inl) h.closed (k.taskOk hok)

/-! ## The steps of an admission -/

/-- A task marks its version as a gap. -/
theorem Inv.markGap (hnot : t.stage ≠ .returned) :
    Inv ((ChangeFeed.markGap s t.version).setTask i { t with stage := .removing }) := by
  have ht : t ∈ s.tasks := mem_of_getElem? hi
  have hneed := h.admissions.needed ht
  have k : Keeps s ((ChangeFeed.markGap s t.version).setTask i { t with stage := .removing }) :=
    Keeps.of_same (gapped_mergeGap _ rfl) rfl
  refine h.task hi hnot rfl (fun _ => .inl) ?_ k
    (k.guarded h rfl fun _ => .inr) (fun _ => .inl) h.closed ?_
  · simp
  · exact .inr (.inl (written_markGap hneed.pos rfl))

/-- The event is sent. -/
theorem Inv.send (hstage : t.stage = .sending) (hopen : s.closed ≠ true) :
    Inv { s.setTask i { t with stage := if t.drain then .removing else .returned } with
      queue := s.queue ++ [.event t.version t.event] } := by
  have hline (u : Task E) : ({ s.setTask i u with
      queue := s.queue ++ [.event t.version t.event] } : Feed E).line =
      s.line ++ [.event t.version t.event] := by
    simp [Feed.line, Feed.setTask]
  refine h.task hi (by simp [hstage]) rfl (fun _ => .inl) ?_
    (Keeps.of_versions rfl (fun _ => id) (fun _ => id) ?_ (fun _ => .inl) fun _ => .inl) ?_ ?_ ?_ ?_
  · intro hs
    cases hd : t.drain <;> simp [hd] at hs
  · intro v hv
    rw [Account, hline, holds_append]
    exact hv.imp_right (Or.imp_right .inl)
  · rw [hline, guarded_concat_event]
    exact h.guarded
  · intro m hm
    rw [hline] at hm
    rcases mem_concat_iff.1 hm with hm | rfl
    · exact .inl hm
    · exact .inr (h.admissions.event t (mem_of_getElem? hi))
  · intro hc
    exact absurd hc hopen
  · have hsent : holds (s.line ++ [.event t.version t.event]) t.version := by
      rw [holds_append]
      exact .inr (by simp)
    cases hd : t.drain with
    | true => exact .inr (.inr (by rwa [hline]))
    | false => exact fun _ => .inr (.inr (.inr (by rwa [hline])))

/-- The version comes into the pending set. -/
theorem Inv.insert (hstage : t.stage = .inserting) :
    Inv { s.setTask i { t with stage := .loading } with pending := t.version :: s.pending } := by
  have k : Keeps s { s.setTask i { t with stage := .loading } with
      pending := t.version :: s.pending } :=
    Keeps.of_versions rfl (fun _ => id) (fun _ => id) (fun _ => id)
      (fun v hv => .inl (mem_cons_of_mem _ hv))
      (fun v hv => .inl ⟨mem_cons_of_mem _ hv.1, hv.2⟩)
  refine h.task hi (by simp [hstage]) rfl ?_ ?_ k
    (k.guarded h rfl fun v hd => .inr ⟨mem_cons_of_mem _ hd.1, hd.2⟩)
    (fun _ => .inl) h.closed (.inl mem_cons_self)
  · intro v hv
    rcases mem_cons.1 hv with rfl | hv
    · exact .inr ⟨rfl, rfl⟩
    · exact .inl hv
  · simp

/-- A task tries again. -/
theorem Inv.retry (hnot : t.stage ≠ .returned) (hok : t.version ∈ s.pending ∨ Account s t.version) :
    Inv (s.setTask i { t with stage := ChangeFeed.retry t.version s.minVersion }) := by
  refine h.setTask hi hnot ?_ (retry_ok hok)
  intro hs
  rw [ChangeFeed.retry] at hs
  split at hs <;> simp at hs

/-- A new `min_version` still covers what it covered. -/
theorem Inv.setMin {m : Nat} (hnot : t.stage ≠ .returned)
    (hcover : ∀ v, Deferred s v → m ≠ 0 ∧ m ≤ v)
    (hok : t.version ∈ s.pending ∧ m ≠ 0 ∧ m ≤ t.version ∨ Account s t.version) :
    Inv { s.setTask i { t with stage := .returned } with minVersion := m } := by
  have hkeep : ∀ v, Deferred s v →
      Deferred { s.setTask i { t with stage := .returned } with minVersion := m } v :=
    fun v hv => ⟨hv.1, hcover v hv⟩
  have k : Keeps s { s.setTask i { t with stage := .returned } with minVersion := m } :=
    Keeps.of_versions rfl (fun _ => id) (fun _ => id) (fun _ => id)
      (fun _ => .inl) fun v hv => .inl (hkeep v hv)
  refine h.task hi hnot rfl (fun _ => .inl) ?_ k (k.guarded h rfl fun v hd => .inr (hkeep v hd))
    (fun _ => .inl) h.closed fun _ => hok
  simp

/-- The swap succeeds: `min_version` only goes down. -/
theorem Inv.swap {cur : Nat} (hstage : t.stage = .casing cur) (hcur : s.minVersion = cur) :
    Inv { s.setTask i { t with stage := .returned } with minVersion := t.version } := by
  have ht : t ∈ s.tasks := mem_of_getElem? hi
  have hpos := (h.admissions.needed ht).pos
  have hok := h.tasks t ht
  simp only [TaskOk, hstage] at hok
  obtain ⟨hlow, hpend⟩ := hok
  refine h.setMin hi (by simp [hstage]) ?_ (hpend.imp_left fun hp => ⟨hp, hpos, Nat.le_refl _⟩)
  rintro v ⟨-, hne, hle⟩
  exact ⟨hpos, by omega⟩

/-- The version is retired.  Its event is written, or in the line in front of the barriers
that vouch for it. -/
theorem Inv.remove (hstage : t.stage = .removing) (hacc : Account s t.version)
    (hfront : behind t.version s.line = false) :
    Inv { s.setTask i { t with stage := .scanning 0 } with
      pending := s.pending.filter (· ≠ t.version) } := by
  have hmem : ∀ v ∈ s.pending, v ∈ s.pending.filter (· ≠ t.version) ∨ v = t.version := by
    intro v hv
    by_cases hvt : v = t.version
    · exact .inr hvt
    · exact .inl (mem_filter.2 ⟨hv, by simpa using hvt⟩)
  have k : Keeps s { s.setTask i { t with stage := .scanning 0 } with
      pending := s.pending.filter (· ≠ t.version) } := by
    refine Keeps.of_versions rfl (fun _ => id) (fun _ => id) (fun _ => id) ?_ ?_
    · intro v hv
      refine (hmem v hv).imp_right ?_
      rintro rfl
      exact hacc
    · intro v hv
      refine (hmem v hv.1).imp (fun hin => ⟨hin, hv.2⟩) ?_
      rintro rfl
      exact hacc
  refine h.task hi (by simp [hstage]) rfl
    (fun v hv => .inl (mem_filter.1 hv).1) ?_ k ?_ (fun _ => .inl) h.closed hacc
  · simp
  rcases hacc with hclosed | hacc
  · -- the writer is gone and with it the line
    have hempty : s.line = [] := h.closed hclosed
    show Guarded _ s.line _
    rw [hempty]
    trivial
  · refine h.guarded.forget ?_ (hacc.imp_left .inl) hfront
    rintro v (hw | hd)
    · exact .inl (.inl hw)
    · exact (hmem v hd.1).imp_left fun hin => .inr ⟨hin, hd.2⟩

/-- The scan is stored. -/
theorem Inv.storeMin {acc : Nat} (hstage : t.stage = .scanning acc) (hacc : Account s t.version)
    (hcover : ∀ k ∈ s.pending, s.minVersion ≠ 0 → s.minVersion ≤ k → acc ≠ 0 ∧ acc ≤ k) :
    Inv { s.setTask i { t with stage := .returned } with minVersion := acc } := by
  exact h.setMin hi (by simp [hstage]) (fun v hv => hcover v hv.1 hv.2.1 hv.2.2) (.inr hacc)

/-- **One access of an admission.** -/
theorem Inv.access {capacity : Nat} (hturn : InTurn s (.access i)) :
    Inv (ChangeFeed.access capacity s i t) := by
  have ht : t ∈ s.tasks := mem_of_getElem? hi
  have hok := h.tasks t ht
  have hcond := hturn t hi
  unfold ChangeFeed.access
  split
  case h_1 hstage =>
    rw [TaskOk, hstage] at hok
    refine h.setTask hi (by simp [hstage]) (fun _ => .inl hok) ?_
    by_cases hin : (s.store t.version).isSome = true
    · rw [if_pos hin]
      exact .inr (.inl (.inl hin))
    · rw [if_neg hin]
      trivial
  case h_2 hstage =>
    split
    · exact h.markGap hi (by simp [hstage])
    · rename_i hopen
      split
      · exact h.send hi hstage hopen
      · exact h.setTask hi (by simp [hstage]) (fun _ => .inr (.inl hstage)) trivial
  case h_3 hstage =>
    split
    · rename_i hin
      refine h.setTask hi (by simp [hstage]) (nofun) ?_
      intro hd
      -- a commit does not find its version in the set
      exact absurd hin (h.admissions.fresh t ht hd (.inr hstage)).1
    · exact h.insert hi hstage
  case h_4 hstage =>
    rw [TaskOk, hstage] at hok
    exact h.retry hi (by simp [hstage]) hok
  case h_5 cur hstage =>
    split
    · exact h.swap hi hstage ‹_›
    · rw [TaskOk, hstage] at hok
      exact h.retry hi (by simp [hstage]) hok.2
  case h_6 hstage =>
    rw [TaskOk, hstage] at hok
    split
    · rename_i hin
      rw [mayAccess, hstage] at hcond
      exact h.remove hi hstage hok (of_decide_eq_true hcond hin)
    · exact h.setTask hi (by simp [hstage]) (nofun) fun _ => .inr hok
  case h_7 acc hstage =>
    rw [TaskOk, hstage] at hok
    rw [mayAccess, hstage] at hcond
    exact h.storeMin hi hstage hok (of_decide_eq_true hcond)
  case h_8 => exact h

end

end ShamirDb.ChangeFeed
