/-
# Bounded pulls of the journal

The steps of the gate, of the writer and of the pulls keep the invariant of the journal.
From it: a pull that reports no gap returns a beginning of the events of all versions from
its start to its bound, and a consumer that resumes behind the last event it was given has
seen every event up to there once.
-/
import Mathlib.Data.List.TakeWhile
import ShamirDb.ChangeFeedInvariant

namespace ShamirDb.ChangeFeed

open Machine BarrierLine TaskList List Function

variable {E : Type*} {s s' : Feed E} {v : Nat}

/-! ## The gate -/

/-- A version is emitted, or has no event. -/
theorem emitted_iff : s.emitted v = true ↔ s.event v = none ∨ Emitted s v := by
  simp [Feed.emitted, Emitted, and_assoc]

/-- A version up to the watermark has been handed to the journal. -/
theorem Inv.emitted (h : Inv s) (hv : v ≤ s.watermark) (hn : Needed s v) : Emitted s v := by
  have hpos := hn.pos
  obtain ⟨x, hx, hc⟩ := getElem?_of_lt_takeWhile (p := Version.completed)
    (by show v - 1 < s.watermark; omega)
  have hsucc : v - 1 + 1 = v := by omega
  have hem := h.completed (v - 1) x hx hc (by rw [hsucc]; exact hn)
  rwa [hsucc] at hem

theorem Keeps.of_gate {versions : List (Version E)} {tasks : List (Task E)}
    (hlen : s.versions.length ≤ versions.length)
    (hver : ∀ (i : Nat) (x : Version E), s.versions[i]? = some x →
      ∃ y : Version E, versions[i]? = some y ∧ y.event = x.event ∧
        (x.completed = true → y.completed = true)) : Keeps s { s with versions, tasks } where
  length := hlen
  event v hv := by
    rw [Feed.event, Feed.event]
    by_cases h0 : v = 0
    · rw [if_pos h0, if_pos h0]
    · rw [if_neg h0, if_neg h0]
      have hlt : v - 1 < s.versions.length := by omega
      obtain ⟨y, hy, heq, -⟩ := hver (v - 1) _ (getElem?_eq_getElem hlt)
      rw [hy, getElem?_eq_getElem hlt]
      exact heq
  watermark := takeWhile_length_le fun i x hx hc => by
    obtain ⟨y, hy, -, hc'⟩ := hver i x hx
    exact ⟨y, hy, hc' hc⟩
  gapped _ := id
  written _ := id
  account _ := id
  pending _ := .inl
  deferred _ := .inl

theorem Admissions.keep (h : Admissions s) (k : Keeps s s') (ht : s'.tasks = s.tasks)
    (hp : s'.pending = s.pending) : Admissions s' := by
  constructor
  · rw [ht]
    exact fun t ht => k.event_some (h.event t ht)
  · rw [hp]
    exact fun v hv => k.needed (h.pending v hv)
  · rw [ht]
    exact h.distinct
  · rw [ht, hp]
    exact h.fresh

/-- A new admission: a commit of a new version, or the drainer's of a pending one. -/
theorem Admissions.concat (h : Admissions s) (k : Keeps s s') {u : Task E}
    (ht : s'.tasks = s.tasks ++ [u]) (hp : s'.pending = s.pending)
    (hev : s'.event u.version = some u.event)
    (hu : (u.drain = false ∧ u.version ∉ s.pending ∧ ∀ t ∈ s.tasks, t.version ≠ u.version) ∨
      u.drain = true ∧ u.version ∈ s.pending) : Admissions s' := by
  constructor
  · rw [ht]
    intro t ht
    rcases mem_concat_iff.1 ht with ht | rfl
    · exact k.event_some (h.event t ht)
    · exact hev
  · rw [hp]
    exact fun v hv => k.needed (h.pending v hv)
  · rw [ht]
    refine pairwise_append.2 ⟨h.distinct, pairwise_singleton _ _, ?_⟩
    intro t ht x hx _ hxd
    rw [mem_singleton.1 hx] at hxd ⊢
    rcases hu with ⟨-, -, hne⟩ | ⟨hd, -⟩
    · exact hne t ht
    · simp [hd] at hxd
  · rw [ht, hp]
    intro t ht hd hs
    rcases mem_concat_iff.1 ht with ht | rfl
    · have hfresh := h.fresh t ht hd hs
      refine ⟨hfresh.1, fun x hx hxt => ?_⟩
      rcases mem_concat_iff.1 hx with hx | rfl
      · exact hfresh.2 x hx hxt
      · rcases hu with ⟨hu, -⟩ | ⟨-, hin⟩
        · exact hu
        · -- a commit before its record has nothing in the set to drain
          exact absurd (hxt ▸ hin) hfresh.1
    · rcases hu with ⟨-, hnot, hne⟩ | ⟨hu, -⟩
      · refine ⟨hnot, fun x hx hxu => ?_⟩
        rcases mem_concat_iff.1 hx with hx | rfl
        · exact absurd hxu (hne x hx)
        · exact hd
      · simp [hu] at hd

theorem map_set_entry {batch : List (Entry E)} {j : Nat} {b : Entry E} (hj : batch[j]? = some b) :
    (batch.set j { b with written := true }).map (fun b => Msg.event b.version b.event) =
      batch.map fun b => Msg.event b.version b.event := by
  obtain ⟨front, back, hsplit, hset⟩ := set_split hj
  rw [hset, hsplit]
  simp

theorem Safe.mono {w w' : Nat} (h : Safe s w) (hle : w' ≤ w) : Safe s w' :=
  ⟨Nat.le_trans hle h.1, fun v hv => h.2 v (Nat.le_trans hv hle)⟩

variable {p : Pull E} {raw : List (Nat × E)}

section

variable (h : Inv s) {w i : Nat}
include h

/-- A version is assigned. -/
theorem Inv.assign (capacity : Nat) (ev : Option E) : Inv (step capacity s (.assign ev)) := by
  have hver : ∀ (x : Version E) (i : Nat) (y : Version E), s.versions[i]? = some y →
      ∃ z, (s.versions ++ [x])[i]? = some z ∧ z.event = y.event ∧
        (y.completed = true → z.completed = true) := fun x i y hy =>
    ⟨y, getElem?_concat_of hy x, rfl, id⟩
  have hcompleted {s' : Feed E} (k : Keeps s s') (hv : s'.versions = s.versions ++ [⟨ev, false⟩])
      (ht : ∀ t ∈ s.tasks, t ∈ s'.tasks) (i : Nat) (x : Version E) (hx : s'.versions[i]? = some x)
      (hc : x.completed = true) (hn : Needed s' (i + 1)) : Emitted s' (i + 1) := by
    rw [hv] at hx
    rcases concat_cases hx with hx | ⟨-, rfl⟩
    · rw [Needed, k.event (i + 1) (List.getElem?_eq_some_iff.1 hx).1] at hn
      obtain ⟨t, hmem, hrest⟩ := h.completed i x hx hc hn
      exact ⟨t, ht t hmem, hrest⟩
    · simp at hc
  cases ev with
  | none =>
    have k : Keeps s (step capacity s (.assign none)) :=
      Keeps.of_gate (by simp) (hver _)
    refine h.next k (k.guarded h rfl fun _ => .inr) (fun _ => .inl)
      (fun _ _ => .inl) h.batch ?_ (fun _ => .inl) h.closed
      (hcompleted k rfl fun _ => id) (.inl rfl) (fun _ => .inl) fun _ => .inl
    exact h.admissions.keep k rfl rfl
  | some event =>
    have k : Keeps s (step capacity s (.assign (some event))) :=
      Keeps.of_gate (by simp) (hver _)
    have hnew : (step capacity s (.assign (some event))).event (s.versions.length + 1) =
        some event := by
      simp [step, Feed.event]
    have hlt : ∀ t ∈ s.tasks, t.version ≤ s.versions.length := fun t ht =>
      (h.admissions.needed ht).le_length
    refine h.next k (k.guarded h rfl fun _ => .inr) (fun _ => .inl)
      (fun _ _ => .inl) h.batch ?_ ?_ h.closed
      (hcompleted k rfl fun _ => mem_append_left _) (.inl rfl) (fun _ => .inl) fun _ => .inl
    · refine h.admissions.concat k rfl rfl hnew (.inl ⟨rfl, fun hin => ?_, fun t ht => ?_⟩)
      · have hle : s.versions.length + 1 ≤ s.versions.length :=
          (h.admissions.pending _ hin).le_length
        omega
      · have := hlt t ht
        show t.version ≠ s.versions.length + 1
        omega
    · intro t ht
      rcases mem_concat_iff.1 ht with ht | rfl
      · exact .inl ht
      · exact .inr trivial

/-- A version is completed; its admission has returned. -/
theorem Inv.complete (capacity v : Nat) : Inv (step capacity s (.complete v)) := by
  rw [step]
  split
  case isFalse => exact h
  case isTrue hv =>
    obtain ⟨hpos, hem⟩ := hv
    have hget : ∀ i, (s.versions.modify (v - 1) fun x => { x with completed := true })[i]? =
        if v - 1 = i then s.versions[i]?.map fun x => { x with completed := true }
        else s.versions[i]? := by
      intro i
      rw [getElem?_modify]
      split <;> simp
    have k : Keeps s { s with
        versions := s.versions.modify (v - 1) fun x => { x with completed := true } } := by
      refine Keeps.of_gate (Nat.le_of_eq (length_modify _ _ _).symm) ?_
      intro i x hx
      rw [hget, hx]
      split
      · exact ⟨_, rfl, rfl, fun _ => rfl⟩
      · exact ⟨x, rfl, rfl, id⟩
    have hlen : ∀ u, ({ s with versions := s.versions.modify (v - 1) fun x =>
        { x with completed := true } } : Feed E).event u = s.event u := by
      intro u
      by_cases hu : u ≤ s.versions.length
      · exact k.event u hu
      · have hlt : s.versions.length < u := by omega
        rw [event_eq_none_of_lt hlt]
        apply event_eq_none_of_lt
        rwa [length_modify]
    refine h.next k (k.guarded h rfl fun _ => .inr) (fun _ => .inl)
      (fun _ _ => .inl) h.batch ?_ (fun _ => .inl) h.closed ?_ (.inl rfl)
      (fun _ => .inl) fun _ => .inl
    · exact h.admissions.keep k rfl rfl
    intro i x hx hc hn
    rw [Needed, hlen] at hn
    rw [hget] at hx
    split at hx
    · -- the version that is completed now
      have hvi : v = i + 1 := by omega
      rw [emitted_iff, hvi] at hem
      rcases hem with hnone | hem
      · rw [hnone] at hn
        simp at hn
      · exact hem
    · obtain ⟨t, ht, hrest⟩ := h.completed i x hx hc hn
      exact ⟨t, ht, hrest⟩

/-- The drainer takes up a pending version. -/
theorem Inv.drain (capacity v : Nat) : Inv (step capacity s (.drain v)) := by
  rw [step]
  split
  case h_2 => exact h
  case h_1 event hev =>
    split
    case isFalse => exact h
    case isTrue hin =>
      have k : Keeps s { s with tasks := s.tasks ++ [⟨v, event, true, .probing⟩] } :=
        Keeps.of_same (fun _ => id) rfl
      refine h.next k (k.guarded h rfl fun _ => .inr) (fun _ => .inl)
        (fun _ _ => .inl) h.batch ?_ ?_ h.closed ?_ (.inl rfl)
        (fun _ => .inl) fun _ => .inl
      · exact h.admissions.concat k rfl rfl hev (.inr ⟨rfl, hin⟩)
      · intro t ht
        rcases mem_concat_iff.1 ht with ht | rfl
        · exact .inl ht
        · exact .inr rfl
      · intro i x hx hc hn
        obtain ⟨t, ht, hrest⟩ := h.completed i x hx hc hn
        exact ⟨t, mem_append_left _ ht, hrest⟩

/-! ## The writer -/

/-- A step outside the tasks. -/
theorem Inv.outside (k : Keeps s s') (hv : s'.versions = s.versions) (ht : s'.tasks = s.tasks)
    (hp : s'.pending = s.pending) (hpulls : ∀ p ∈ s'.pulls, p ∈ s.pulls ∨ PullOk s' p)
    (hguard : Guarded (Needed s') s'.line fun v => Written s' v ∨ Deferred s' v)
    (hline : ∀ m ∈ s'.line, m ∈ s.line ∨ MsgOk s' m)
    (hstore : ∀ v event, s'.store v = some event → s.store v = some event ∨ s'.event v = some event)
    (hbatch : ∀ b ∈ s'.batch, b.written = true → (s'.store b.version).isSome = true)
    (hclosed : s'.closed = true → s'.line = [])
    (hconfirmed : s'.confirmed = s.confirmed ∨ Safe s' s'.confirmed)
    (hwriter : ∀ w, s'.writer = .confirming w → s.writer = .confirming w ∨ Safe s' w) : Inv s' := by
  refine h.next k hguard hline hstore hbatch ?_ ?_ hclosed ?_ hconfirmed hwriter hpulls
  · exact h.admissions.keep k ht hp
  · rw [ht]
    exact fun _ => .inl
  · refine h.completed_next hv fun v hem => ?_
    rw [Emitted, ht]
    exact hem

/-- The accounts stay as they are, but for a wider gap. -/
theorem Inv.beside {queue permits batch writer gap confirmed pulls}
    (hg : ∀ v, Gapped s v → Gapped { s with gap } v)
    (hline : ({ s with queue, permits, batch, writer, gap, confirmed, pulls } : Feed E).line = s.line)
    (hpulls : ∀ p ∈ pulls, p ∈ s.pulls ∨ PullOk s p)
    (hbatch : ∀ b ∈ batch, b.written = true → b ∈ s.batch) (hconfirmed : Safe s confirmed)
    (hwriter : ∀ w, writer = .confirming w → s.writer = .confirming w) :
    Inv { s with queue, permits, batch, writer, gap, confirmed, pulls } := by
  have k := Keeps.of_same hg hline
  exact h.outside k rfl rfl rfl (fun p hin => (hpulls p hin).imp_right k.pullOk)
    (k.guarded h hline fun _ => .inr) (fun m hmem => .inl (hline ▸ hmem)) (fun _ _ => .inl)
    (fun b hb hw => h.batch b (hbatch b hb hw) hw) (fun hc => hline.trans (h.closed hc))
    (.inr (k.safe hconfirmed)) fun w hw => .inl (hwriter w hw)

/-- A message goes from the channel to the batch, or into the writer's hand. -/
theorem Inv.take : Inv (takeMsg s) := by
  unfold takeMsg
  split
  case h_1 v event rest hw hq =>
    have hline : ({ s with queue := rest, batch := s.batch ++ [⟨v, event, false⟩] } : Feed E).line =
        s.line := by
      simp [Feed.line, hw, hq, Writer.held]
    refine h.beside (fun _ => id) hline (fun _ => .inl) ?_ h.confirmed
      fun _ => id
    intro b hb hbw
    rcases mem_concat_iff.1 hb with hb | rfl
    · exact hb
    · simp at hbw
  case h_2 w rest hw hq =>
    have hline : ({ s with queue := rest, writer := .holding w } : Feed E).line = s.line := by
      simp [Feed.line, hw, hq, Writer.held]
    refine h.beside (fun _ => id) hline (fun _ => .inl) (fun _ hb _ => hb)
      h.confirmed ?_
    simp
  case h_3 => exact h

/-- The store has an event of the batch. -/
theorem Inv.put (j : Nat) : Inv (putEntry s j) := by
  unfold putEntry
  split
  case h_2 => exact h
  case h_1 b hj =>
    have hb : b ∈ s.batch := mem_of_getElem? hj
    have hbev : s.event b.version = some b.event := by
      refine h.line (.event b.version b.event) ?_
      rw [Feed.line, append_assoc]
      exact mem_append_left _ (mem_map.2 ⟨b, hb, rfl⟩)
    have hline : ({ s with
        store := update s.store b.version (some b.event)
        batch := s.batch.set j { b with written := true } } : Feed E).line = s.line := by
      rw [Feed.line, Feed.line, map_set_entry hj]
    have hsome : ∀ v, (s.store v).isSome = true →
        (update s.store b.version (some b.event) v).isSome = true := by
      intro v hv
      by_cases hvb : v = b.version
      · rw [hvb, update_self]
        rfl
      · rw [update_of_ne hvb]
        exact hv
    have k : Keeps s { s with
        store := update s.store b.version (some b.event)
        batch := s.batch.set j { b with written := true } } := by
      refine Keeps.of_versions rfl (fun _ => id) (fun v hv => hv.imp_left (hsome v)) ?_
        (fun _ => .inl) fun _ => .inl
      intro v hv
      rw [Account, hline]
      exact hv.imp_right (Or.imp_left (Or.imp_left (hsome v)))
    refine h.outside k rfl rfl rfl (fun _ => .inl) (k.guarded h hline fun _ => .inr)
      (fun m hm => .inl (hline ▸ hm)) ?_ ?_ (fun hc => hline ▸ h.closed hc) (.inl rfl)
      fun _ => .inl
    · intro v event hv
      by_cases hvb : v = b.version
      · refine .inr ?_
        have hv' : update s.store b.version (some b.event) v = some event := hv
        rw [hvb, update_self] at hv'
        rw [hvb, ← hv']
        exact hbev
      · have hv' : update s.store b.version (some b.event) v = some event := hv
        rw [update_of_ne hvb] at hv'
        exact .inl hv'
    · intro c hc hcw
      rcases mem_or_eq_of_mem_set hc with hold | rfl
      · exact hsome _ (h.batch c hold hcw)
      · show (update s.store b.version (some b.event) b.version).isSome = true
        rw [update_self]
        rfl

/-- The first event of the batch is written or its gap is marked. -/
theorem Inv.pop {b : Entry E} {rest : List (Entry E)} {gap : Option (Nat × Nat)}
    (hb : s.batch = b :: rest) (hg : ∀ v, Gapped s v → Gapped { s with batch := rest, gap } v)
    (hbw : Written { s with batch := rest, gap } b.version) :
    Inv { s with batch := rest, gap } := by
  have hline : s.line = .event b.version b.event ::
      ({ s with batch := rest, gap } : Feed E).line := by
    simp [Feed.line, hb]
  have hw : ∀ v, Written s v → Written { s with batch := rest, gap } v :=
    fun v hv => hv.imp_right (hg v)
  have k : Keeps s { s with batch := rest, gap } := by
    refine Keeps.of_versions rfl hg hw ?_ (fun _ => .inl) fun _ => .inl
    rintro v (hc | hwr | hin)
    · exact .inl hc
    · exact .inr (.inl (hw v hwr))
    · rw [hline, holds_event] at hin
      rcases hin with rfl | hin
      · exact .inr (.inl hbw)
      · exact .inr (.inr hin)
  refine h.outside k rfl rfl rfl (fun _ => .inl) ?_ (fun m hm => ?_) (fun _ _ => .inl) ?_ ?_
    (.inl rfl) fun _ => .inl
  · have hguard := h.guarded
    rw [hline] at hguard
    exact hguard.pop_event (fun v hv => hv.imp_left (hw v)) (.inl hbw)
  · rw [hline]
    exact .inl (mem_cons_of_mem _ hm)
  · intro c hc
    exact h.batch c (hb ▸ mem_cons_of_mem _ hc)
  · intro hc
    have hempty := h.closed hc
    rw [hline] at hempty
    simp at hempty

/-- The writer takes a result. -/
theorem Inv.result (ok : Bool) : Inv (takeResult s ok) := by
  unfold takeResult
  split
  case h_2 => exact h
  case h_1 b rest hb =>
    have hmem : b ∈ s.batch := by rw [hb]; exact mem_cons_self
    split
    · rename_i hok
      rw [Bool.and_eq_true] at hok
      exact h.pop hb (fun _ => id) (.inl (h.batch b hmem hok.2))
    have hbev : s.event b.version = some b.event := by
      refine h.line (.event b.version b.event) ?_
      simp [Feed.line, hb]
    have hneed : Needed s b.version := by rw [Needed, hbev]; rfl
    exact h.pop hb (fun v hv => ⟨_, rfl, mergeGap_covers s.gap _ v (.inl hv)⟩)
      (written_markGap hneed.pos rfl)

/-- **The clamp.**  What is left of the barrier is below every deferred version. -/
theorem Inv.clamp (hw : s.writer = .holding w) (hb : s.batch = []) :
    Inv { s with writer := .confirming (clampBarrier s w) } := by
  have hline : s.line = .barrier w ::
      ({ s with writer := .confirming (clampBarrier s w) } : Feed E).line := by
    simp [Feed.line, hb, hw, Writer.held]
  have hguard := h.guarded
  rw [hline] at hguard
  have hbar : MsgOk s (.barrier w) := h.line _ (by rw [hline]; exact mem_cons_self)
  have k : Keeps s { s with writer := .confirming (clampBarrier s w) } := by
    refine Keeps.of_versions rfl (fun _ => id) (fun _ => id) ?_ (fun _ => .inl) fun _ => .inl
    intro v hv
    rw [Account, hline, holds_barrier] at hv
    exact hv
  refine h.outside k rfl rfl rfl (fun _ => .inl) hguard.2 (fun m hm => ?_) (fun _ _ => .inl) h.batch
    ?_ (.inl rfl) ?_
  · rw [hline]
    exact .inl (mem_cons_of_mem _ hm)
  · intro hc
    have hempty := h.closed hc
    rw [hline] at hempty
    simp at hempty
  · intro w' hw'
    obtain rfl : clampBarrier s w = w' := by simpa using hw'
    have hle : clampBarrier s w ≤ w := by
      rw [clampBarrier]
      split <;> omega
    refine .inr ⟨Nat.le_trans hle hbar, fun v hv hn => ?_⟩
    rcases hguard.1 v (Nat.le_trans hv hle) hn with hwr | ⟨-, hne, hmin⟩
    · exact hwr
    · rw [clampBarrier, if_neg hne] at hv
      omega

/-- The writer confirms. -/
theorem Inv.confirm (hw : s.writer = .confirming w) :
    Inv { s with writer := .idle, confirmed := max s.confirmed w } := by
  have hline : ({ s with writer := .idle, confirmed := max s.confirmed w } : Feed E).line =
      s.line := by
    simp [Feed.line, hw, Writer.held]
  refine h.beside (fun _ => id) hline (fun _ => .inl) (fun _ hb _ => hb) ?_
    fun w' hw' => absurd hw' (by simp)
  show Safe s (max s.confirmed w)
  rcases Nat.le_total s.confirmed w with hle | hle
  · rw [Nat.max_eq_right hle]
    exact h.writer w hw
  · rw [Nat.max_eq_left hle]
    exact h.confirmed

/-- The writer ends; what was still sent to it is gone. -/
theorem Inv.close (hw : s.writer = .idle) (hb : s.batch = []) :
    Inv { s with closed := true, queue := [] } := by
  have hline : ({ s with closed := true, queue := [] } : Feed E).line = [] := by
    simp [Feed.line, hb, hw, Writer.held]
  have k : Keeps s { s with closed := true, queue := [] } :=
    Keeps.of_versions rfl (fun _ => id) (fun _ => id) (fun v _ => .inl rfl)
      (fun _ => .inl) fun _ => .inl
  refine h.outside k rfl rfl rfl (fun _ => .inl) ?_ (fun m hm => ?_) (fun _ _ => .inl) h.batch
    (fun _ => hline) (.inl rfl) fun _ => .inl
  · rw [hline]
    trivial
  · rw [hline] at hm
    simp at hm

/-- A gap is recorded. -/
theorem Inv.recordGap (g : Nat × Nat) : Inv { s with gap := some (mergeGap s.gap g) } :=
  h.beside (gapped_mergeGap _ rfl) rfl (fun _ => .inl) (fun _ hb _ => hb)
    h.confirmed fun _ => id

/-! ## Pulls -/

/-- A pull goes on and touches nothing else but the granted slots. -/
theorem Inv.setPull {permits : Nat} (hok : PullOk s p) : Inv { s.setPull i p with permits } := by
  refine h.beside (fun _ => id) rfl ?_ (fun _ hb _ => hb) h.confirmed
    fun _ => id
  intro q hq
  rcases mem_or_eq_of_mem_set hq with hold | rfl
  · exact .inl hold
  · exact .inr hok

/-- **A barrier for the watermark**: what it vouches for was handed to the journal. -/
theorem Inv.sendBarrier {permits : Nat} (hw : w ≤ s.watermark) (hopen : s.closed ≠ true) :
    Inv { s.setPull i { p with stage := .waiting w } with
      queue := s.queue ++ [.barrier w], permits } := by
  have hline : ({ s.setPull i { p with stage := .waiting w } with
      queue := s.queue ++ [.barrier w], permits } : Feed E).line =
      s.line ++ [.barrier w] := by
    simp [Feed.line, Feed.setPull]
  have k : Keeps s { s.setPull i { p with stage := .waiting w } with
      queue := s.queue ++ [.barrier w], permits } := by
    refine Keeps.of_versions rfl (fun _ => id) (fun _ => id) ?_ (fun _ => .inl) (fun _ => .inl)
    intro v hv
    rw [Account, hline, holds_append]
    exact hv.imp_right (Or.imp_right .inl)
  refine h.outside k rfl rfl rfl ?_ ?_ ?_ (fun _ _ => .inl) h.batch
    (fun hc => absurd hc hopen) (.inl rfl) fun _ => .inl
  · intro q hq
    rcases mem_or_eq_of_mem_set hq with hold | rfl
    · exact .inl hold
    · exact .inr hw
  · rw [hline, guarded_concat_barrier]
    refine ⟨h.guarded, fun v hv hn => ?_⟩
    obtain ⟨t, ht, rfl, hd, hr⟩ := h.emitted (Nat.le_trans hv hw) hn
    have hok := h.tasks t ht
    rw [TaskOk, hr] at hok
    rcases hok hd with hdef | hc | hwr | hin
    · exact .inl (.inr hdef)
    · exact absurd hc hopen
    · exact .inl (.inl hwr)
    · exact .inr hin
  · intro m hm
    rw [hline] at hm
    rcases mem_concat_iff.1 hm with hm | rfl
    · exact .inl hm
    · exact .inr hw

end

/-! ### The range read -/

variable {a c : Nat}

theorem eventsBetween_self (s : Feed E) (h : c ≤ a) : eventsBetween s a c = [] := by
  rw [eventsBetween, Nat.sub_eq_zero_of_le h]
  rfl

/-- The events of two stretches of versions, one behind the other. -/
theorem eventsBetween_append (s : Feed E) {b : Nat} (hab : a ≤ b) (hbc : b ≤ c) :
    eventsBetween s a c = eventsBetween s a b ++ eventsBetween s b c := by
  have hsplit : range' a (c - a) = range' a (b - a) ++ range' b (c - b) := by
    have hb : a + 1 * (b - a) = b := by omega
    have hc : c - a = b - a + (c - b) := by omega
    rw [hc, ← range'_append, hb]
  rw [eventsBetween, hsplit, filterMap_append]
  rfl

theorem eventsBetween_isPrefix (s : Feed E) {b : Nat} (hbc : b ≤ c) :
    eventsBetween s a b <+: eventsBetween s a c := by
  by_cases hab : a ≤ b
  · rw [eventsBetween_append s hab hbc]
    exact prefix_append _ _
  · rw [eventsBetween_self s (by omega)]
    exact nil_prefix

theorem eventsBetween_succ (s : Feed E) {event : E} (h : s.event v = some event) :
    eventsBetween s v (v + 1) = [(v, event)] := by
  rw [eventsBetween]
  simp [h]

variable {bound : Nat}

/-- A stretch that is written and of which nothing is in the store has no events, or a gap. -/
theorem eventsBetween_unwritten {d : Nat} (hsafe : Safe s bound) (hd : d ≤ bound + 1)
    (hnone : ∀ u, c ≤ u → u < d → s.store u = none) :
    eventsBetween s c d = [] ∨ ∃ v, c ≤ v ∧ Gapped s v := by
  by_cases hgap : ∃ v, c ≤ v ∧ Gapped s v
  · exact .inr hgap
  refine .inl (filterMap_eq_nil_iff.2 ?_)
  intro v hv
  rw [mem_range'_1] at hv
  have hev : s.event v = none := by
    by_contra hne
    have hneed : Needed s v := Option.isSome_iff_ne_none.2 hne
    rcases hsafe.2 v (by omega) hneed with hst | hg
    · rw [hnone v hv.1 (by omega)] at hst
      simp at hst
    · exact hgap ⟨v, hv.1, hg⟩
  rw [hev]
  rfl

theorem takeWhile_concat_neg {α : Type*} {p : α → Bool} (l : List α) {x : α} (h : p x = false) :
    (l ++ [x]).takeWhile p = l.takeWhile p := by
  induction l with
  | nil => simp [h]
  | cons y l ih => simp only [cons_append, takeWhile_cons, ih]

/-- Nothing is stored between. -/
theorem isNext_iff : isNext s c v = true ↔ c ≤ v ∧ ∀ u, c ≤ u → u < v → s.store u = none := by
  rw [isNext, Bool.and_eq_true, decide_eq_true_iff, all_eq_true]
  refine and_congr_right fun hcv => ⟨fun h u hu huv => ?_, fun h u hu => ?_⟩
  · exact Option.isNone_iff_eq_none.1 (h u (mem_range'_1.2 ⟨hu, by omega⟩))
  · rw [mem_range'_1] at hu
    exact Option.isNone_iff_eq_none.2 (h u hu.1 (by omega))

/-- The read comes to the next entry. -/
theorem Inv.scanned (h : Inv s) {cursor : Nat} {event : E}
    (hstage : p.stage = .reading bound cursor raw) (hok : PullOk s p) (hev : s.store v = some event)
    (hnext : isNext s cursor v = true) :
    PullOk s { p with stage := .reading bound (v + 1) (raw ++ [(v, event)]) } := by
  rw [PullOk, hstage] at hok
  obtain ⟨hsafe, hfrom, hlt, hread⟩ := hok
  obtain ⟨hcv, hnone⟩ := isNext_iff.1 hnext
  refine ⟨hsafe, by show p.fromVersion ≤ v + 1; omega, ?_, ?_⟩
  · intro x hx
    rcases mem_concat_iff.1 hx with hx | rfl
    · exact Nat.lt_succ_of_lt (Nat.lt_of_lt_of_le (hlt x hx) hcv)
    · omega
  rcases hread with heq | hgap
  swap
  · exact .inr hgap
  have hgap_of : (∃ u, cursor ≤ u ∧ Gapped s u) → ∃ u, p.fromVersion ≤ u ∧ Gapped s u := by
    rintro ⟨u, hu, hg⟩
    exact ⟨u, Nat.le_trans hfrom hu, hg⟩
  by_cases hvb : v ≤ bound
  · -- within the bound: all that was read so far is below it
    have hall : ∀ x ∈ raw, decide (x.1 ≤ bound) = true := by
      intro x hx
      have := hlt x hx
      exact decide_eq_true (by omega)
    have hraw : raw = eventsBetween s p.fromVersion cursor := by
      rwa [Nat.min_eq_left (by omega), takeWhile_eq_self_iff.2 hall] at heq
    rcases eventsBetween_unwritten hsafe (by omega) hnone with hempty | hgap
    · refine .inl ?_
      show (raw ++ [(v, event)]).takeWhile _ = eventsBetween s p.fromVersion _
      rw [Nat.min_eq_left (by omega), takeWhile_append_of_pos hall,
        takeWhile_cons_of_pos (by simpa using hvb), takeWhile_nil,
        eventsBetween_append s (Nat.le_trans hfrom hcv) (Nat.le_succ v),
        eventsBetween_append s hfrom hcv, hempty, append_nil, ← hraw,
        eventsBetween_succ s (h.store v event hev)]
    · exact .inr (hgap_of hgap)
  · -- beyond the bound nothing is added
    have hdrop : (raw ++ [(v, event)]).takeWhile (fun x => decide (x.1 ≤ bound)) =
        raw.takeWhile (fun x => decide (x.1 ≤ bound)) :=
      takeWhile_concat_neg raw (by simpa using hvb)
    show (raw ++ [(v, event)]).takeWhile _ = eventsBetween s p.fromVersion _ ∨ _
    rw [hdrop, heq, Nat.min_eq_right (by omega : bound + 1 ≤ v + 1)]
    by_cases hcb : cursor ≤ bound
    · rw [Nat.min_eq_left (by omega)]
      rcases eventsBetween_unwritten hsafe (Nat.le_refl _)
        (fun u hu hub => hnone u hu (by omega)) with hempty | hgap
      · refine .inl ?_
        rw [eventsBetween_append s hfrom (by omega : cursor ≤ bound + 1), hempty, append_nil]
      · exact .inr (hgap_of hgap)
    · rw [Nat.min_eq_right (by omega)]
      exact .inl rfl

/-- The read stops: what is within the bound is a beginning of the events. -/
theorem stopped {cursor : Nat} (hstage : p.stage = .reading bound cursor raw) (hok : PullOk s p) :
    PullOk s { p with
      stage := .read bound (raw.takeWhile fun x => decide (x.1 ≤ bound)) } := by
  rw [PullOk, hstage] at hok
  obtain ⟨hsafe, hfrom, -, hread⟩ := hok
  refine ⟨hsafe, hread.imp_left fun heq => ?_⟩
  show _ <+: eventsBetween s p.fromVersion (bound + 1)
  rw [heq]
  exact eventsBetween_isPrefix s (Nat.min_le_right _ _)

/-- The look at the gap comes after the read. -/
theorem checked {events : List (Nat × E)} (hstage : p.stage = .read bound events)
    (hok : PullOk s p) :
    PullOk s { p with stage := .done ⟨bound, events, gapAt s.gap p.fromVersion⟩ } := by
  rw [PullOk, hstage] at hok
  refine ⟨hok.1, fun hnone => hok.2.resolve_right ?_⟩
  rintro ⟨v, hv, ⟨first, through⟩, hg, -, hthrough⟩
  have hgap : gapAt s.gap p.fromVersion = none := hnone
  have hle : p.fromVersion ≤ through := by omega
  rw [hg, gapAt, if_pos hle] at hgap
  simp at hgap

/-- A pull starts reading. -/
theorem Inv.startReading (h : Inv s) (hb : bound ≤ s.confirmed) :
    PullOk s (p.startReading bound) := by
  refine ⟨h.confirmed.mono hb, Nat.le_refl _, fun x hx => absurd hx (by simp), .inl ?_⟩
  show [] = eventsBetween s p.fromVersion (min p.fromVersion (bound + 1))
  rw [eventsBetween_self s (Nat.min_le_left _ _)]

/-- A pull reads up to its bound. -/
theorem boundOf_le (through w : Nat) (clamp : Option Nat) : boundOf through w clamp ≤ through := by
  cases clamp with
  | none => exact Nat.min_le_left _ _
  | some r => exact Nat.le_trans (Nat.min_le_left _ _) (Nat.min_le_left _ _)

/-- **One step of a pull.** -/
theorem Inv.pullStep (h : Inv s) {capacity i : Nat} (hi : s.pulls[i]? = some p) (e : Event E) :
    Inv (ChangeFeed.pullStep capacity s i p e) := by
  have hok := h.pulls p (mem_of_getElem? hi)
  unfold ChangeFeed.pullStep
  split
  case h_1 w hstage =>
    split
    · rw [PullOk, hstage] at hok
      exact h.setPull hok
    · exact h
  case h_2 w hstage =>
    split
    · exact h
    · rename_i hopen
      rw [PullOk, hstage] at hok
      exact h.sendBarrier hok hopen
  case h_3 clamp w hstage | h_4 clamp w hstage =>
    split
    · rename_i hw
      exact h.setPull (h.startReading (Nat.le_trans (boundOf_le w w clamp) hw))
    · exact h
  case h_5 clamp w hstage | h_6 clamp w hstage | h_7 clamp w hstage =>
    exact h.setPull (h.startReading (boundOf_le _ w clamp))
  case h_8 v bound cursor raw hstage =>
    split
    · rename_i event hev
      split
      · rename_i hcond
        rw [Bool.and_eq_true] at hcond
        exact h.setPull (h.scanned hstage hok hev hcond.2)
      · exact h
    · exact h
  case h_9 bound cursor raw hstage => exact h.setPull (stopped hstage hok)
  case h_10 bound cursor raw hstage =>
    rw [PullOk, hstage] at hok
    refine h.setPull ⟨hok.1, fun hnone => ?_⟩
    simp at hnone
  case h_11 bound events hstage => exact h.setPull (checked hstage hok)
  case h_12 => exact h

/-- A new pull samples the watermark. -/
theorem Inv.pull (h : Inv s) (a limit : Nat) :
    Inv { s with pulls := s.pulls ++ [⟨a, limit, .sampled s.watermark⟩] } := by
  refine h.beside (fun _ => id) rfl ?_ (fun _ hb _ => hb) h.confirmed
    fun _ => id
  intro q hq
  rcases mem_concat_iff.1 hq with hq | rfl
  · exact .inl hq
  · exact .inr (Nat.le_refl s.watermark)

/-! ## Runs -/

/-- **One step keeps the invariant** if it is in turn. -/
theorem Inv.step (h : Inv s) (capacity : Nat) {e : Event E} (he : InTurn s e) :
    Inv (step capacity s e) := by
  have hpull : ∀ i (f : Pull E → Feed E), (∀ p, s.pulls[i]? = some p → Inv (f p)) →
      Inv (s.onPull i f) := by
    intro i f hf
    rw [Feed.onPull]
    split
    · exact hf _ ‹_›
    · exact h
  have htask : ∀ i (f : Task E → Feed E), (∀ t, s.tasks[i]? = some t → Inv (f t)) →
      Inv (s.onTask i f) := by
    intro i f hf
    rw [Feed.onTask]
    split
    · exact hf _ ‹_›
    · exact h
  cases e with
  | assign ev => exact h.assign capacity ev
  | complete v => exact h.complete capacity v
  | drain v => exact h.drain capacity v
  | access i => exact htask i _ fun t hi => h.access hi he
  | unrepairable i =>
    refine htask i _ fun t hi => ?_
    split
    · rename_i hstage
      exact h.markGap hi (by simp [hstage])
    · exact h
  | visit i k =>
    refine htask i _ fun t hi => ?_
    split
    · rename_i acc hstage
      split
      · have hok := h.tasks t (mem_of_getElem? hi)
        rw [TaskOk, hstage] at hok
        exact h.setTask hi (by simp [hstage]) (by simp) hok
      · exact h
    · exact h
  | take => exact h.take
  | put j => exact h.put j
  | result ok => exact h.result ok
  | recordGap first through => exact h.recordGap (first, through)
  | pull a limit => exact h.pull a limit
  | reserve i | barrier i | confirmed i _ | giveUp i _ | scan i _ | stop i | rangeFails i
  | check i => exact hpull i _ fun p hi => h.pullStep hi _
  | clamp | confirm | close =>
    rw [ChangeFeed.step]
    split
    · first | exact h.clamp ‹_› ‹_› | exact h.confirm ‹_› | exact h.close ‹_› ‹_›
    · exact h

/-- An opened feed. -/
theorem opened_inv (gap : Option (Nat × Nat)) : Inv (opened gap : Feed E) := by
  have hevent : ∀ v, (opened gap : Feed E).event v = none := by
    intro v
    rw [Feed.event]
    split <;> rfl
  constructor
  · trivial
  · simp [Feed.line, opened, Writer.held]
  · simp [opened]
  · simp [opened]
  · exact ⟨by simp [opened], by simp [opened], List.Pairwise.nil, by simp [opened]⟩
  · simp [opened]
  · intro _
    rfl
  · simp [opened]
  · refine ⟨Nat.zero_le _, fun v _ hn => ?_⟩
    rw [Needed, hevent] at hn
    simp at hn
  · simp [opened]
  · simp [opened]

/-- Where a consumer goes on: behind the last event it was given. -/
def resumeAt (a : Nat) (events : List (Nat × E)) : Nat :=
  match events.getLast? with
  | some x => x.1 + 1
  | none => a

def Pull.events (p : Pull E) : List (Nat × E) :=
  match p.stage with
  | .done r => r.events
  | _ => []

/-- The pulls of a consumer that was never told of a gap. -/
def Resumed : Nat → List (Pull E) → Prop
  | _, [] => True
  | a, p :: ps => p.fromVersion = a ∧
      (∃ r, p.stage = .done r ∧ r.gapAt = none) ∧ Resumed (resumeAt a p.events) ps

/-- A beginning of the events is all of them up to where the consumer goes on. -/
theorem eq_of_prefix {events : List (Nat × E)} {n : Nat}
    (h : events <+: eventsBetween s a (a + n)) :
    events = eventsBetween s a (resumeAt a events) ∧ a ≤ resumeAt a events := by
  induction n with
  | zero =>
    rw [Nat.add_zero, eventsBetween_self s (Nat.le_refl a)] at h
    obtain rfl := prefix_nil.1 h
    exact ⟨(eventsBetween_self s (Nat.le_refl a)).symm, Nat.le_refl a⟩
  | succ n ih =>
    have hsplit := eventsBetween_append s (Nat.le_add_right a n) (Nat.le_succ (a + n))
    cases hev : s.event (a + n) with
    | none =>
      have hempty : eventsBetween s (a + n) (a + n + 1) = [] := by
        rw [eventsBetween]
        simp [hev]
      rw [← Nat.add_assoc, hsplit, hempty, append_nil] at h
      exact ih h
    | some event =>
      rw [eventsBetween_succ s hev] at hsplit
      rw [← Nat.add_assoc, hsplit] at h
      rcases prefix_concat_iff.1 h with hall | hless
      · have hresume : resumeAt a events = a + n + 1 := by
          rw [hall, resumeAt, getLast?_concat]
        rw [hresume]
        exact ⟨hall.trans hsplit.symm, by omega⟩
      · exact ih hless

theorem resumeAt_append (a : Nat) (xs ys : List (Nat × E)) :
    resumeAt a (xs ++ ys) = resumeAt (resumeAt a xs) ys := by
  rw [resumeAt, resumeAt, getLast?_append]
  cases ys.getLast? with
  | some y => rfl
  | none => rfl

/-- Events come in order of their versions. -/
theorem eventsBetween_ascending (s : Feed E) (a c : Nat) :
    (eventsBetween s a c).Pairwise fun x y => x.1 < y.1 := by
  rw [eventsBetween, pairwise_filterMap]
  refine List.Pairwise.imp ?_ (pairwise_lt_range' 1)
  intro u v huv x hx y hy
  obtain ⟨_, _, rfl⟩ := Option.map_eq_some_iff.1 hx
  obtain ⟨_, _, rfl⟩ := Option.map_eq_some_iff.1 hy
  exact huv

/-- What the consumer has been given. -/
theorem Inv.resumed (h : Inv s) {ps : List (Pull E)} (hps : ∀ p ∈ ps, p ∈ s.pulls)
    (hres : Resumed a ps) :
    ps.flatMap Pull.events = eventsBetween s a (resumeAt a (ps.flatMap Pull.events)) ∧
      a ≤ resumeAt a (ps.flatMap Pull.events) := by
  induction ps generalizing a with
  | nil => exact ⟨(eventsBetween_self s (Nat.le_refl a)).symm, Nat.le_refl a⟩
  | cons p ps ih =>
    obtain ⟨rfl, ⟨r, hr, hgap⟩, hrest⟩ := hres
    have hok := h.pulls p (hps p mem_cons_self)
    rw [PullOk, hr] at hok
    have hevents : p.events = r.events := by rw [Pull.events, hr]
    have hprefix : p.events <+: eventsBetween s p.fromVersion (p.fromVersion + (r.bound + 1)) := by
      rw [hevents]
      exact (hok.2 hgap).trans (eventsBetween_isPrefix s (Nat.le_add_left _ _))
    obtain ⟨hfirst, hle⟩ := eq_of_prefix hprefix
    obtain ⟨hothers, hle'⟩ := ih (fun q hq => hps q (mem_cons_of_mem _ hq)) hrest
    rw [flatMap_cons, resumeAt_append]
    refine ⟨?_, Nat.le_trans hle hle'⟩
    rw [eventsBetween_append s hle hle', ← hfirst, ← hothers]

/-- **Pulls skip nothing.**  In a run whose steps are in turn, a pull that reports no gap has
a bound up to which all versions are completed, and returns in ascending order a beginning of
the events of all versions from its start to the bound.  A consumer that resumes behind the
last event has been given each event up to there exactly once. -/
theorem bounded_pulls_skip_nothing (capacity : Nat) (gap : Option (Nat × Nat))
    (es : List (Event E)) (hes : Along (step capacity) InTurn (opened gap) es) :
    (∀ p ∈ (run (step capacity) (opened gap) es).pulls, ∀ r, p.stage = .done r →
      r.gapAt = none → r.bound ≤ (run (step capacity) (opened gap) es).watermark ∧
        r.events.Pairwise (fun x y => x.1 < y.1) ∧
        r.events <+: eventsBetween (run (step capacity) (opened gap) es) p.fromVersion
          (r.bound + 1)) ∧
    ∀ a ps, (∀ p ∈ ps, p ∈ (run (step capacity) (opened gap) es).pulls) → Resumed a ps →
      ps.flatMap Pull.events = eventsBetween (run (step capacity) (opened gap) es) a
        (resumeAt a (ps.flatMap Pull.events)) := by
  have hinv : Inv (run (step capacity) (opened gap) es) :=
    along_invariant (fun _ _ h he => h.step capacity he) (opened_inv gap) hes
  constructor
  · intro p hp r hr hgap
    have hok := hinv.pulls p hp
    rw [PullOk, hr] at hok
    have hprefix := hok.2 hgap
    exact ⟨hok.1.1, (eventsBetween_ascending _ _ _).sublist hprefix.sublist, hprefix⟩
  · intro a ps hps hres
    exact (hinv.resumed hps hres).1

/-- With two slots: versions 1 and 2 fill the channel, 3 is deferred, and 4 comes in after
the writer has taken a message. -/
def deferral : List (Event Nat) :=
  [.assign (some 10), .access 0, .assign (some 20), .access 1, .assign (some 30), .access 2,
    .access 2, .access 2, .access 2, .take, .assign (some 40), .access 3, .take, .take,
    .put 0, .put 1, .put 2, .result true, .result true, .result true,
    .complete 1, .complete 2, .complete 3, .complete 4]

/-- The drainer sends the deferred event and retires its version. -/
def repair : List (Event Nat) := [.drain 3, .access 4, .access 4, .access 4, .access 4]

/-- A pull asks for a confirmation. -/
def ask : List (Event Nat) := [.pull 1 10, .reserve 0, .barrier 0]

/-- The writer takes the event of the drainer before the barrier. -/
def repairedRun : List (Event Nat) :=
  deferral ++ repair ++ ask ++ [.take, .put 0, .result true, .take, .clamp, .confirm,
    .confirmed 0 none, .scan 0 1, .scan 0 2, .scan 0 3, .scan 0 4, .stop 0, .check 0]

/-- A deferred event is sent again in time: the pull from 1 returns all four events, which are the
events of the versions up to its bound. -/
theorem bounded_pulls_skip_nothing_repaired :
    (run (step 2) (opened none) repairedRun).pulls =
      [⟨1, 10, .done ⟨4, [(1, 10), (2, 20), (3, 30), (4, 40)], none⟩⟩] ∧
    [(1, 10), (2, 20), (3, 30), (4, 40)] <+:
      eventsBetween (run (step 2) (opened none) repairedRun) 1 5 := by
  have hpulls : (run (step 2) (opened none) repairedRun).pulls =
      [⟨1, 10, .done ⟨4, [(1, 10), (2, 20), (3, 30), (4, 40)], none⟩⟩] := by decide +kernel
  refine ⟨hpulls, ?_⟩
  have hall := (bounded_pulls_skip_nothing 2 none repairedRun (by decide +kernel)).1
  rw [hpulls] at hall
  exact (hall _ (mem_singleton.2 rfl) _ rfl rfl).2.2

/-! ## A barrier overtakes a deferred event -/

/-- Version 1 has no event; the barriers of `n` pulls stand in the channel. -/
def crowd (n : Nat) : List (Event E) :=
  [.assign none, .complete 1] ++ (range n).flatMap fun i => [.pull 1 10, .reserve i, .barrier i]

def crowded (n : Nat) : Feed E :=
  { (opened none : Feed E) with
    versions := [⟨none, true⟩]
    queue := replicate n (.barrier 1)
    pulls := replicate n ⟨1, 10, .waiting 1⟩ }

/-- The line fills with barriers. -/
theorem run_crowd {capacity : Nat} (n : Nat) (hn : n ≤ capacity) :
    run (step capacity) (opened none) (crowd n) = (crowded n : Feed E) := by
  induction n with
  | zero => rfl
  | succ n ih =>
    have hroom : n < capacity := hn
    rw [crowd, range_succ, flatMap_append, ← append_assoc, run_append, ← crowd, ih (by omega)]
    simp [crowded, opened, step, Feed.watermark, Feed.onPull, pullStep, Feed.hasRoom, Feed.setPull,
      hroom, replicate_succ', set_append_right]

/-- The writer goes through barriers that tell nothing new. -/
theorem run_take_barriers (capacity n : Nat) {s : Feed E} {w : Nat} (hw : s.writer = .idle)
    (hb : s.batch = []) (hc : clampBarrier s w ≤ s.confirmed) :
    run (step capacity) { s with queue := replicate n (.barrier w) }
      (replicate n [.take, .clamp, .confirm]).flatten = { s with queue := [] } := by
  induction n with
  | zero => rfl
  | succ n ih =>
    rw [replicate_succ, replicate_succ, flatten_cons, run_append, ← ih]
    congr 1
    have hmax : max s.confirmed (clampBarrier { s with
        queue := replicate n (.barrier w), batch := [], writer := .holding w } w) = s.confirmed :=
      max_eq_left hc
    simp only [run_cons, run_nil, step, takeMsg, hw, hb, hmax]

/-- Version 2 finds the channel full, and the writer confirms version 1. -/
def crowdedOut (e₂ : E) : List (Event E) :=
  [.assign (some e₂), .access 0, .access 0, .access 0, .access 0, .take, .clamp, .confirm]

def deferring (n : Nat) (e₂ : E) : Feed E :=
  { (opened none : Feed E) with
    versions := [⟨none, true⟩, ⟨some e₂, false⟩]
    tasks := [⟨2, e₂, false, .returned⟩]
    pending := [2]
    minVersion := 2
    confirmed := 1
    pulls := replicate (n + 1) ⟨1, 10, .waiting 1⟩ }

/-- An event finds the line full and is deferred. -/
theorem run_crowdedOut (n : Nat) (e₂ : E) :
    run (step (n + 1)) (crowded (n + 1)) (crowdedOut e₂) =
      { deferring n e₂ with queue := replicate n (.barrier 1) } := by
  simp [crowded, opened, crowdedOut, step, Feed.onTask, access, Feed.hasRoom, Feed.setTask, retry,
    takeMsg, clampBarrier, deferring, replicate_succ]

/-- Version 3 is stored, and a pull sends its barrier.  The writer has taken the barrier when the
deferred event is sent, and confirms it before it comes to the event. -/
def overtaken (n : Nat) (e₃ : E) : List (Event E) :=
  [.assign (some e₃), .access 1, .take, .put 0, .result true, .complete 2, .complete 3,
    .pull 1 10, .reserve (n + 1), .barrier (n + 1), .take,
    .drain 2, .access 2, .access 2, .access 2, .access 2, .clamp, .confirm,
    .confirmed (n + 1) none, .scan (n + 1) 3, .stop (n + 1), .check (n + 1)]

/-- A run with a channel of `n + 1` slots. -/
def overtakenRun (n : Nat) (e₂ e₃ : E) : List (Event E) :=
  crowd (n + 1) ++ (crowdedOut e₂ ++
    ((replicate n [.take, .clamp, .confirm]).flatten ++ overtaken n e₃))

/-- **With a channel of any capacity a pull can skip an event**: it returns version 3, reports no
gap, and lacks version 2. -/
theorem pull_skips_event (n : Nat) (e₂ e₃ : E) :
    let s := run (step (n + 1)) (opened none) (overtakenRun n e₂ e₃)
    ⟨1, 10, .done ⟨3, [(3, e₃)], none⟩⟩ ∈ s.pulls ∧ eventsBetween s 1 4 = [(2, e₂), (3, e₃)] := by
  intro s
  have hs : s = run (step (n + 1)) (deferring n e₂) (overtaken n e₃) := by
    show run _ _ (overtakenRun n e₂ e₃) = _
    rw [overtakenRun, run_append, run_crowd _ le_rfl, run_append, run_crowdedOut, run_append,
      run_take_barriers _ _ rfl rfl le_rfl]
    rfl
  rw [hs]
  simp [deferring, opened, overtaken, step, Feed.onTask, Feed.onPull, access, Feed.hasRoom,
    Feed.setTask, Feed.setPull, takeMsg, clampBarrier, putEntry, takeResult, Feed.emitted,
    Feed.event, Feed.watermark, pullStep, Pull.startReading, boundOf, isNext, gapAt, eventsBetween,
    set_append_right, range'_succ]

/-- The run at `JOURNAL_CHANNEL_CAPACITY`. -/
theorem bounded_pull_skips_event :
    let s := run (step 4096) (opened none) (overtakenRun 4095 20 30)
    ⟨1, 10, .done ⟨3, [(3, 30)], none⟩⟩ ∈ s.pulls ∧ eventsBetween s 1 4 = [(2, 20), (3, 30)] :=
  pull_skips_event 4095 20 30

end ShamirDb.ChangeFeed
