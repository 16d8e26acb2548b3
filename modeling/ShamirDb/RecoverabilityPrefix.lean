/-
# Soundness of the recoverable prefix

The invariant of `RecoverabilityCoverage` is kept by every access: of the calls beside the
worker, of the worker's round, and by the start of either.  It follows for every run, and
gives the two halves of the result: what is in the prefix has evidence, and at rest nothing
with evidence is missing from it.
-/
import ShamirDb.RecoverabilityCoverage

namespace ShamirDb.RecoverabilityCoverage

open Machine Function List Option

/-! ## Steps of the calls beside the worker -/

variable {initial i : Nat} {s s' : System} {versions : List Nat} {task : Task} {r : Round}
  {gen : Nat}

/-- The invariant of a later state, from what its step has to show. -/
theorem Inv.leads {s : System} (h : Inv initial s) (hleads : s.Leads s')
    (hsound : ∀ v, s.coverage.recoverable < v → v ≤ s'.coverage.recoverable → s'.Evidence v)
    (hslots : ∀ v g, s'.coverage.slots v = some g → s.coverage.slots v = some g ∨
      (g = 0 ∧ s'.Called (.settle v)) ∨
      (0 < g ∧ g ≤ s'.coverage.generation + 1 ∧ s'.Promised v g))
    (hsynced : s'.coverage.syncedGeneration ≤ s'.coverage.generation)
    (hcaptured : ∀ v ∈ s'.captured, v ∈ s.captured ∨ s'.coverage.Held v s'.coverage.generation)
    (hfsynced : ∀ v ∈ s'.fsynced, v ∈ s'.captured ∧ s'.coverage.Held v s'.effectiveSynced)
    (htasks : ∀ i task, s'.tasks i = some task → task.Ok s')
    (hworker : ∀ r, s'.worker = some r → r.Ok s')
    (hwatched : s'.coverage.Covered (s'.coverage.recoverable + 1) → s'.Watched) :
    Inv initial s' where
  start_le := h.start_le.trans hleads.moves.recoverable
  sound := by
    intro v hlo hhi
    by_cases hle : v ≤ s.coverage.recoverable
    · exact hleads.evidence (h.sound v hlo hle)
    · exact hsound v (by omega) hhi
  slots := by
    intro v g hv
    rcases hslots v g hv with hold | hnew
    · rcases h.slots v g hold with ⟨hg, hcalled⟩ | ⟨hg, hpromised⟩
      · exact .inl ⟨hg, hleads.called _ hcalled⟩
      · exact .inr ⟨hg, hleads.promised v g hpromised⟩
    · exact hnew.imp_right fun hnew => ⟨hnew.1, hnew.2.2⟩
  slots_le := by
    intro v g hv
    rcases hslots v g hv with hold | hzero | hnew
    · exact (h.slots_le v g hold).trans (Nat.succ_le_succ hleads.moves.generation)
    · omega
    · exact hnew.2.1
  synced_le := hsynced
  captured := by
    intro v hv
    rcases hcaptured v hv with hold | hnew
    · exact (hleads.moves.held _ _ (h.captured v hold)).mono hleads.moves.generation
    · exact hnew
  fsynced := hfsynced
  tasks := htasks
  worker := hworker
  watched := hwatched

/-- Calls are not forgotten. -/
theorem called_update (hi : s.tasks i = some task) (pc : Pc) (c : Coverage) {call : Call}
    (h : s.Called call) :
    { s with coverage := c, tasks := update s.tasks i (some ⟨task.call, pc⟩) }.Called
      call := by
  obtain ⟨j, qc, hj⟩ := h
  by_cases hij : j = i
  · subst hij
    cases hi.symm.trans hj
    exact ⟨j, pc, by simp⟩
  · exact ⟨j, qc, by simp [update_of_ne hij, hj]⟩

/-- The access of a call keeps the counters of the worker, and adds no slot but that of the
version it settles. -/
theorem access_moves (hok : task.Ok s) :
    s.coverage.Moves (access s.coverage task.pc).1 ∧
      (access s.coverage task.pc).1.generation = s.coverage.generation ∧
      (access s.coverage task.pc).1.syncedGeneration = s.coverage.syncedGeneration ∧
      ∀ v g, (access s.coverage task.pc).1.slots v = some g →
        s.coverage.slots v = some g ∨ (g = 0 ∧ task.call = .settle v) := by
  obtain ⟨call, pc⟩ := task
  cases pc with
  | settleLoad => exact ⟨.refl _, rfl, rfl, fun _ _ => .inl⟩
  | settleInsert version =>
    refine ⟨s.coverage.moves_insert version, rfl, rfl, fun v g hv => ?_⟩
    by_cases hvv : v = version
    · subst hvv
      simp only [access, Coverage.insert, update_self, some.injEq] at hv
      exact .inr ⟨hv.symm, hok⟩
    · simp only [access, Coverage.insert, update_of_ne hvv] at hv
      exact .inl hv
  | certifyMax through =>
    exact ⟨s.coverage.moves_recoverable (le_max_left _ _), rfl, rfl, fun _ _ => .inl⟩
  | advance a =>
    have heff := Advance.effect hok.1
    exact ⟨heff.moves, heff.generation, heff.synced, fun v g hv => .inl (heff.slots v g hv)⟩
  | returned => exact ⟨.refl _, rfl, rfl, fun _ _ => .inl⟩

/-- An access of a call. -/
theorem Inv.exec (h : Inv initial s) (hi : s.tasks i = some task) :
    Inv initial { s with
      coverage := (access s.coverage task.pc).1
      tasks := update s.tasks i (some ⟨task.call, (access s.coverage task.pc).2⟩) } := by
  have hok := h.tasks i task hi
  obtain ⟨hmoves, hgen, hsync, hslots⟩ := access_moves hok
  set s' : System := { s with
    coverage := (access s.coverage task.pc).1
    tasks := update s.tasks i (some ⟨task.call, (access s.coverage task.pc).2⟩) }
  have hcov : s'.coverage = (access s.coverage task.pc).1 := rfl
  have hself : s'.tasks i = some ⟨task.call, (access s.coverage task.pc).2⟩ := update_self ..
  have hother : ∀ j, j ≠ i → s'.tasks j = s.tasks j := fun j hj => update_of_ne hj ..
  have heff : s'.effectiveSynced = s.effectiveSynced := by
    simp only [System.effectiveSynced, hcov, hsync]
    rfl
  have hleads : s.Leads s' := by
    refine ⟨hmoves, fun call hc => called_update hi _ _ hc, fun _ => id, ?_⟩
    intro v g hp
    simpa only [System.Promised, heff] using hp
  refine h.leads hleads ?_ ?_ ?_ ?_ ?_ ?_ ?_ ?_
  · -- only an exchange of `advance` and a certificate move the prefix
    intro v hlo hhi
    obtain ⟨call, pc⟩ := task
    cases pc with
    | settleLoad | settleInsert | returned => exact absurd hhi (not_le.2 hlo)
    | certifyMax through =>
      have hle : v ≤ through := by
        have : v ≤ max s.coverage.recoverable through := hhi
        omega
      exact .inr (.inl ⟨through, hle, _, _, hok ▸ hself⟩)
    | advance a =>
      rcases (Advance.effect hok.1).recoverable with heq | ⟨heq, hev, -⟩
      · exact absurd (heq ▸ hhi) (not_le.2 hlo)
      · have hv : v = s.coverage.recoverable + 1 := by
          have : v ≤ s.coverage.recoverable + 1 := heq ▸ hhi
          omega
        exact hv ▸ hleads.evidence hev
  · intro v g hv
    rcases hslots v g hv with hold | ⟨hg, hcall⟩
    · exact .inl hold
    · exact .inr (.inl ⟨hg, i, _, hcall ▸ hself⟩)
  · rw [hgen, hsync]
    exact h.synced_le
  · exact fun v hv => .inl hv
  · intro v hv
    rw [heff]
    obtain ⟨hc, hheld⟩ := h.fsynced v hv
    exact ⟨hc, hleads.moves.held _ _ hheld⟩
  · intro j other hj
    by_cases hij : j = i
    · subst hij
      cases hself.symm.trans hj
      obtain ⟨call, pc⟩ := task
      cases pc with
      | settleLoad version =>
        have hcall : call = .settle version := hok
        by_cases hle : version ≤ s.coverage.recoverable
        · simp only [access, if_pos hle]
          subst hcall
          exact .inl (hle.trans hleads.moves.recoverable)
        · simp only [access, if_neg hle]
          exact hcall
      | settleInsert version =>
        have hcall : call = .settle version := hok
        subst hcall
        exact ⟨trivial, s.coverage.held_insert version 0⟩
      | certifyMax through =>
        have hcall : call = .certifyExclusiveOpen through := hok
        subst hcall
        exact ⟨trivial, le_max_right _ _⟩
      | advance a =>
        have hdone := Call.Done.moves hleads.moves hok.2
        simp only [access]
        cases hnext : (a.access s.coverage).2 with
        | none => exact hdone
        | some b => exact ⟨Advance.ok_next h hleads hcov hok.1 hnext, hdone⟩
      | returned => exact Call.Done.moves hleads.moves hok
    · exact (h.tasks j other ((hother j hij).symm.trans hj)).leads hleads
  · intro r hr
    exact (h.worker r hr).leads hleads hgen
  · intro hcovered
    -- a watcher other than this call goes on watching unless the prefix moves
    have hkeep : s.coverage.Covered (s.coverage.recoverable + 1) →
        s'.coverage.recoverable = s.coverage.recoverable →
        (∀ a, task.pc = .advance a → ¬a.Watches s.coverage) → s'.Watched := by
      intro hc heq hna
      rcases h.watched hc with ⟨j, other, a, hj, hpc, ha⟩ | ⟨r, a, hr, hpc, ha⟩
      · have hij : j ≠ i := by
          rintro rfl
          cases hi.symm.trans hj
          exact hna a hpc ha
        exact .inl ⟨j, other, a, (hother j hij).trans hj, hpc, ha.moves hleads.moves heq⟩
      · exact .inr ⟨r, a, hr, hpc, ha.moves hleads.moves heq⟩
    obtain ⟨call, pc⟩ := task
    cases pc with
    | settleLoad | returned =>
      exact hkeep hcovered rfl nofun
    | settleInsert | certifyMax => exact .inl ⟨i, _, .load, hself, rfl, trivial⟩
    | advance a =>
      rcases a.watch_next hcovered with ⟨b, hb, hw⟩ | ⟨hc, heq, hna⟩
      · refine .inl ⟨i, _, b, hself, ?_, hw⟩
        simp only [access, hb]
      · exact hkeep hc heq (fun b hb => by cases hb; exact hna)

/-! ## Steps of the worker -/

/-- The pcs at which the worker is inside `advance`. -/
def RoundPc.advancing : RoundPc → Bool
  | .advanceWritten _ | .advanceSynced _ => true
  | _ => false

/-- A step of the worker keeps every promise if the generations count as before and the
versions of its list are not forgotten before they are captured. -/
theorem leads_of_worker {s : System} (hmoves : s.coverage.Moves s'.coverage)
    (htasks : s'.tasks = s.tasks) (hfsynced : s'.fsynced = s.fsynced)
    (heff : s'.effectiveSynced = s.effectiveSynced) (hcaptured : ∀ v ∈ s.captured, v ∈ s'.captured)
    (hbefore : ∀ r v, s.worker = some r → r.pc.beforeCapture = true → v ∈ r.versions →
      v ∈ s'.captured ∨ ∃ r', s'.worker = some r' ∧ r'.pc.beforeCapture = true ∧
        v ∈ r'.versions) : s.Leads s' := by
  refine ⟨hmoves, fun call hc => ?_, fun v hv => hfsynced ▸ hv, ?_⟩
  · simpa only [System.Called, htasks] using hc
  rintro v g (hs | ⟨hlt, hpromise⟩)
  · exact .inl (hfsynced ▸ hs)
  · refine .inr ⟨heff ▸ hlt, ?_⟩
    rcases hpromise with hc | ⟨r, hr, hpc, hv⟩
    · exact .inl (hcaptured v hc)
    · exact hbefore r v hr hpc hv

section

variable (h : Inv initial s)
include h

section

variable {s' : System} (hr : s.worker = some r) (hpc : r.pc.advancing = false)
  (htasks : s'.tasks = s.tasks) (hrec : s'.coverage.recoverable = s.coverage.recoverable)
  (hslots : ∀ v g, s'.coverage.slots v = some g → s.coverage.slots v = some g ∨
    (0 < g ∧ g ≤ s'.coverage.generation + 1 ∧ s'.Promised v g))
  (hsynced : s'.coverage.syncedGeneration ≤ s'.coverage.generation)
  (hcaptured : ∀ v ∈ s'.captured, v ∈ s.captured ∨ s'.coverage.Held v s'.coverage.generation)
  (hcovered : s'.coverage.Covered (s.coverage.recoverable + 1) →
    s.coverage.Covered (s.coverage.recoverable + 1) ∨ s'.Watched)
include hr hpc htasks hrec hslots hsynced hcaptured hcovered

/-- The invariant after a step of the worker outside `advance`. -/
theorem Inv.worker_step (hleads : s.Leads s')
    (hfsynced : ∀ v ∈ s'.fsynced, v ∈ s'.captured ∧ s'.coverage.Held v s'.effectiveSynced)
    (hworker : ∀ r', s'.worker = some r' → r'.Ok s') : Inv initial s' := by
  refine h.leads hleads ?_ ?_ hsynced hcaptured hfsynced ?_ hworker ?_
  · omega
  · intro v g hv
    rcases hslots v g hv with hold | hnew
    · exact .inl hold
    · exact .inr (.inr hnew)
  · intro i task hi
    exact (h.tasks i task (htasks ▸ hi)).leads hleads
  · intro hc
    rcases hcovered (hrec ▸ hc) with hold | hw
    · rcases h.watched hold with ⟨i, task, a, hi, hpc', ha⟩ | ⟨r', a, hr', hpc', -⟩
      · exact .inl ⟨i, task, a, htasks ▸ hi, hpc', ha.moves hleads.moves hrec⟩
      · cases hr.symm.trans hr'
        rcases hpc' with hpc' | hpc' <;> rw [hpc'] at hpc <;> cases hpc
    · exact hw

/-- The same, where nothing becomes durable and what the worker lists is not forgotten
before it is captured. -/
theorem Inv.worker_moves (hmoves : s.coverage.Moves s'.coverage) (hfsynced : s'.fsynced = s.fsynced)
    (heff : s'.effectiveSynced = s.effectiveSynced) (hkeep : ∀ v ∈ s.captured, v ∈ s'.captured)
    (hbefore : r.pc.beforeCapture = true → ∀ v ∈ r.versions, v ∈ s'.captured ∨
      ∃ r', s'.worker = some r' ∧ r'.pc.beforeCapture = true ∧ v ∈ r'.versions)
    (hworker : s.Leads s' → ∀ r', s'.worker = some r' → r'.Ok s') : Inv initial s' := by
  have hleads : s.Leads s' := leads_of_worker hmoves htasks hfsynced heff hkeep
    fun r' v hr' hb hv => by
      cases hr.symm.trans hr'
      exact hbefore hb v hv
  refine h.worker_step hr hpc htasks hrec hslots hsynced hcaptured hcovered hleads
    (fun v hv => ?_) (hworker hleads)
  obtain ⟨hc, hheld⟩ := h.fsynced v (hfsynced ▸ hv)
  exact ⟨hkeep v hc, heff ▸ hmoves.held _ _ hheld⟩

end

/-- A step of the worker that only moves its program counter. -/
theorem Inv.worker_pc (hr : s.worker = some r) (hpc : r.pc.advancing = false)
    (hne : ∀ gen, r.pc ≠ .synced gen) {worker : Option Round}
    (hok : ∀ r', worker = some r' → r'.Ok s ∧ ∀ gen, r'.pc ≠ .synced gen)
    (hbefore : r.pc.beforeCapture = true → ∃ r', worker = some r' ∧ r'.pc.beforeCapture = true ∧
      r'.versions = r.versions) : Inv initial { s with worker } := by
  have heff : ({ s with worker } : System).effectiveSynced = s.effectiveSynced := by
    have hold : s.effectiveSynced = s.coverage.syncedGeneration := by
      obtain ⟨versions, pc⟩ := r
      cases pc <;> simp only [System.effectiveSynced, hr]
      exact absurd rfl (hne _)
    rw [hold]
    cases worker with
    | none => rfl
    | some r' =>
      obtain ⟨versions, pc⟩ := r'
      cases pc <;> try rfl
      exact absurd rfl ((hok _ rfl).2 _)
  refine h.worker_moves hr hpc rfl rfl (fun _ _ => .inl) h.synced_le (fun _ => .inl) .inl (.refl _)
    rfl heff (fun _ => id) (fun hb v hv => ?_) fun hleads r' hr' => ?_
  · obtain ⟨r', hw, hb', hversions⟩ := hbefore hb
    exact .inr ⟨r', hw, hb', hversions ▸ hv⟩
  · exact (hok r' hr').1.leads hleads rfl

/-- The round lists a version. -/
theorem Inv.worker_insert {versions todo : List Nat} {gen v : Nat}
    (hr : s.worker = some ⟨versions, .insert gen v todo⟩) :
    Inv initial { s with
      coverage := s.coverage.orInsert v gen
      worker := some ⟨versions, .check gen todo⟩ } := by
  obtain ⟨hgen, done, hsplit, hdone⟩ := h.worker _ hr
  have hversions : versions = (done ++ [v]) ++ todo := by
    rw [show versions = _ from hsplit]
    simp
  have hmoves := s.coverage.moves_orInsert v gen
  have hlisted : ∀ w ∈ done ++ [v], (s.coverage.orInsert v gen).Held v gen →
      (s.coverage.orInsert v gen).Held w gen := by
    intro w hw hv
    rcases mem_append.1 hw with hw | hw
    · exact hmoves.held _ _ (hdone w hw)
    · exact mem_singleton.1 hw ▸ hv
  rcases s.coverage.orInsert_eq v gen with ⟨g, hslot, heq⟩ | ⟨hnone, heq⟩
  · -- an older slot stays, and its generation is no later than the new one
    have hv : s.coverage.Held v gen := .inr ⟨g, hslot, hgen ▸ h.slots_le v g hslot⟩
    rw [heq] at hlisted ⊢
    refine h.worker_pc hr rfl (by simp) ?_ (fun _ => ⟨_, rfl, rfl, rfl⟩)
    rintro r' ⟨⟩
    exact ⟨⟨hgen, done ++ [v], hversions, fun w hw => hlisted w hw hv⟩, by simp⟩
  rw [heq] at hmoves hlisted ⊢
  have hlt : s.coverage.syncedGeneration < gen := by
    have := h.synced_le
    omega
  refine h.worker_moves hr rfl rfl rfl ?_ h.synced_le (fun _ => .inl) ?_ hmoves rfl ?_
    (fun _ => id) (fun _ w hw => .inr ⟨_, rfl, rfl, hw⟩) ?_
  · intro w g hw
    by_cases hwv : w = v
    · subst hwv
      simp only [Coverage.insert, update_self, some.injEq] at hw
      subst hw
      refine .inr ⟨by omega, hgen.le, .inr ⟨hlt, .inr ⟨_, rfl, rfl, ?_⟩⟩⟩
      rw [hversions]
      simp
    · simp only [Coverage.insert, update_of_ne hwv] at hw
      exact .inl hw
  · -- the new slot is not covered before its generation is synced
    rintro ⟨g, hslot, hg⟩
    refine .inl ⟨g, ?_, hg⟩
    by_cases hwv : s.coverage.recoverable + 1 = v
    · rw [hwv] at hslot
      simp only [Coverage.insert, update_self, some.injEq] at hslot
      have : g ≤ s.coverage.syncedGeneration := hg
      omega
    · simpa only [Coverage.insert, update_of_ne hwv] using hslot
  · simp only [System.effectiveSynced, hr, Coverage.insert]
  · rintro - r' ⟨⟩
    exact ⟨hgen, done ++ [v], hversions, fun w hw => hlisted w hw (s.coverage.held_insert v gen)⟩

/-- The generation is stored. -/
theorem Inv.worker_store (hr : s.worker = some ⟨versions, .store gen⟩) :
    Inv initial { s with
      coverage := { s.coverage with generation := gen }
      worker := some ⟨versions, .advanceWritten .load⟩ } := by
  obtain ⟨hgen, hheld⟩ := h.worker _ hr
  have hmoves : s.coverage.Moves { s.coverage with generation := gen } :=
    ⟨le_rfl, by rw [hgen]; exact Nat.le_succ _, le_rfl, fun _ _ => id⟩
  refine h.worker_moves hr rfl rfl rfl (fun _ _ => .inl) (h.synced_le.trans hmoves.generation)
    (fun _ => .inl) .inl hmoves rfl ?_ (fun _ => id) (fun _ v hv => .inr ⟨_, rfl, rfl, hv⟩) ?_
  · simp only [System.effectiveSynced, hr]
  · rintro - r' ⟨⟩
    exact ⟨trivial, hheld⟩

/-- The snapshot is captured. -/
theorem Inv.worker_capture (hr : s.worker = some ⟨versions, .capture⟩) :
    Inv initial { s with
      captured := versions ++ s.captured
      worker := some ⟨versions, .fsync s.coverage.generation⟩ } := by
  refine h.worker_moves hr rfl rfl rfl (fun _ _ => .inl) h.synced_le ?_ .inl (.refl _) rfl ?_
    (fun v hv => mem_append_right _ hv) (fun _ v hv => .inl (mem_append_left _ hv)) ?_
  · intro v hv
    rcases mem_append.1 hv with hv | hv
    · exact .inr (h.worker _ hr v hv)
    · exact .inl hv
  · simp only [System.effectiveSynced, hr]
  · rintro - r' ⟨⟩
    exact rfl

/-- A successful fsync makes every captured version durable. -/
theorem Inv.worker_fsync (hr : s.worker = some ⟨versions, .fsync gen⟩) :
    Inv initial { s with fsynced := s.captured, worker := some ⟨versions, .synced gen⟩ } := by
  have hgen : gen = s.coverage.generation := h.worker _ hr
  have hleads : s.Leads
      { s with fsynced := s.captured, worker := some ⟨versions, .synced gen⟩ } := by
    refine ⟨.refl _, fun _ => id, fun v hv => (h.fsynced v hv).1, ?_⟩
    rintro v g (hv | ⟨-, hv | ⟨r', hr', hb, -⟩⟩)
    · exact .inl (h.fsynced v hv).1
    · exact .inl hv
    · cases hr.symm.trans hr'
      cases hb
  refine h.worker_step hr rfl rfl rfl (fun _ _ => .inl) h.synced_le (fun _ => .inl) .inl
    hleads ?_ ?_
  · intro v hv
    refine ⟨hv, (h.captured v hv).mono ?_⟩
    show s.coverage.generation ≤ max s.coverage.syncedGeneration gen
    omega
  · rintro r' ⟨⟩
    exact hgen

/-- The synced generation is raised. -/
theorem Inv.worker_synced (hr : s.worker = some ⟨versions, .synced gen⟩) :
    Inv initial { s with
      coverage := { s.coverage with syncedGeneration := max s.coverage.syncedGeneration gen }
      worker := some ⟨versions, .advanceSynced .load⟩ } := by
  have hgen : gen = s.coverage.generation := h.worker _ hr
  have heff : s.effectiveSynced = max s.coverage.syncedGeneration gen := by
    simp only [System.effectiveSynced, hr]
  have hmoves : s.coverage.Moves
      { s.coverage with syncedGeneration := max s.coverage.syncedGeneration gen } :=
    ⟨le_rfl, le_rfl, le_max_left _ _, fun _ _ => id⟩
  refine h.worker_moves hr rfl rfl rfl (fun _ _ => .inl) (max_le h.synced_le hgen.le)
    (fun _ => .inl) (fun _ => .inr (.inr ⟨_, .load, rfl, .inr rfl, trivial⟩)) hmoves rfl
    heff.symm (fun _ => id) (by simp [RoundPc.beforeCapture]) ?_
  rintro - r' ⟨⟩
  exact trivial

/-- `retain` visits one slot. -/
theorem Inv.worker_retain {below v : Nat} (hr : s.worker = some ⟨versions, .retain below⟩)
    (hv : v ≤ below) : Inv initial { s with coverage := s.coverage.remove v } := by
  have hbelow : below ≤ s.coverage.recoverable := h.worker _ hr
  have hmoves := s.coverage.moves_remove (hv.trans hbelow)
  refine h.worker_moves hr rfl rfl rfl (fun w g hw => .inl (Coverage.slots_remove hw))
    h.synced_le (fun _ => .inl) ?_ hmoves rfl rfl (fun _ => id)
    (fun hb w hw => .inr ⟨_, hr, hb, hw⟩) fun hleads r' hr' => (h.worker r' hr').leads hleads rfl
  rintro ⟨g, hslot, hg⟩
  exact .inl ⟨g, Coverage.slots_remove hslot, hg⟩

/-- The worker performs an access of one of its two calls of `advance`. -/
theorem Inv.worker_advance {a : Advance} {back : Advance → RoundPc} {leave : RoundPc}
    (hback : (back = .advanceWritten ∧ leave = .capture) ∨
      (back = .advanceSynced ∧ leave = .retainLoad)) (hr : s.worker = some ⟨versions, back a⟩) :
    Inv initial { s with
      coverage := (a.access s.coverage).1
      worker := some ⟨versions, (Advance.resume back leave) (a.access s.coverage).2⟩ } := by
  have hrok := h.worker _ hr
  have ha : a.Ok s := by
    rcases hback with ⟨rfl, -⟩ | ⟨rfl, -⟩
    · exact hrok.1
    · exact hrok
  have heffect := Advance.effect ha
  set s' : System := { s with
    coverage := (a.access s.coverage).1
    worker := some ⟨versions, (Advance.resume back leave) (a.access s.coverage).2⟩ }
  have hcov : s'.coverage = (a.access s.coverage).1 := rfl
  have hworker : s'.worker =
    some ⟨versions, (Advance.resume back leave) (a.access s.coverage).2⟩ := rfl
  have heff : s'.effectiveSynced = s.effectiveSynced := by
    simp only [System.effectiveSynced, hworker, hr, hcov, heffect.synced]
    rcases hback with ⟨rfl, rfl⟩ | ⟨rfl, rfl⟩ <;> cases (a.access s.coverage).2 <;> rfl
  have hleads : s.Leads s' := by
    refine leads_of_worker heffect.moves rfl rfl heff (fun _ => id) ?_
    intro r' v hr' hb hv
    cases hr.symm.trans hr'
    refine .inr ⟨_, hworker, ?_, hv⟩
    rcases hback with ⟨rfl, rfl⟩ | ⟨rfl, rfl⟩
    · cases (a.access s.coverage).2 <;> rfl
    · cases hb
  have hgen : s'.coverage.generation = s.coverage.generation := heffect.generation
  refine h.leads hleads ?_ ?_ ?_ ?_ ?_ ?_ ?_ ?_
  · intro v hlo hhi
    rw [hcov] at hhi
    rcases heffect.recoverable with heq | ⟨heq, hev, -⟩
    · omega
    · have hv : v = s.coverage.recoverable + 1 := by
        omega
      exact hv ▸ hleads.evidence hev
  · exact fun v g hv => .inl (heffect.slots v g hv)
  · rw [hgen, heffect.synced]
    exact h.synced_le
  · exact fun v hv => .inl hv
  · intro v hv
    obtain ⟨hc, hheld⟩ := h.fsynced v hv
    refine ⟨hc, ?_⟩
    rw [heff]
    exact hleads.moves.held _ _ hheld
  · exact fun i task hi => (h.tasks i task hi).leads hleads
  · intro r' hr'
    cases hworker.symm.trans hr'
    cases hnext : (a.access s.coverage).2 with
    | none =>
      rcases hback with ⟨rfl, rfl⟩ | ⟨rfl, rfl⟩
      · intro v hv
        rw [hgen]
        exact hleads.moves.held _ _ (hrok.2 v hv)
      · exact trivial
    | some b =>
      have hb := Advance.ok_next h hleads hcov ha hnext
      rcases hback with ⟨rfl, rfl⟩ | ⟨rfl, rfl⟩
      · refine ⟨hb, fun v hv => ?_⟩
        rw [hgen]
        exact hleads.moves.held _ _ (hrok.2 v hv)
      · exact hb
  · intro hcovered
    rcases a.watch_next hcovered with ⟨b, hb, hw⟩ | ⟨hc, heq, hna⟩
    · refine .inr ⟨_, b, hworker, ?_, hw⟩
      rw [hb]
      rcases hback with ⟨rfl, -⟩ | ⟨rfl, -⟩
      · exact .inl rfl
      · exact .inr rfl
    · rcases h.watched hc with ⟨i, task, b, hi, hpc, hb⟩ | ⟨r', b, hr', hpc, hb⟩
      · exact .inl ⟨i, task, b, hi, hpc, hb.moves hleads.moves heq⟩
      · cases hr.symm.trans hr'
        have hab : a = b := by
          rcases hback with ⟨rfl, -⟩ | ⟨rfl, -⟩ <;> rcases hpc with hpc | hpc <;> cases hpc <;> rfl
        exact absurd (hab ▸ hb) hna

/-- Every access of the round. -/
theorem Inv.work (hr : s.worker = some r) (e : Env) :
    Inv initial (RecoverabilityCoverage.work e s r) := by
  obtain ⟨versions, pc⟩ := r
  have hok := h.worker _ hr
  cases pc with
  | load =>
    refine h.worker_pc hr rfl (by simp) ?_ (fun _ => ⟨_, rfl, rfl, rfl⟩)
    rintro r' ⟨⟩
    exact ⟨⟨rfl, [], rfl, by simp⟩, by simp⟩
  | check gen todo =>
    obtain ⟨hgen, done, hsplit, hdone⟩ := hok
    cases todo with
    | nil =>
      refine h.worker_pc hr rfl (by simp) ?_ (fun _ => ⟨_, rfl, rfl, rfl⟩)
      rintro r' ⟨⟩
      have hall : versions = done := by
        have : versions = done ++ [] := hsplit
        simpa using this
      exact ⟨⟨hgen, hall ▸ hdone⟩, by simp⟩
    | cons v todo =>
      simp only [RecoverabilityCoverage.work]
      split
      case isTrue hlt =>
        refine h.worker_pc hr rfl (by simp) ?_ (fun _ => ⟨_, rfl, rfl, rfl⟩)
        rintro r' ⟨⟩
        exact ⟨⟨hgen, done, hsplit, hdone⟩, by simp⟩
      case isFalse hle =>
        refine h.worker_pc hr rfl (by simp) ?_ (fun _ => ⟨_, rfl, rfl, rfl⟩)
        rintro r' ⟨⟩
        refine ⟨⟨hgen, done ++ [v], ?_, ?_⟩, by simp⟩
        · rw [show versions = _ from hsplit]
          simp
        · intro w hw
          rcases mem_append.1 hw with hw | hw
          · exact hdone w hw
          · exact .inl (mem_singleton.1 hw ▸ not_lt.1 hle)
  | insert gen v todo => exact h.worker_insert hr
  | store gen => exact h.worker_store hr
  | advanceWritten a => exact h.worker_advance (.inl ⟨rfl, rfl⟩) hr
  | capture => exact h.worker_capture hr
  | fsync gen =>
    simp only [RecoverabilityCoverage.work]
    split
    · exact h.worker_fsync hr
    · exact h.worker_pc hr rfl (by simp) (by simp) (by simp [RoundPc.beforeCapture])
  | synced gen => exact h.worker_synced hr
  | advanceSynced a => exact h.worker_advance (.inr ⟨rfl, rfl⟩) hr
  | retainLoad =>
    refine h.worker_pc hr rfl (by simp) ?_ (by simp [RoundPc.beforeCapture])
    rintro r' ⟨⟩
    exact ⟨le_rfl, by simp⟩
  | retain below =>
    simp only [RecoverabilityCoverage.work]
    split
    · split
      case isTrue hv => exact h.worker_retain hr hv
      case isFalse => exact h
    · exact h.worker_pc hr rfl (by simp) (by simp) (by simp [RoundPc.beforeCapture])

end

/-! ## Runs -/

/-- A round starts. -/
theorem Inv.round (h : Inv initial s) (hnone : s.worker = none) (versions : List Nat) :
    Inv initial { s with worker := some ⟨versions, .load⟩ } := by
  have heff : ({ s with worker := some ⟨versions, .load⟩ } : System).effectiveSynced =
      s.effectiveSynced := by
    simp only [System.effectiveSynced, hnone]
  have hleads : s.Leads { s with worker := some ⟨versions, .load⟩ } := by
    refine leads_of_worker (.refl _) rfl rfl heff (fun _ => id) ?_
    intro r v hr
    simp [hnone] at hr
  refine h.leads hleads ?_ (fun _ _ => .inl) h.synced_le (fun _ => .inl) ?_ ?_ ?_ ?_
  · exact fun v hlo hhi => absurd hhi (not_le.2 hlo)
  · intro v hv
    rw [heff]
    exact h.fsynced v hv
  · exact fun i task hi => (h.tasks i task hi).leads hleads
  · rintro r ⟨⟩
    exact trivial
  · intro hc
    rcases h.watched hc with hw | ⟨r, a, hr, -⟩
    · exact .inl hw
    · simp [hnone] at hr

/-- A call begins. -/
theorem Inv.invoke (h : Inv initial s) (hfresh : s.tasks i = none) (call : Call) :
    Inv initial { s with tasks := update s.tasks i (some ⟨call, call.entry⟩) } := by
  have hold : ∀ j task, s.tasks j = some task →
      update s.tasks i (some ⟨call, call.entry⟩) j = some task := by
    intro j task hj
    have hij : j ≠ i := by
      rintro rfl
      simp [hfresh] at hj
    rw [update_of_ne hij, hj]
  have hleads : s.Leads { s with tasks := update s.tasks i (some ⟨call, call.entry⟩) } :=
    ⟨.refl _, fun c ⟨j, pc, hj⟩ => ⟨j, pc, hold j _ hj⟩, fun _ => id, fun _ _ => id⟩
  refine h.leads hleads ?_ (fun _ _ => .inl) h.synced_le (fun _ => .inl) h.fsynced ?_ ?_ ?_
  · exact fun v hlo hhi => absurd hhi (not_le.2 hlo)
  · intro j task hj
    by_cases hij : j = i
    · subst hij
      simp only [update_self, some.injEq] at hj
      subst hj
      cases call <;> exact rfl
    · exact (h.tasks j task (by simpa [update_of_ne hij] using hj)).leads hleads
  · exact fun r hr => (h.worker r hr).leads hleads rfl
  · intro hc
    rcases h.watched hc with ⟨j, task, a, hj, hpc, ha⟩ | hw
    · exact .inl ⟨j, task, a, hold j task hj, hpc, ha⟩
    · exact .inr hw

/-- Every step. -/
theorem inv_step (s : System) (ev : Event) (h : Inv initial s) : Inv initial (step s ev) := by
  cases ev with
  | round versions =>
    simp only [step]
    split
    case h_1 hnone => exact h.round hnone versions
    case h_2 => exact h
  | work e =>
    simp only [step]
    split
    case h_1 => exact h
    case h_2 r hr => exact h.work hr e
  | invoke i call =>
    simp only [step]
    split
    case h_1 hfresh => exact h.invoke hfresh call
    case h_2 => exact h
  | exec i =>
    simp only [step]
    split
    case h_1 => exact h
    case h_2 task hi => exact h.exec hi

/-- A new coverage. -/
theorem inv_init (initial : Nat) : Inv initial (init initial) where
  start_le := le_rfl
  sound := fun v hlo hhi => absurd hhi (not_le.2 hlo)
  slots := by simp [init, Coverage.new]
  slots_le := by simp [init, Coverage.new]
  synced_le := le_rfl
  captured := by simp [init]
  fsynced := by simp [init]
  tasks := by simp [init]
  worker := by simp [init]
  watched := by simp [init, Coverage.Covered, Coverage.new]

/-- Every run. -/
theorem inv_after (initial : Nat) (es : List Event) : Inv initial (after initial es) :=
  run_invariant inv_step (inv_init initial) es

/-- At rest, a version above the prefix with evidence waits in a covered slot or is inside
a certified prefix. -/
theorem Inv.evidence_held (h : Inv initial s) (hq : s.Quiescent) {v : Nat} (hv : s.Evidence v) :
    s.coverage.Held v s.coverage.syncedGeneration := by
  have hdone : ∀ call, s.Called call → call.Done s.coverage := by
    rintro call ⟨i, pc, hi⟩
    have hpc : pc = .returned := hq.2 i _ hi
    subst hpc
    exact h.tasks i _ hi
  rcases hv with hset | ⟨through, hle, hcert⟩ | hsync
  · exact Coverage.Held.mono (hdone _ hset) (Nat.zero_le _)
  · exact .inl (hle.trans (hdone _ hcert))
  · have heff : s.effectiveSynced = s.coverage.syncedGeneration := by
      simp only [System.effectiveSynced, hq.1]
    exact heff ▸ (h.fsynced v hsync).2

/-- At rest, nobody watches, so the slot above the prefix is not covered. -/
theorem Inv.not_covered (h : Inv initial s) (hq : s.Quiescent) :
    ¬s.coverage.Covered (s.coverage.recoverable + 1) := by
  intro hc
  rcases h.watched hc with ⟨i, task, a, hi, hpc, -⟩ | ⟨r, a, hr, -⟩
  · simp [hq.2 i task hi] at hpc
  · simp [hq.1] at hr

/-- **The recoverable prefix is sound, and exact at rest.**  In every state of every run,
each version of the reported prefix above the initial one has been settled, certified at
open, or listed in a snapshot whose capture preceded a successful fsync.  When the worker
is idle and all calls have returned, the report is the largest prefix of that kind. -/
theorem recoverable_through_sound (initial : Nat) (es : List Event) :
    let s := after initial es
    (∀ v, initial < v → v ≤ s.coverage.recoverable → s.Evidence v) ∧
      (s.Quiescent → IsGreatest {R | initial ≤ R ∧ ∀ v, initial < v → v ≤ R → s.Evidence v}
        s.coverage.recoverable) := by
  intro s
  have h : Inv initial s := inv_after initial es
  refine ⟨h.sound, fun hq => ⟨⟨h.start_le, h.sound⟩, ?_⟩⟩
  rintro R ⟨-, hR⟩
  by_contra hlt
  have hle : s.coverage.recoverable + 1 ≤ R := by omega
  have hev : s.Evidence (s.coverage.recoverable + 1) := hR _ (Nat.lt_succ_of_le h.start_le) hle
  rcases h.evidence_held hq hev with hin | hcovered
  · omega
  · exact h.not_covered hq hcovered

/-- Version 2 is settled while version 1 is missing; a round then lists, captures and syncs
version 1, and takes both. -/
def settledFirst : List Event :=
  [.invoke 0 (.settle 2), .exec 0, .exec 0, .exec 0, .exec 0, .round [1]] ++
    List.replicate 28 (.work ⟨true, none⟩)

/-- At the end of that run the report is 2, which is the largest prefix with evidence. -/
theorem recoverable_through_sound_settled :
    let s := after 0 settledFirst
    s.coverage.recoverable = 2 ∧
      IsGreatest {R | 0 ≤ R ∧ ∀ v, 0 < v → v ≤ R → s.Evidence v} 2 := by
  have hreport : (after 0 settledFirst).coverage.recoverable = 2 := by decide +kernel
  have hquiet : (after 0 settledFirst).Quiescent := by
    refine ⟨by decide +kernel, fun i task hi => ?_⟩
    cases i with
    | zero =>
      have htask : some ⟨.settle 2, .returned⟩ = some task := hi
      rw [← Option.some.inj htask]
    | succ i => cases hi
  have h := (recoverable_through_sound 0 settledFirst).2 hquiet
  rw [hreport] at h
  exact ⟨hreport, h⟩

end ShamirDb.RecoverabilityCoverage
