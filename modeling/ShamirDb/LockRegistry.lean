/-
# One lock per key

A call that looks a lock up in the registry leases it at once, and a lease keeps the lock in
its place: between the lookup and the drop of the lease nobody retires it.  The drop that finds
no other lease and no holder does, so that no lock stays behind unused.
-/
import ShamirDb.WoundWait

namespace ShamirDb.KeyLocks

open Machine TaskList List Function

variable {K : Type} {s s' : System K} {i l : Nat} {key : K} {pc : Pc K}

/-- A lock of the key is alive: it is registered, or a call has a lease on it. -/
def System.Live (s : System K) (key : K) (l : Nat) : Prop :=
  s.registry key = some l ∨ ∃ pc ∈ s.tasks, pc.lease = some (key, l)

/-- A call of `lock_key` has the lock: it is in the loop, queued or before the mutex. -/
def System.WaitsOn (s : System K) (l : Nat) : Prop := ∃ r pc, Pc.locking r l pc ∈ s.tasks

/-- A registered lock is leased or held. -/
def InUse (s : System K) : Prop :=
  ∀ key l, s.registry key = some l → (s.locks l).leases ≠ 0 ∨ (s.locks l).state.holders ≠ []

/-- A lock has a lease exactly if a call has it. -/
theorem Inv.leases_ne_zero (h : Inv s) : (s.locks l).leases ≠ 0 ↔ ∃ pc ∈ s.tasks, pc.leases l := by
  rw [h.leases, ← Nat.pos_iff_ne_zero, countP_pos_iff]

/-- The lease of a call, from the number of its lock. -/
theorem Inv.lease_of_leases (h : Inv s) (hpc : pc ∈ s.tasks) (hl : pc.leases l = true)
    (hreg : s.registry key = some l) : pc.lease = some (key, l) := by
  obtain ⟨j, hj⟩ := mem_iff_getElem?.1 hpc
  unfold Pc.leases at hl
  split at hl
  · rename_i key' l' hlease
    obtain rfl : l' = l := by simpa using hl
    rw [hlease, h.injective _ _ _ ((h.tasks j pc hj).registry hlease) hreg]
  · cases hl

/-- A step that retires no lock: what it changes or registers is leased afterwards. -/
structure Keeps (s s' : System K) : Prop where
  kept : ∀ key l, s.registry key = some l → s'.registry key = some l
  added : ∀ key l, s'.registry key = some l → s.registry key = some l ∨ ∃ pc ∈ s'.tasks, pc.leases l
  locks : ∀ l, (∃ pc ∈ s'.tasks, pc.leases l) ∨ s'.locks l = s.locks l

/-- A step that keeps the registered locks keeps them in use. -/
theorem Keeps.inUse (hk : Keeps s s') (h : Inv s') (hu : InUse s) : InUse s' := by
  intro key l hreg
  rcases hk.locks l with hleased | hsame
  · exact .inl (h.leases_ne_zero.2 hleased)
  · rcases hk.added key l hreg with hold | hleased
    · rw [hsame]
      exact hu key l hold
    · exact .inl (h.leases_ne_zero.2 hleased)

/-- Neither the registry nor the locks change. -/
theorem keeps_of_eq (hregistry : s'.registry = s.registry) (hlocks : s'.locks = s.locks) :
    Keeps s s' :=
  ⟨fun _ _ h => hregistry ▸ h, fun _ _ h => .inl (hregistry ▸ h), fun _ => .inr (by rw [hlocks])⟩

/-- A step that leaves all locks alone but the one its call leases. -/
theorem keeps_of_lease {pc' : Pc K} (hi : s.tasks[i]? = some pc)
    (hlease : pc'.lease = some (key, l)) (htasks : s'.tasks = s.tasks.set i pc')
    (hregistry : s'.registry = s.registry) (hlocks : ∀ l', l' ≠ l → s'.locks l' = s.locks l') :
    Keeps s s' := by
  refine ⟨fun _ _ h => hregistry ▸ h, fun _ _ h => .inl (hregistry ▸ h), fun l' => ?_⟩
  by_cases hl : l' = l
  · refine .inl ⟨pc', ?_, by simp [Pc.leases, hlease, hl]⟩
    rw [htasks]
    exact mem_of_getElem? (set_self hi pc')
  · exact .inr (hlocks l' hl)

/-- A step under a lease retires no lock. -/
theorem Leased.keeps {joins : Nat → Prop} (hi : s.tasks[i]? = some pc)
    (h : Leased s i l key joins s') : Keeps s s' := by
  obtain ⟨pc', lock', w, p, rfl, hlease, -⟩ := h.exists_step
  exact keeps_of_lease hi hlease rfl rfl fun _ hl => update_of_ne hl _ _

variable [DecidableEq K]

/-- A new lock is registered. -/
theorem keeps_acquire_new {r : Request K} (hi : s.tasks[i]? = some (.acquire r))
    (hreg : s.registry r.key = none) :
    Keeps s (({ s.setLock s.next KeyLock.new.lease with
      registry := update s.registry r.key (some s.next)
      next := s.next + 1 } : System K).goto i (.locking r s.next .check)) := by
  have hleased : ∃ pc ∈ s.tasks.set i (.locking r s.next .check), pc.leases s.next :=
    ⟨_, mem_of_getElem? (set_self hi _), beq_self_eq_true _⟩
  refine ⟨fun key l h => ?_, fun key l h => ?_, fun l => ?_⟩
  · have hne : key ≠ r.key := by
      rintro rfl
      rw [hreg] at h
      cases h
    exact (update_of_ne hne _ _).trans h
  · change update s.registry r.key (some s.next) key = some l at h
    by_cases hkey : key = r.key
    · rw [hkey, update_self, Option.some.injEq] at h
      exact .inr (h ▸ hleased)
    · rw [update_of_ne hkey] at h
      exact .inl h
  · by_cases hl : l = s.next
    · exact .inl (hl ▸ hleased)
    · exact .inr (update_of_ne hl _ _)

/-- **What a step does to the registry**: it retires nothing, or it drops a lease. -/
theorem step_keeps (h : Inv s) (ev : Event K) : Keeps s (step s ev) ∨
    ∃ i key l after, s.tasks[i]? = some (.leave key l after) ∧
      step s ev = (dropLease s key).goto i after := by
  have hdoes := step_does h ev
  generalize step s ev = s' at hdoes
  cases hdoes with
  | same | invoke | goto => exact .inl (keeps_of_eq rfl rfl)
  | acquire hi hpc hreg hlease =>
    exact .inl (keeps_of_lease hi hlease rfl rfl fun _ hl => update_of_ne hl _ _)
  | acquireNew hi hreg => exact .inl (keeps_acquire_new hi hreg)
  | leased hi hlease hs' => exact .inl (hs'.keeps hi)
  | drop hi => exact .inr ⟨_, _, _, _, hi, rfl⟩

/-- A lock with a lease left, or a holder, stays. -/
theorem InUse.dropLease (hu : InUse s) (h : Inv s) {after : Pc K}
    (hi : s.tasks[i]? = some (.leave key l after)) : InUse ((dropLease s key).goto i after) := by
  obtain ⟨hreg, -⟩ := h.tasks i _ hi
  intro key' l' hreg'
  obtain ⟨hreg', hkeep⟩ := (registry_dropLease hreg).1 hreg'
  have hlock : ((KeyLocks.dropLease s key).goto i after).locks l' = _ := locks_dropLease hreg l'
  rw [hlock]
  by_cases hl : l = l'
  · subst hl
    have hleased : (s.locks l).leases ≠ 0 :=
      h.leases_ne_zero.2 ⟨_, mem_of_getElem? hi, beq_self_eq_true l⟩
    by_cases hone : (s.locks l).leases = 1
    · right
      intro hnil
      refine hkeep ⟨h.injective _ _ _ hreg' hreg, hone, ?_⟩
      rw [h.mirror_last hi hone]
      exact length_eq_zero_iff.2 hnil
    · left
      rw [if_pos rfl]
      show (s.locks l).leases - 1 ≠ 0
      omega
  · rw [if_neg hl]
    exact hu key' l' hreg'

/-- One step keeps every registered lock in use. -/
theorem inUse_step (h : Inv s) (hu : InUse s) (ev : Event K) : InUse (step s ev) := by
  rcases step_keeps h ev with hk | ⟨i, key, l, after, hi, heq⟩
  · exact hk.inUse (inv_step s ev h) hu
  · rw [heq]
    exact hu.dropLease h hi

/-- So does every run. -/
theorem inUse_after (es : List (Event K)) : InUse (after es) :=
  (run_invariant (I := fun s : System K => Inv s ∧ InUse s)
    (fun s ev hs => ⟨inv_step s ev hs.1, inUse_step hs.1 hs.2 ev⟩)
    ⟨inv_init, by simp [InUse, System.init]⟩ es).2

/-- A lock that a step retires is held by nobody, and nobody waits for it. -/
theorem Inv.retires (h : Inv s) (ev : Event K) (hreg : s.registry key = some l)
    (hgone : (step s ev).registry key ≠ some l) :
    (s.locks l).state.holders = [] ∧ ¬ s.WaitsOn l := by
  rcases step_keeps h ev with hk | ⟨i, key', l', after, hi, heq⟩
  · exact absurd (hk.kept key l hreg) hgone
  obtain ⟨hreg', -⟩ := h.tasks i _ hi
  rw [heq] at hgone
  obtain ⟨rfl, hone, hzero⟩ := not_not.1 fun hnot =>
    hgone ((registry_dropLease hreg').2 ⟨hreg, hnot⟩)
  obtain rfl := Option.some.inj (hreg'.symm.trans hreg)
  constructor
  · rw [h.mirror_last hi hone] at hzero
    exact length_eq_zero_iff.1 hzero
  rintro ⟨r, pc, hpc⟩
  obtain ⟨j, hj⟩ := mem_iff_getElem?.1 hpc
  have hji : j ≠ i := by
    rintro rfl
    cases hi.symm.trans hj
  have := h.alone hi (beq_self_eq_true l') hone hji hj
  simp [Pc.leases, Pc.lease] at this

/-- **Every key has one lock at a time.**  In every run: the live locks of a key are one, and a
lock that is held is registered under one key; the next step takes a lock from its key only if
nobody holds it or waits for it; and a registered lock is held, or some call has a lease on
it. -/
theorem one_lock_per_key (es : List (Event K)) :
    (∀ key l l', (after es).Live key l → (after es).Live key l' → l = l') ∧
      (∀ l, ((after es).locks l).state.holders ≠ [] → ∃! key, (after es).registry key = some l) ∧
      (∀ ev key l, (after es).registry key = some l → (step (after es) ev).registry key ≠ some l →
        ((after es).locks l).state.holders = [] ∧ ¬ (after es).WaitsOn l) ∧
      ∀ key l, (after es).registry key = some l → ((after es).locks l).state.holders ≠ [] ∨
        ∃ pc ∈ (after es).tasks, pc.lease = some (key, l) := by
  have h := inv_after es
  have hlive : ∀ key l, (after es).Live key l → (after es).registry key = some l := by
    rintro key l (hreg | ⟨pc, hpc, hlease⟩)
    · exact hreg
    · obtain ⟨j, hj⟩ := mem_iff_getElem?.1 hpc
      exact (h.tasks j pc hj).registry hlease
  refine ⟨fun key l l' hl hl' => ?_, fun l hheld => ?_, fun ev key l => h.retires ev, ?_⟩
  · exact Option.some.inj ((hlive key l hl).symm.trans (hlive key l' hl'))
  · obtain ⟨key, hkey⟩ := not_forall_not.1 (mt (h.retired l) hheld)
    exact ⟨key, hkey, fun key' hkey' => h.injective key' key l hkey' hkey⟩
  · intro key l hreg
    rcases inUse_after es key l hreg with hleases | hheld
    · obtain ⟨pc, hpc, hl⟩ := h.leases_ne_zero.1 hleases
      exact .inr ⟨pc, hpc, h.lease_of_leases hpc hl hreg⟩
    · exact .inl hheld

/-- Transaction 1 holds the key 5, and transaction 2 has parked behind it. -/
def contended : List (Event Nat) :=
  [.invoke (.lockKey ⟨5, 1, .exclusive⟩), .exec 0 true, .exec 0 true, .exec 0 true, .exec 0 true,
    .invoke (.lockKey ⟨5, 2, .exclusive⟩)] ++ replicate 7 (.exec 1 true)

/-- The key's lock is the one that transaction 1 holds, a second lock of the key is not live, and
no next step takes it from the key. -/
theorem one_lock_per_key_contended :
    ((after contended).locks 0).state.holders = [1] ∧ (after contended).WaitsOn 0 ∧
      (∃! key, (after contended).registry key = some 0) ∧
      (∀ l, (after contended).Live 5 l → l = 0) ∧
      ∀ ev, (step (after contended) ev).registry 5 = some 0 := by
  obtain ⟨hone, howner, hkept, -⟩ := one_lock_per_key contended
  have hheld : ((after contended).locks 0).state.holders = [1] := by decide +kernel
  have hreg : (after contended).registry 5 = some 0 := by decide +kernel
  have hne : ((after contended).locks 0).state.holders ≠ [] := by simp [hheld]
  refine ⟨hheld, ⟨⟨5, 2, .exclusive⟩, .parked, by decide +kernel⟩, howner 0 hne,
    fun l hl => hone 5 l 0 hl (.inl hreg), fun ev => ?_⟩
  by_contra hgone
  exact hne (hkept ev 5 0 hreg hgone).1

end ShamirDb.KeyLocks
