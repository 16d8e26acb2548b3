/-
# The accesses of the lock table

What each access of `lock_key` and `release_locks` does, in the terms of the invariant:
the steps of a call under its lease (`Leased`), and the steps that take or drop one
(`Relabel`).
-/
import ShamirDb.LockInvariant

namespace ShamirDb.KeyLocks

open List Function Option TaskList

variable {K : Type}

/-! ## The loop of `lock_key` -/

/-- A step of call `i` under its lease of lock `l`, with all that has to be known of it.
`joins` says under which circumstances a transaction joins the holders. -/
structure Leased (s : System K) (i l : Nat) (key : K) (joins : Nat → Prop) (s' : System K) :
    Prop where
  exists_step : ∃ pc' lock' wounded permit, s' = s.stepped i l pc' lock' wounded permit ∧
    pc'.lease = some (key, l) ∧ Step s i l pc' lock' ∧
    (∀ t, s.wounded t = true → wounded t = true) ∧
    pc'.Ok (s.stepped i l pc' lock' wounded permit) i ∧
    (∀ h ∈ lock'.state.holders, h ∈ (s.locks l).state.holders ∨ joins h) ∧
    ∀ r, pc' = .locking r l .parked → i ∈ lock'.waiting →
      ∀ h ∈ lock'.state.holders, h = r.tx ∨ h < r.tx

section

variable {s : System K} {i l : Nat} {key : K} {pc : Pc K}

/-- A call outside of the mutex does not have the guard. -/
theorem Inv.guard_ne (h : Inv s) (hi : s.tasks[i]? = some pc)
    (hpc : ∀ r q, pc = .locking r l q → q.inside = false) : (s.locks l).guard ≠ some i := by
  intro hg
  obtain ⟨r, q, hq, hin⟩ := h.guard l i hg
  have := hpc r q (some.inj (hi.symm.trans hq))
  rw [this] at hin
  cases hin

/-- Only parked calls are queued. -/
theorem Inv.not_waiting (h : Inv s) (l : Nat) (hi : s.tasks[i]? = some pc)
    (hpc : ∀ r, pc ≠ .locking r l .parked) : i ∉ (s.locks l).waiting := by
  intro hw
  obtain ⟨r, hq⟩ := h.waiting l i hw
  exact hpc r (some.inj (hi.symm.trans hq))

/-- A step that leaves the lock alone. -/
theorem Leased.goto (h : Inv s) {pc' : Pc K} {joins : Nat → Prop}
    (hlease : pc'.lease = some (key, l)) {wounded permit : Nat → Bool}
    (hwounded : ∀ t, s.wounded t = true → wounded t = true)
    (hguard : (s.locks l).guard = some i → ∃ r q, pc' = .locking r l q ∧ q.inside = true)
    (hwaiting : i ∉ (s.locks l).waiting)
    (hok : pc'.Ok (s.stepped i l pc' (s.locks l) wounded permit) i) :
    Leased s i l key joins ({ s with wounded, permit }.goto i pc') := by
  refine ⟨pc', s.locks l, wounded, permit, ?_, hlease, ?_, hwounded, hok, fun _ => .inl, ?_⟩
  · simp [System.goto]
  · refine ⟨rfl, h.wf l, h.mirror l, fun j _ hj => ⟨hj, rfl, rfl⟩, ?_, ?_⟩
    · intro j hj
      by_cases hji : j = i
      · subst hji
        exact .inr ⟨rfl, hguard hj⟩
      · exact .inl ⟨hji, hj⟩
    · intro j hj
      exact .inl ⟨fun hji => hwaiting (hji ▸ hj), hj⟩
  · exact fun _ _ hin => absurd hin hwaiting

end

section

variable {s : System K} {i l : Nat} {r : Request K}

variable {st : KeyLockState} {tx j : Nat}

/-- The visit goes on while others are wounded. -/
theorem Visiting.carry_wounded {pc' : Pc K} {wounded permit : Nat → Bool}
    (hv : Visiting s i tx l j st) (hwounded : ∀ t, s.wounded t = true → wounded t = true) :
    Visiting (s.stepped i l pc' (s.locks l) wounded permit) i tx l j st := by
  have hlock : (s.stepped i l pc' (s.locks l) wounded permit).locks l = s.locks l :=
    locks_stepped_self
  refine ⟨?_, ⟨hv.copy.distinct, ?_, ?_⟩, ?_, ?_, hv.visited⟩ <;> rw [hlock]
  · exact hv.guard
  · exact hv.copy.sub
  · exact fun x hx => (hv.copy.lost x hx).imp_right (hwounded x)
  · exact hv.mode
  · exact hv.held

/-- An older holder, or the requester itself, is passed over. -/
theorem Visiting.skip (hv : Visiting s i tx l (j + 1) st)
    (hj : ∀ h, st.holders[j]? = some h → h = tx ∨ h < tx) : Visiting s i tx l j st := by
  refine ⟨hv.guard, hv.copy, hv.mode, hv.held, ?_⟩
  intro m h hm hget
  rcases Nat.eq_or_lt_of_le hm with rfl | hlt
  · exact hj h hget
  · exact hv.visited m h hlt hget

/-- A wounded younger holder is removed. -/
theorem Visiting.remove {victim : Nat} (hv : Visiting s i tx l (j + 1) st)
    (hget : st.holders[j]? = some victim) (hwounded : s.wounded victim = true) :
    Visiting s i tx l j { st with holders := swapRemove st.holders j } := by
  have hperm := perm_swapRemove hget
  refine ⟨hv.guard, ⟨?_, ?_, ?_⟩, hv.mode, hv.held, ?_⟩
  · exact (nodup_cons.1 (hperm.nodup_iff.1 hv.copy.distinct)).2
  · intro h hh
    exact hv.copy.sub h (hperm.mem_iff.2 (mem_cons_of_mem _ hh))
  · intro h hh
    rcases hv.copy.lost h hh with hin | hw
    · rcases mem_cons.1 (hperm.mem_iff.1 hin) with rfl | hin'
      · exact .inr hwounded
      · exact .inl hin'
    · exact .inr hw
  · intro m h hm hh
    obtain ⟨n, hn, hh'⟩ := getElem?_swapRemove hm hh
    exact hv.visited n h hn hh'

/-- When every holder has been visited, the copy is ready to be written back. -/
theorem Visiting.finish (h : Inv s) {woundedAny : Bool} (hv : Visiting s i tx l 0 st)
    (hsame : woundedAny = false → st = (s.locks l).state) :
    let st' := if woundedAny then st.recomputeMode else st
    st'.WellFormed ∧ st'.holders = st.holders ∧ ∀ h ∈ st.holders, h = tx ∨ h < tx := by
  refine ⟨?_, ?_, ?_⟩
  · cases woundedAny with
    | true => exact (h.wf l).recompute hv.mode hv.copy.distinct hv.held
    | false => exact hsame rfl ▸ h.wf l
  · cases woundedAny <;> simp
  · intro x hx
    obtain ⟨m, hm⟩ := mem_iff_getElem?.1 hx
    exact hv.visited m x (Nat.zero_le m) hm

/-- The copy is written back when the mutex is released; `lock` is the lock as published
so far. -/
theorem Leased.unlock (lock : KeyLock) {waiting : List Nat} {pc' : Pc K} {joins : Nat → Prop}
    (hguard : (s.locks l).guard = some i) (hleases : lock.leases = (s.locks l).leases)
    (hpublished : lock.holders = st.holders.length) (hwf : st.WellFormed)
    (hsub : ∀ h ∈ st.holders, h ∈ (s.locks l).state.holders) (hlease : pc'.lease = some (r.key, l))
    (hwaiting : ∀ j ∈ waiting, (j ≠ i ∧ j ∈ (s.locks l).waiting) ∨
      (j = i ∧ pc' = .locking r l .parked ∧ ∀ h ∈ st.holders, h = r.tx ∨ h < r.tx))
    (hpc' : pc'.Ok (s.stepped i l pc'
      { lock with state := st, guard := none, waiting } s.wounded s.permit) i) :
    Leased s i l r.key joins
      ((s.setLock l { lock with state := st, guard := none, waiting }).goto i pc') := by
  refine ⟨pc', _, s.wounded, s.permit, rfl, hlease, ?_, fun _ => id, hpc',
    fun x hx => .inl (hsub x hx), ?_⟩
  · refine ⟨hleases, hwf, fun _ => hpublished, ?_, ?_, ?_⟩
    · intro j hj hg
      exact absurd (some.inj (hg.symm.trans hguard)) hj
    · nofun
    · intro j hj
      rcases hwaiting j hj with hold | ⟨hji, hp, -⟩
      · exact .inl hold
      · exact .inr ⟨hji, r, hp⟩
  · intro r' hr' hin
    rcases hwaiting i hin with ⟨hne, -⟩ | ⟨-, hp, hall⟩
    · exact absurd rfl hne
    · cases hr'.symm.trans hp
      exact hall

end

/-- The circumstances under which `lock_key` makes a transaction join the holders. -/
def Joins (s : System K) (r : Request K) (l : Nat) (pc : LockPc) (h : Nat) : Prop :=
  h = r.tx ∧ pc = .enter ∧ (s.locks l).guard = none ∧
    (s.locks l).state.compatible r.tx r.mode = true ∧ (s.locks l).state.heldBy r.tx = false

variable {i l : Nat} {r : Request K} {s s' : System K} {joins : Nat → Prop} {pc : Pc K} {e : Bool}
  {key : K}

/-- The mutex is locked: the key is granted, or the holders are visited. -/
theorem lockStep_enter (h : Inv s) (hi : s.tasks[i]? = some (.locking r l .enter)) :
    lockStep i e s r l .enter = s ∨
      Leased s i l r.key (Joins s r l .enter) (lockStep i e s r l .enter) := by
  have hreg := (h.tasks i _ hi).1
  have hnw := h.not_waiting l hi (by simp)
  cases hg : (s.locks l).guard with
  | some j => exact .inl (by simp [lockStep, hg])
  | none =>
    right
    by_cases hc : (s.locks l).state.compatible r.tx r.mode = true
    · simp only [lockStep, hg, hc]
      refine ⟨_, _, s.wounded, s.permit, rfl, rfl, ?_, fun _ => id, ⟨hreg, rfl⟩, ?_, ?_⟩
      · refine ⟨rfl, (h.wf l).grant hc, fun _ => rfl, ?_, ?_, ?_⟩
        · simp [hg]
        · simp
        · exact fun j hj => .inl ⟨fun hji => hnw (hji ▸ hj), hj⟩
      · intro x hx
        rcases KeyLockState.mem_grant hx with hin | ⟨heq, hnot⟩
        · exact .inl hin
        · exact .inr ⟨heq, rfl, hg, hc, hnot⟩
      · simp
    simp only [lockStep, hg, hc]
    have hheld : (s.locks l).state.holders ≠ [] := by
      intro hnil
      apply hc
      simp [KeyLockState.compatible, (h.wf l).mode_none.2 hnil]
    refine ⟨_, _, s.wounded, s.permit, rfl, rfl, ?_, fun _ => id, ⟨hreg, ?_⟩, fun _ => .inl, ?_⟩
    · refine ⟨rfl, h.wf l, (by simp), ?_, ?_, ?_⟩
      · simp [hg]
      · intro j hj
        cases hj
        exact .inr ⟨rfl, r, _, rfl, rfl⟩
      · exact fun j hj => .inl ⟨fun hji => hnw (hji ▸ hj), hj⟩
    · refine ⟨⟨?_, ⟨(h.wf l).distinct, ?_, ?_⟩, ?_, ?_, ?_⟩, fun _ => ⟨?_, ?_⟩⟩
      all_goals try simp only [update_self]
      · exact fun _ => id
      · exact fun _ => .inl
      · exact hheld
      · intro m x hm hx
        rw [getElem?_eq_none hm] at hx
        cases hx
      · exact h.mirror l hg
    · simp

/-- One holder is visited, or the visit ends. -/
theorem lockStep_scan (h : Inv s) {j : Nat} {st : KeyLockState} {mustWait woundedAny : Bool}
    (hi : s.tasks[i]? = some (.locking r l (.scan j st mustWait woundedAny))) :
    Leased s i l r.key (fun _ => False)
      (lockStep i e s r l (.scan j st mustWait woundedAny)) := by
  obtain ⟨hreg, hv, hsame⟩ := h.tasks i _ hi
  have hnw := h.not_waiting l hi (by simp)
  cases j with
  | succ j =>
    -- the holder stays in the copy
    have hskip : ∀ mustWait', (∀ x, st.holders[j]? = some x → x = r.tx ∨ x < r.tx) →
        Leased s i l r.key (fun _ => False)
          (s.goto i (.locking r l (.scan j st mustWait' woundedAny))) := by
      intro mustWait' hx
      refine Leased.goto h rfl (fun _ => id) (fun _ => ⟨r, _, rfl, rfl⟩) hnw ⟨hreg, ?_, ?_⟩
      · exact (hv.skip hx).carry_wounded (fun _ => id)
      · rw [locks_stepped_self]
        exact hsame
    cases hget : st.holders[j]? with
    | none =>
      simp only [lockStep, hget]
      exact hskip mustWait (by simp [hget])
    | some x =>
      simp only [lockStep, hget]
      split
      case isTrue heq => exact hskip mustWait (by simp [hget, heq])
      case isFalse hne =>
        split
        case isFalse hlt =>
          refine hskip true fun y hy => .inr ?_
          rw [hget, some.injEq] at hy
          omega
        case isTrue hlt =>
          have hmono : ∀ t, s.wounded t = true → update s.wounded x true t = true := by
            intro t ht
            by_cases htx : t = x
            · subst htx; simp
            · rw [update_of_ne htx, ht]
          refine Leased.goto h rfl hmono (fun _ => ⟨r, _, rfl, rfl⟩) hnw ⟨hreg, ?_, hget, ?_⟩
          · exact hv.carry_wounded hmono
          · simp
  | zero =>
    obtain ⟨hwf, hholders, holder⟩ := hv.finish h (fun hno => (hsame hno).1)
    have hsub : ∀ x ∈ (if woundedAny then st.recomputeMode else st).holders,
        x ∈ (s.locks l).state.holders := by
      rw [hholders]
      exact hv.copy.sub
    simp only [lockStep]
    generalize hst : (if woundedAny then st.recomputeMode else st) = st' at hwf hholders hsub
    generalize hlock : (if woundedAny then
      { s.locks l with holders := st'.holders.length, waiting := [] } else s.locks l) = lock
    -- the published lock differs in its mirror and in the queue only
    have hstate : lock.state = (s.locks l).state ∧ lock.guard = (s.locks l).guard ∧
        lock.leases = (s.locks l).leases := by
      subst hlock
      cases woundedAny <;> exact ⟨rfl, rfl, rfl⟩
    have hpublished : lock.holders = st'.holders.length := by
      subst hlock
      cases woundedAny with
      | true => rfl
      | false => rw [hholders]; exact (hsame rfl).2
    have hqueue : ∀ j ∈ lock.waiting, j ≠ i ∧ j ∈ (s.locks l).waiting := by
      intro j hj
      have hin : j ∈ (s.locks l).waiting := by
        subst hlock
        cases woundedAny with
        | true => cases hj
        | false => exact hj
      exact ⟨fun hji => hnw (hji ▸ hin), hin⟩
    cases mustWait with
    | false =>
      exact Leased.unlock lock hv.guard hstate.2.2 hpublished hwf hsub rfl
        (fun j hj => .inl (hqueue j hj)) ⟨hreg, trivial⟩
    | true =>
      refine ⟨_, lock, s.wounded, s.permit, rfl, rfl, ?_, fun _ => id, ⟨hreg, ?_⟩,
        fun x hx => .inl (hstate.1 ▸ hx), nofun⟩
      · refine ⟨hstate.2.2, hstate.1 ▸ h.wf l, ?_, ?_, ?_, fun j hj => .inl (hqueue j hj)⟩
        · simp [hstate.2.1, hv.guard]
        · intro j hj hg
          exact absurd (some.inj (hg.symm.trans hv.guard)) hj
        · intro j hj
          rw [hstate.2.1, hv.guard, some.injEq] at hj
          exact .inr ⟨hj.symm, r, _, rfl, rfl⟩
      · refine ⟨?_, ⟨?_, ?_, ?_⟩, hwf, ?_, ?_⟩
        all_goals try simp only [update_self]
        · exact hstate.2.1.trans hv.guard
        · exact hholders ▸ hv.copy.distinct
        · rw [hstate.1]; exact hsub
        · rw [hstate.1, hholders]; exact hv.copy.lost
        · exact hpublished
        · rw [hholders]; exact holder

/-- A queued call leaves the queue. -/
theorem Leased.unpark (h : Inv s) {pc' : Pc K} {permit : Nat → Bool}
    (hi : s.tasks[i]? = some (.locking r l .parked)) (hlease : pc'.lease = some (r.key, l))
    (hok : ∀ s' : System K, s'.registry = s.registry → pc'.Ok s' i)
    (hparked : ∀ r, pc' ≠ .locking r l .parked) :
    Leased s i l r.key joins
      (s.stepped i l pc' { s.locks l with waiting := (s.locks l).waiting.filter (· != i) }
        s.wounded permit) := by
  have hg : (s.locks l).guard ≠ some i := by
    refine h.guard_ne hi ?_
    rintro r' q ⟨⟩
    rfl
  refine ⟨pc', _, s.wounded, permit, rfl, hlease, ?_, fun _ => id, hok _ rfl,
    fun _ => .inl, fun r' hr' => absurd hr' (hparked r')⟩
  refine ⟨rfl, h.wf l, h.mirror l, fun j _ hj => ⟨hj, rfl, rfl⟩, ?_, ?_⟩
  · exact fun j hj => .inl ⟨fun hji => hg (hji ▸ hj), hj⟩
  · intro j hj
    obtain ⟨hin, hne⟩ := mem_filter.1 hj
    exact .inl ⟨by simpa using hne, hin⟩

/-- Every access of `lock_key` is a step under a lease. -/
theorem lockStep_leased (h : Inv s) {pc : LockPc} (hi : s.tasks[i]? = some (.locking r l pc)) :
    lockStep i e s r l pc = s ∨ Leased s i l r.key (Joins s r l pc) (lockStep i e s r l pc) := by
  have hreg := (h.tasks i _ hi).1
  have hpc := (h.tasks i _ hi).2
  cases pc with
  | check =>
    right
    have hg : (s.locks l).guard ≠ some i := h.guard_ne hi (by rintro r' q ⟨⟩; rfl)
    have hnw := h.not_waiting l hi (by simp)
    simp only [lockStep]
    split
    · exact Leased.goto h rfl (fun _ => id) (fun hg' => absurd hg' hg) hnw ⟨hreg, rfl⟩
    · exact Leased.goto h rfl (fun _ => id) (fun hg' => absurd hg' hg) hnw ⟨hreg, trivial⟩
  | enter => exact lockStep_enter h hi
  | scan j st mustWait woundedAny =>
    right
    obtain ⟨pc', lock', w, p, hs', hlease, hstep, hw, hok, hjoin, hself⟩ :=
      (lockStep_scan h hi).exists_step
    exact ⟨pc', lock', w, p, hs', hlease, hstep, hw, hok,
      fun x hx => (hjoin x hx).imp_right False.elim, hself⟩
  | poke j victim st mustWait =>
    right
    obtain ⟨hv, hget, hwounded⟩ := hpc
    have hnw := h.not_waiting l hi (by simp)
    refine Leased.goto h rfl (fun _ => id) (fun _ => ⟨r, _, rfl, rfl⟩) hnw ⟨hreg, ?_, by simp⟩
    exact (hv.remove hget hwounded).carry_wounded (fun _ => id)
  | recheck st =>
    right
    have hv : Visited s i r.tx l st := hpc
    have hnw := h.not_waiting l hi (by simp)
    simp only [lockStep]
    split
    · exact Leased.unlock (s.locks l) hv.guard rfl hv.published hv.wf hv.copy.sub rfl
        (fun j hj => .inl ⟨fun hji => hnw (hji ▸ hj), hj⟩) ⟨hreg, rfl⟩
    · refine Leased.goto h rfl (fun _ => id) (fun _ => ⟨r, _, rfl, rfl⟩) hnw ⟨hreg, ?_⟩
      have hpark : (LockPc.park st).Ok s i r.tx l := hv
      refine hpark.carry (fun _ => ?_) (fun _ => id)
      rw [locks_stepped_self]
      exact ⟨hv.guard, rfl, rfl⟩
  | park st =>
    right
    have hv : Visited s i r.tx l st := hpc
    have hnw := h.not_waiting l hi (by simp)
    refine Leased.unlock (s.locks l) hv.guard rfl hv.published hv.wf hv.copy.sub rfl ?_
      ⟨hreg, trivial⟩
    intro j hj
    rcases mem_cons.1 hj with rfl | hj
    · exact .inr ⟨rfl, rfl, hv.older⟩
    · exact .inl ⟨fun hji => hnw (hji ▸ hj), hj⟩
  | parked =>
    have hg : (s.locks l).guard ≠ some i := h.guard_ne hi (by rintro r' q ⟨⟩; rfl)
    simp only [lockStep]
    split
    · split
      · right
        exact Leased.unpark h hi rfl (fun s' hs' => ⟨hs' ▸ hreg, trivial⟩) (by simp)
      · exact .inl rfl
    · split
      · exact .inl rfl
      case isFalse hnw =>
        right
        exact Leased.goto h rfl (fun _ => id) (fun hg' => absurd hg' hg) hnw ⟨hreg, trivial⟩

/-- A key is given back under a lease. -/
theorem release_leased (h : Inv s) {tx : Nat} {keys : List K}
    (hi : s.tasks[i]? = some (.releasing tx key l keys)) (hg : (s.locks l).guard = none) :
    Leased s i l key (fun _ => False)
      ((s.setLock l ((s.locks l).release tx)).goto i (.leave key l (.release tx keys))) := by
  have hreg : s.registry key = some l := h.tasks i _ hi
  have hnw := h.not_waiting l hi (by simp)
  have hguard : ((s.locks l).release tx).guard = none := by
    simp only [KeyLock.release]
    split <;> exact hg
  refine ⟨_, _, s.wounded, s.permit, rfl, rfl, ?_, fun _ => id, ⟨hreg, rfl⟩,
    fun x hx => .inl (KeyLock.mem_release hx), (by simp)⟩
  refine ⟨?_, KeyLock.release_wellFormed (h.wf l) tx, ?_, ?_, ?_, ?_⟩
  · simp only [KeyLock.release]
    split <;> rfl
  · intro _
    simp only [KeyLock.release]
    split
    · simp
    · exact h.mirror l hg
  · simp [hg]
  · simp [hguard]
  · intro j hj
    have hin : j ∈ (s.locks l).waiting := by
      simp only [KeyLock.release] at hj
      split at hj
      · cases hj
      · exact hj
    exact .inl ⟨fun hji => hnw (hji ▸ hin), hin⟩

/-- Both invariants survive a step under a lease. -/
theorem Leased.inv {s : System K} (h : Inv s) (hi : s.tasks[i]? = some pc)
    (hlease : pc.lease = some (key, l)) (hs' : Leased s i l key joins s') : Inv s' := by
  obtain ⟨pc', lock', w, p, rfl, hlease', hstep, hw, hok, -, -⟩ := hs'.exists_step
  exact h.stepped hi hlease hlease' hstep hw hok

/-- A step under a lease keeps the ages of those who wait. -/
theorem Leased.ages {s : System K} (ha : Ages s) (hi : s.tasks[i]? = some pc)
    (hs' : Leased s i l key joins s')
    (hjoins : ∀ h, joins h → ∀ j ∈ (s.locks l).waiting, ∀ q,
      s.tasks[j]? = some (.locking q l .parked) → s.wounded q.tx = false → h ≤ q.tx) : Ages s' := by
  obtain ⟨pc', lock', w, p, rfl, hlease', hstep, hw, -, hjoin, hself⟩ := hs'.exists_step
  exact ha.stepped hi hlease' hstep hw (fun x hx => (hjoin x hx).imp_right (hjoins x)) hself

/-! ## Steps that take or drop a lease -/

/-- Call `i` is neither behind a mutex nor queued. -/
def Pc.idle : Pc K → Bool
  | .locking _ _ .check | .locking _ _ .enter => true
  | .locking _ _ _ => false
  | _ => true

/-- An idle call has no mutex and is not parked. -/
theorem Pc.idle_inside {l : Nat} {q : LockPc} (h : (Pc.locking r l q).idle = true) :
    q.inside = false ∧ q ≠ .parked := by
  cases q <;> simp_all [Pc.idle, LockPc.inside]

/-- A call without a lease is well placed in every state. -/
theorem Pc.outside_spec (h : pc.outside = true) :
    pc.lease = none ∧ pc.idle = true ∧ ∀ (s : System K) i, pc.Ok s i := by
  cases pc <;> first | exact ⟨rfl, rfl, fun _ _ => trivial⟩ | cases h

/-- What a step that moves call `i` between idle points and only touches lease counters and
the registry has to show. -/
structure Relabel (s s' : System K) (i : Nat) (pc' : Pc K) : Prop where
  tasks : s'.tasks = s.tasks.set i pc'
  wounded : s'.wounded = s.wounded
  locks : ∀ l, s'.locks l = { s.locks l with leases := (s'.locks l).leases }

section

variable {s s' : System K} {i : Nat} {pc pc' : Pc K}

section

variable (hr : Relabel s s' i pc')
include hr

/-- The call that moves on. -/
theorem Relabel.tasks_self (hi : s.tasks[i]? = some pc) : s'.tasks[i]? = some pc' := by
  rw [hr.tasks]
  exact set_self hi pc'

/-- The other calls stay. -/
theorem Relabel.tasks_of_ne {j : Nat} (hj : j ≠ i) : s'.tasks[j]? = s.tasks[j]? := by
  rw [hr.tasks]
  exact set_other hj pc'

/-- The locks keep their states, guards, queues and holders. -/
theorem Relabel.same (l : Nat) :
    (s'.locks l).state = (s.locks l).state ∧ (s'.locks l).guard = (s.locks l).guard ∧
      (s'.locks l).waiting = (s.locks l).waiting ∧ (s'.locks l).holders = (s.locks l).holders := by
  rw [hr.locks l]
  exact ⟨rfl, rfl, rfl, rfl⟩

/-- A call moves on without a change to the locks' states. -/
theorem Relabel.inv (h : Inv s) (hi : s.tasks[i]? = some pc) (hidle : pc.idle = true)
    (hregistered : ∀ key l, s'.registry key = some l → l < s'.next)
    (hinjective : ∀ key key' l, s'.registry key = some l → s'.registry key' = some l → key = key')
    (hleases : ∀ l, (s'.locks l).leases = (s.tasks.set i pc').countP (Pc.leases l))
    (hunused : ∀ l, s'.next ≤ l → s.next ≤ l ∧ (s'.locks l).leases = 0)
    (hretired : ∀ l, (∀ key, s'.registry key ≠ some l) → (s.locks l).state.holders = [])
    (hother : ∀ j, j ≠ i → ∀ q : Pc K, s.tasks[j]? = some q → ∀ key l, q.lease = some (key, l) →
      s'.registry key = some l) (hok : pc'.Ok s' i) : Inv s' := by
  refine ⟨?_, hregistered, hinjective, ?_, ?_, ?_, ?_, ?_, ?_, ?_⟩
  · intro l
    rw [(hr.same l).1]
    exact h.wf l
  · intro l
    rw [hr.tasks]
    exact hleases l
  · intro l hl
    obtain ⟨hold, hzero⟩ := hunused l hl
    rw [hr.locks l, hzero, h.unused l hold]
    rfl
  · intro l
    rw [(hr.same l).1, (hr.same l).2.1, (hr.same l).2.2.2]
    exact h.mirror l
  · intro l hl
    rw [(hr.same l).1]
    exact hretired l hl
  · intro l j hj
    rw [(hr.same l).2.1] at hj
    obtain ⟨r, q, hq, hin⟩ := h.guard l j hj
    have hji : j ≠ i := by
      rintro rfl
      cases hi.symm.trans hq
      rw [(Pc.idle_inside hidle).1] at hin
      cases hin
    exact ⟨r, q, (hr.tasks_of_ne hji).trans hq, hin⟩
  · intro l j hj
    rw [(hr.same l).2.2.1] at hj
    obtain ⟨r, hq⟩ := h.waiting l j hj
    have hji : j ≠ i := by
      rintro rfl
      cases hi.symm.trans hq
      exact (Pc.idle_inside hidle).2 rfl
    exact ⟨r, (hr.tasks_of_ne hji).trans hq⟩
  · intro j q hq
    by_cases hji : j = i
    · subst hji
      cases (hr.tasks_self hi).symm.trans hq
      exact hok
    rw [hr.tasks_of_ne hji] at hq
    have hqok := h.tasks j q hq
    cases q with
    | acquire | release | returned => trivial
    | releasing tx key l keys => exact hother j hji _ hq key l rfl
    | leave key l after => exact ⟨hother j hji _ hq key l rfl, hqok.2⟩
    | locking r l q =>
      refine ⟨hother j hji _ hq r.key l rfl, hqok.2.carry (fun hg => ?_) (fun t ht => ?_)⟩
      · rw [(hr.same l).2.1]
        exact ⟨hg, (hr.same l).1, (hr.same l).2.2.2⟩
      · rw [hr.wounded]
        exact ht

/-- Such a step keeps the ages. -/
theorem Relabel.ages (ha : Ages s) (hi : s.tasks[i]? = some pc)
    (hidle : pc'.idle = true) : Ages s' := by
  intro l j hj q hq
  rw [(hr.same l).2.2.1] at hj
  rw [(hr.same l).1, hr.wounded]
  by_cases hji : j = i
  · subst hji
    cases (hr.tasks_self hi).symm.trans hq
    exact absurd rfl (Pc.idle_inside hidle).2
  · rw [hr.tasks_of_ne hji] at hq
    exact ha l j hj q hq

end

/-- A call moves on. -/
theorem relabel_goto (s : System K) (i : Nat) (pc' : Pc K) : Relabel s (s.goto i pc') i pc' :=
  ⟨rfl, rfl, fun _ => rfl⟩

/-- A lease is added to one lock. -/
theorem locks_acquire (s : System K) (i l : Nat) (pc' : Pc K) (l' : Nat) :
    ((s.setLock l (s.locks l).lease).goto i pc').locks l' =
      { s.locks l' with leases := (s.locks l').leases + if l' = l then 1 else 0 } := by
  by_cases hl : l' = l
  · subst hl
    simp [System.setLock, System.goto, KeyLock.lease]
  · simp [System.setLock, System.goto, hl]

/-- A lease on a registered lock. -/
theorem relabel_acquire (s : System K) (i l : Nat) (pc' : Pc K) :
    Relabel s ((s.setLock l (s.locks l).lease).goto i pc') i pc' := by
  refine ⟨rfl, rfl, fun l' => ?_⟩
  rw [locks_acquire]

/-- A lease on a new lock. -/
theorem relabel_acquire_new [DecidableEq K] (h : Inv s) (key : K) :
    Relabel s ({ s.setLock s.next KeyLock.new.lease with
        registry := update s.registry key (some s.next)
        next := s.next + 1 }.goto i pc') i pc' := by
  rw [← h.unused s.next (Nat.le_refl _)]
  exact ⟨rfl, rfl, (relabel_acquire s i s.next pc').locks⟩

/-- A lease is dropped. -/
theorem relabel_dropLease [DecidableEq K] (s : System K) (i : Nat) (key : K) (pc' : Pc K) :
    Relabel s ((KeyLocks.dropLease s key).goto i pc') i pc' := by
  cases hreg : s.registry key with
  | none =>
    simp only [KeyLocks.dropLease, hreg]
    exact relabel_goto s i pc'
  | some l =>
    simp only [KeyLocks.dropLease, hreg]
    refine ⟨?_, ?_, fun l' => ?_⟩
    · split <;> rfl
    · split <;> rfl
    · by_cases hl : l' = l
      · subst hl
        split <;> simp [System.setLock, System.goto]
      · split <;> simp [System.setLock, System.goto, hl]

/-- A call without a lease moves on without one. -/
theorem Inv.goto (h : Inv s) (hi : s.tasks[i]? = some pc) (hpc : pc.outside = true)
    (hpc' : pc'.outside = true) : Inv (s.goto i pc') := by
  obtain ⟨hlease, hidle, -⟩ := Pc.outside_spec hpc
  obtain ⟨hlease', -, hok⟩ := Pc.outside_spec hpc'
  refine (relabel_goto s i pc').inv h hi hidle h.registered h.injective ?_ ?_ h.retired ?_ (hok _ i)
  · intro l
    have := countP_set_add hi pc' l
    simp only [Pc.leases, hlease, hlease'] at this
    rw [show ((s.goto i pc').locks l).leases = (s.locks l).leases from rfl, h.leases]
    simpa using this.symm
  · intro l hl
    exact ⟨hl, by rw [show (s.goto i pc').locks l = s.locks l from rfl, h.unused l hl]; rfl⟩
  · exact fun j _ q hq key l hl => (h.tasks j q hq).registry hl

end

section

variable {s : System K} {i : Nat} {pc pc' : Pc K} {key : K} {l : Nat}

/-- `LockLease::acquire` on a registered lock. -/
theorem Inv.acquire (h : Inv s) (hi : s.tasks[i]? = some pc) (hpc : pc.outside = true)
    (hreg : s.registry key = some l)
    (hlease' : pc'.lease = some (key, l))
    (hok : ∀ s' : System K, s'.registry = s.registry → pc'.Ok s' i) :
    Inv ((s.setLock l (s.locks l).lease).goto i pc') := by
  obtain ⟨hlease, hidle, -⟩ := Pc.outside_spec hpc
  have hlocks := locks_acquire s i l pc'
  refine (relabel_acquire s i l pc').inv h hi hidle h.registered h.injective ?_ ?_ h.retired ?_ (hok _ rfl)
  · intro l'
    have := countP_set_add hi pc' l'
    rw [Pc.leases_of_lease hlease', show pc.leases l' = false by simp [Pc.leases, hlease]] at this
    rw [hlocks l', h.leases]
    simp only [Bool.false_eq_true, if_false, Nat.add_zero] at this
    rw [this]
    by_cases hl : l' = l
    · subst hl; simp
    · simp [hl, Ne.symm hl]
  · intro l' hl'
    have hl : l' ≠ l := by
      rintro rfl
      exact absurd (h.registered key l' hreg) (Nat.not_lt.2 hl')
    refine ⟨hl', ?_⟩
    rw [hlocks l', h.unused l' hl']
    simp [KeyLock.new, hl]
  · exact fun j _ q hq key' l' hl' => (h.tasks j q hq).registry hl'

/-- `LockLease::acquire` of a key without a lock makes one. -/
theorem Inv.acquire_new [DecidableEq K] (h : Inv s) (hi : s.tasks[i]? = some pc) (hpc : pc.outside = true)
    (hreg : s.registry key = none)
    (hlease' : pc'.lease = some (key, s.next))
    (hok : ∀ s' : System K, s'.registry key = some s.next → pc'.Ok s' i) :
    Inv ({ s.setLock s.next KeyLock.new.lease with
        registry := update s.registry key (some s.next)
        next := s.next + 1 }.goto i pc') := by
  obtain ⟨hlease, hidle, -⟩ := Pc.outside_spec hpc
  generalize hs' : ({ s.setLock s.next KeyLock.new.lease with
        registry := update s.registry key (some s.next)
        next := s.next + 1 } : System K).goto i pc' = s'
  have hregistry : s'.registry = update s.registry key (some s.next) := by rw [← hs']; rfl
  have hnext : s'.next = s.next + 1 := by rw [← hs']; rfl
  have hlocks : ∀ l', s'.locks l' =
      { s.locks l' with leases := (s.locks l').leases + if l' = s.next then 1 else 0 } := by
    intro l'
    rw [← hs', ← locks_acquire s i s.next pc' l', h.unused s.next (Nat.le_refl _)]
    rfl
  have hr : Relabel s s' i pc' := hs' ▸ relabel_acquire_new h key
  -- a lease on the new lock would be a lease on an unused one
  have hold : ∀ key' l', s'.registry key' = some l' →
      (key' = key ∧ l' = s.next) ∨ (key' ≠ key ∧ s.registry key' = some l') := by
    intro key' l' hl'
    rw [hregistry] at hl'
    by_cases hk : key' = key
    · subst hk
      rw [update_self, some.injEq] at hl'
      exact .inl ⟨rfl, hl'.symm⟩
    · rw [update_of_ne hk] at hl'
      exact .inr ⟨hk, hl'⟩
  refine hr.inv h hi hidle ?_ ?_ ?_ ?_ ?_ ?_ (hok s' (by rw [hregistry, update_self]))
  · intro key' l' hl'
    rw [hnext]
    rcases hold key' l' hl' with ⟨-, rfl⟩ | ⟨-, hl'⟩
    · omega
    · exact Nat.lt_succ_of_lt (h.registered key' l' hl')
  · intro key₁ key₂ l' h₁ h₂
    rcases hold key₁ l' h₁ with ⟨rfl, rfl⟩ | ⟨-, h₁⟩ <;>
      rcases hold key₂ _ h₂ with ⟨rfl, hl⟩ | ⟨-, h₂⟩
    · rfl
    · exact absurd (h.registered _ _ h₂) (Nat.lt_irrefl _)
    · exact absurd (hl ▸ h.registered _ _ h₁) (Nat.lt_irrefl _)
    · exact h.injective _ _ _ h₁ h₂
  · intro l'
    have := countP_set_add hi pc' l'
    rw [Pc.leases_of_lease hlease', show pc.leases l' = false by simp [Pc.leases, hlease]] at this
    rw [hlocks l', h.leases]
    simp only [Bool.false_eq_true, if_false, Nat.add_zero] at this
    rw [this]
    by_cases hl : l' = s.next
    · subst hl; simp
    · simp [hl, Ne.symm hl]
  · intro l' hl'
    have hl : l' ≠ s.next := by omega
    refine ⟨by omega, ?_⟩
    rw [hlocks l', h.unused l' (by omega)]
    simp [KeyLock.new, hl]
  · intro l' hl'
    by_cases hl : l' = s.next
    · rw [hl, h.unused s.next (Nat.le_refl _)]
      rfl
    refine h.retired l' fun key' hk => ?_
    have hne : key' ≠ key := by
      rintro rfl
      rw [hreg] at hk
      cases hk
    exact hl' key' (by rw [hregistry, update_of_ne hne, hk])
  · intro j _ q hq key' l' hl'
    have hk := (h.tasks j q hq).registry hl'
    have hne : key' ≠ key := by
      rintro rfl
      rw [hreg] at hk
      cases hk
    rw [hregistry, update_of_ne hne, hk]

/-- The lock loses one lease. -/
theorem locks_dropLease [DecidableEq K] (hreg : s.registry key = some l) (l' : Nat) :
    (KeyLocks.dropLease s key).locks l' =
      { s.locks l' with leases := (s.locks l').leases - if l = l' then 1 else 0 } := by
  by_cases hl : l' = l
  · subst hl
    simp only [KeyLocks.dropLease, hreg]
    split <;> simp [System.setLock]
  · simp only [KeyLocks.dropLease, hreg]
    split <;> simp [System.setLock, update_of_ne hl, Ne.symm hl]

/-- Only the last lease of a lock that nobody holds retires it. -/
theorem registry_dropLease [DecidableEq K] (hreg : s.registry key = some l) {key' : K} {l' : Nat} :
    (KeyLocks.dropLease s key).registry key' = some l' ↔ s.registry key' = some l' ∧
      ¬ (key' = key ∧ (s.locks l).leases = 1 ∧ (s.locks l).holders = 0) := by
  simp only [KeyLocks.dropLease, hreg]
  split
  case isTrue hlast =>
    by_cases hk : key' = key
    · simp [hk, hlast]
    · simp [hk]
  case isFalse hmore => exact (and_iff_left fun hk => hmore hk.2).symm

/-- No other call has a lease when there is one. -/
theorem Inv.alone (h : Inv s) (hi : s.tasks[i]? = some pc) (hpc : pc.leases l = true)
    (hone : (s.locks l).leases = 1) {j : Nat} (hj : j ≠ i) {q : Pc K} (hq : s.tasks[j]? = some q) :
    q.leases l = false := by
  have hcount := countP_set_add hi (.returned .ok) l
  rw [← h.leases, hone, hpc, if_pos rfl, show (Pc.returned .ok : Pc K).leases l = false from rfl,
    if_neg Bool.false_ne_true, Nat.add_eq_right] at hcount
  have hq' : (s.tasks.set i (.returned .ok))[j]? = some q := (set_other hj _).trans hq
  simpa using countP_eq_zero.1 hcount q (mem_of_getElem? hq')

/-- Whoever drops the only lease sees the number of holders. -/
theorem Inv.mirror_last (h : Inv s) (hi : s.tasks[i]? = some (.leave key l pc'))
    (hone : (s.locks l).leases = 1) : (s.locks l).holders = (s.locks l).state.holders.length := by
  apply h.mirror
  cases hg : (s.locks l).guard with
  | none => rfl
  | some j =>
    obtain ⟨r, q, hq, -⟩ := h.guard l j hg
    have hj : j ≠ i := by
      rintro rfl
      cases hi.symm.trans hq
    have := h.alone hi (beq_self_eq_true l) hone hj hq
    simp [Pc.leases, Pc.lease] at this

/-- The drop of a lease; when it retires the lock, no other call has one. -/
theorem Inv.dropLease [DecidableEq K] (h : Inv s) (hi : s.tasks[i]? = some (.leave key l pc')) :
    Inv ((KeyLocks.dropLease s key).goto i pc') := by
  obtain ⟨hreg, houtside⟩ := h.tasks i _ hi
  obtain ⟨hlease', -, hok⟩ := Pc.outside_spec houtside
  have hnext : (KeyLocks.dropLease s key).next = s.next := by
    simp only [KeyLocks.dropLease, hreg]
    split <;> rfl
  have hlocks := locks_dropLease hreg
  have hregistry := @registry_dropLease _ s key l _ hreg
  refine (relabel_dropLease s i key pc').inv h hi rfl ?_ ?_ ?_ ?_ ?_ ?_ (hok _ i)
  · intro key' l' hl'
    exact (h.registered key' l' (hregistry.1 hl').1).trans_eq hnext.symm
  · exact fun k₁ k₂ l' h₁ h₂ => h.injective k₁ k₂ l' (hregistry.1 h₁).1 (hregistry.1 h₂).1
  · intro l'
    have hcount := countP_set_add hi pc' l'
    rw [show (Pc.leave key l pc').leases l' = (l == l') from rfl,
      show pc'.leases l' = false by simp [Pc.leases, hlease']] at hcount
    show ((KeyLocks.dropLease s key).locks l').leases = _
    rw [hlocks l', h.leases]
    simp only [beq_iff_eq, Bool.false_eq_true, if_false] at hcount ⊢
    omega
  · intro l' hl'
    have hl' : s.next ≤ l' := hnext ▸ hl'
    refine ⟨hl', ?_⟩
    show ((KeyLocks.dropLease s key).locks l').leases = 0
    rw [hlocks l', h.unused l' hl']
    exact Nat.zero_sub _
  · intro l' hl'
    by_cases hex : ∃ key', s.registry key' = some l'
    · obtain ⟨key', hk⟩ := hex
      obtain ⟨rfl, hone, hzero⟩ := not_not.1 fun hnot => hl' key' (hregistry.2 ⟨hk, hnot⟩)
      obtain rfl := some.inj (hreg.symm.trans hk)
      rw [h.mirror_last hi hone] at hzero
      exact length_eq_zero_iff.1 hzero
    · exact h.retired l' fun key' hk => hex ⟨key', hk⟩
  · intro j hj q hq key' l' hl'
    have hk := (h.tasks j q hq).registry hl'
    refine hregistry.2 ⟨hk, ?_⟩
    rintro ⟨rfl, hone, -⟩
    obtain rfl := some.inj (hreg.symm.trans hk)
    have := h.alone hi (beq_self_eq_true l) hone hj hq
    rw [Pc.leases_of_lease hl'] at this
    simp at this

end

end ShamirDb.KeyLocks
