/-
# The invariant of the lock table

`Inv` ties the registry, the lease counters and the mutexes to the program counters of the
calls, and says what a call knows about its copy of a lock state.  `Ages` is the part about
who waits for whom.  Both survive any step of a call under its lease that obeys `Step`.
-/
import Mathlib.Data.List.Nodup
import ShamirDb.KeyLock
import ShamirDb.TaskList

namespace ShamirDb.KeyLocks

open List Function Option TaskList

/-! ## Swap-removal -/

section SwapRemove

variable {α : Type*} {xs : List α} {i : Nat} {x : α}

/-- `swap_remove` takes one element out. -/
theorem perm_swapRemove (h : xs[i]? = some x) : xs.Perm (x :: swapRemove xs i) := by
  obtain ⟨ys, y, rfl⟩ : ∃ ys y, xs = ys ++ [y] := by
    rcases eq_nil_or_concat xs with rfl | ⟨ys, y, rfl⟩
    · simp at h
    · exact ⟨ys, y, concat_eq_append⟩
  have hswap : swapRemove (ys ++ [y]) i = ((ys ++ [y]).set i y).dropLast := by
    simp [swapRemove]
  rw [hswap]
  rcases Nat.lt_or_ge i ys.length with hlt | hge
  · rw [getElem?_append_left hlt] at h
    rw [set_append_left _ _ hlt, dropLast_concat]
    obtain ⟨hlt', hx⟩ := List.getElem?_eq_some_iff.1 h
    have hsplit := take_append_drop i ys
    rw [drop_eq_getElem_cons hlt', hx] at hsplit
    have hset : ys.set i y = ys.take i ++ y :: ys.drop (i + 1) := by
      rw [set_eq_take_append_cons_drop, if_pos hlt']
    rw [hset]
    calc ys ++ [y] = (ys.take i ++ x :: ys.drop (i + 1)) ++ [y] := by rw [hsplit]
      _ = ys.take i ++ x :: (ys.drop (i + 1) ++ [y]) := by simp
      _ |>.Perm (x :: (ys.take i ++ (ys.drop (i + 1) ++ [y]))) := perm_middle
      _ |>.Perm (x :: (ys.take i ++ y :: ys.drop (i + 1))) := by
        refine List.Perm.cons x (List.Perm.append_left _ ?_)
        exact perm_append_comm
  · rw [getElem?_append_right hge] at h
    have hi : i = ys.length := by
      rcases Nat.eq_zero_or_pos (i - ys.length) with h0 | hpos
      · omega
      · rw [getElem?_eq_none (by rw [length_singleton]; omega)] at h
        simp at h
    subst hi
    simp only [Nat.sub_self, getElem?_cons_zero, some.injEq] at h
    subst h
    simp

/-- What stands at or after the hole after a swap-removal stood after it before. -/
theorem getElem?_swapRemove {m : Nat} {y : α} (hm : i ≤ m) (h : (swapRemove xs i)[m]? = some y) :
    ∃ n, i < n ∧ xs[n]? = some y := by
  rcases eq_nil_or_concat xs with rfl | ⟨ys, z, rfl⟩
  · simp [swapRemove] at h
  rw [concat_eq_append] at h ⊢
  have hswap : swapRemove (ys ++ [z]) i = ((ys ++ [z]).set i z).dropLast := by
    simp [swapRemove]
  rw [hswap, getElem?_dropLast, length_set, length_append, length_singleton] at h
  split at h
  case isFalse => simp at h
  case isTrue hlt =>
    rcases Nat.eq_or_lt_of_le hm with rfl | hlt'
    · rw [getElem?_set_self (by simp; omega)] at h
      exact ⟨ys.length, hlt, by simpa using h⟩
    · rw [getElem?_set_ne (by omega)] at h
      exact ⟨m, hlt', h⟩

end SwapRemove

/-! ## Lock states -/

namespace KeyLockState

variable {st : KeyLockState} {mode : LockMode} {tx : Nat}

/-- A transaction holds the key if it is among the holders. -/
theorem heldBy_iff : st.heldBy tx = true ↔ tx ∈ st.holders := by
  simp [heldBy]

/-- Nobody holds the key. -/
theorem wellFormed_unheld : unheld.WellFormed := ⟨by simp [unheld], by simp [unheld], by simp [unheld]⟩

/-- The mode is recomputed after holders were removed. -/
theorem WellFormed.recompute {base st : KeyLockState} (h : base.WellFormed)
    (hmode : st.mode = base.mode) (hdistinct : st.holders.Nodup) (hheld : base.holders ≠ []) :
    st.recomputeMode.WellFormed := by
  have hsome : st.mode ≠ none := by
    rw [hmode]
    exact fun hnone => hheld (h.mode_none.1 hnone)
  unfold recomputeMode
  split
  case h_1 hzero =>
    exact ⟨by simp, hdistinct, by simpa using length_eq_zero_iff.1 hzero⟩
  case h_2 hone =>
    refine ⟨fun _ => hone, hdistinct, ?_⟩
    constructor
    · exact fun hnone => absurd hnone hsome
    · intro hnil
      simp [hnil] at hone
  case h_3 hzero hone =>
    refine ⟨by simp, hdistinct, ?_⟩
    constructor
    · simp
    · intro hnil
      exact absurd (length_eq_zero_iff.2 hnil) hzero

/-- The mode is no matter of the holders. -/
@[simp] theorem recomputeMode_holders (st : KeyLockState) :
    st.recomputeMode.holders = st.holders := by
  unfold recomputeMode
  split <;> rfl

/-- When a request is compatible: re-entrant, free, or both shared. -/
theorem compatible_cases (h : st.compatible tx mode = true) :
    (tx ∈ st.holders ∧ (mode = .exclusive → ∀ h ∈ st.holders, h = tx)) ∨ st.mode = none ∨
      (mode = .shared ∧ st.mode = some .shared) := by
  simp only [compatible, Bool.or_eq_true, Bool.and_eq_true, heldBy_iff] at h
  rcases h with (⟨hheld, hmode⟩ | hnone) | ⟨hshared, hmode⟩
  · refine .inl ⟨hheld, fun hex => ?_⟩
    subst hex
    simpa using hmode
  · exact .inr (.inl (by simpa using hnone))
  · exact .inr (.inr ⟨by simpa using hshared, by simpa using hmode⟩)

/-- A compatible request is granted. -/
theorem WellFormed.grant (h : st.WellFormed) (hc : st.compatible tx mode = true) :
    (st.grant tx mode).WellFormed := by
  by_cases hheld : tx ∈ st.holders
  · simp only [KeyLockState.grant, heldBy_iff.2 hheld, if_true]
    split
    case isFalse => exact h
    case isTrue hex =>
      -- an upgrade is granted to a sole holder only
      have hne : st.mode ≠ none := by
        intro hnone
        rw [h.mode_none.1 hnone] at hheld
        simp at hheld
      have hall : ∀ x ∈ st.holders, x = tx := by
        rcases compatible_cases hc with ⟨-, hall⟩ | hnone | ⟨hshared, -⟩
        · exact hall hex
        · exact absurd hnone hne
        · rw [hex] at hshared
          cases hshared
      have hlen : st.holders.length = 1 := by
        have hrep := eq_replicate_of_mem hall
        have := h.distinct
        rw [hrep, nodup_replicate] at this
        have hpos := length_pos_of_mem hheld
        omega
      refine ⟨fun _ => hlen, h.distinct, ?_⟩
      constructor
      · simp
      · intro hnil
        rw [show st.holders = [] from hnil] at hlen
        simp at hlen
  · have hno : st.heldBy tx = false := by
      rw [← Bool.not_eq_true, heldBy_iff]
      exact hheld
    simp only [KeyLockState.grant, hno]
    refine ⟨?_, ?_, by simp⟩
    · intro hmode
      have hmode' : mode = .exclusive := some.inj hmode
      rcases compatible_cases hc with ⟨hin, -⟩ | hnone | ⟨hshared, -⟩
      · exact absurd hin hheld
      · simp [h.mode_none.1 hnone]
      · rw [hmode'] at hshared
        cases hshared
    · exact nodup_append.2 ⟨h.distinct, by simp, by
        intro a ha b hb
        rw [mem_singleton] at hb
        rintro rfl
        exact hheld (hb ▸ ha)⟩

/-- Only the requester becomes a holder. -/
theorem mem_grant {h : Nat} (hh : h ∈ (st.grant tx mode).holders) :
    h ∈ st.holders ∨ (h = tx ∧ st.heldBy tx = false) := by
  by_cases hheld : st.heldBy tx = true
  · simp only [grant, hheld, if_true] at hh
    split at hh <;> exact .inl hh
  · rw [Bool.not_eq_true] at hheld
    simp only [grant, hheld, Bool.false_eq_true, if_false, mem_append, mem_singleton] at hh
    exact hh.imp_right fun heq => ⟨heq, hheld⟩

end KeyLockState

/-- A key is given back. -/
theorem KeyLock.release_wellFormed {lock : KeyLock} (h : lock.state.WellFormed) (tx : Nat) :
    (lock.release tx).state.WellFormed := by
  simp only [KeyLock.release]
  split
  case isFalse => exact h
  case isTrue hne =>
    refine h.recompute rfl (h.distinct.filter _) ?_
    intro hnil
    simp [KeyLockState.retain, hnil] at hne

/-- A release makes nobody a holder. -/
theorem KeyLock.mem_release {lock : KeyLock} {tx h : Nat}
    (hh : h ∈ (lock.release tx).state.holders) : h ∈ lock.state.holders := by
  simp only [KeyLock.release] at hh
  split at hh
  · simp only [KeyLockState.recomputeMode_holders] at hh
    exact mem_of_mem_filter hh
  · exact hh

/-! ## The invariant -/

variable {K : Type} {i l : Nat} {key : K}

/-- The lease a call has, as a key and a lock. -/
def Pc.lease : Pc K → Option (K × Nat)
  | .locking r l _ => some (r.key, l)
  | .releasing _ key l _ => some (key, l)
  | .leave key l _ => some (key, l)
  | _ => none

/-- The call leases lock `l`. -/
def Pc.leases (l : Nat) (pc : Pc K) : Bool :=
  match pc.lease with
  | some (_, l') => l' == l
  | none => false

/-- The call has locked the mutex. -/
def LockPc.inside : LockPc → Bool
  | .scan _ _ _ _ | .poke _ _ _ _ | .recheck _ | .park _ => true
  | _ => false

/-- A copy of a lock state that has lost wounded holders only. -/
structure Copy (s : System K) (l : Nat) (st : KeyLockState) : Prop where
  distinct : st.holders.Nodup
  sub : ∀ h ∈ st.holders, h ∈ (s.locks l).state.holders
  lost : ∀ h ∈ (s.locks l).state.holders, h ∈ st.holders ∨ s.wounded h = true

/-- The copy of a call that is still visiting holders; those from index `j` on are its own
transaction or older. -/
structure Visiting (s : System K) (i tx l j : Nat) (st : KeyLockState) : Prop where
  guard : (s.locks l).guard = some i
  copy : Copy s l st
  mode : st.mode = (s.locks l).state.mode
  held : (s.locks l).state.holders ≠ []
  visited : ∀ m h, j ≤ m → st.holders[m]? = some h → h = tx ∨ h < tx

/-- The copy of a call that is about to wait. -/
structure Visited (s : System K) (i tx l : Nat) (st : KeyLockState) : Prop where
  guard : (s.locks l).guard = some i
  copy : Copy s l st
  wf : st.WellFormed
  published : (s.locks l).holders = st.holders.length
  older : ∀ h ∈ st.holders, h = tx ∨ h < tx

def LockPc.Ok (s : System K) (i tx l : Nat) : LockPc → Prop
  | .check | .enter | .parked => True
  | .scan j st _ woundedAny =>
    Visiting s i tx l j st ∧ (woundedAny = false → st = (s.locks l).state ∧
      (s.locks l).holders = st.holders.length)
  | .poke j victim st _ =>
    Visiting s i tx l (j + 1) st ∧ st.holders[j]? = some victim ∧ s.wounded victim = true
  | .recheck st | .park st => Visited s i tx l st

/-- The call is between leases. -/
def Pc.outside : Pc K → Bool
  | .acquire _ | .release _ _ | .returned _ => true
  | _ => false

def Pc.Ok (s : System K) (i : Nat) : Pc K → Prop
  | .locking r l pc => s.registry r.key = some l ∧ pc.Ok s i r.tx l
  | .releasing _ key l _ => s.registry key = some l
  | .leave key l after => s.registry key = some l ∧ after.outside = true
  | _ => True

structure Inv (s : System K) : Prop where
  wf : ∀ l, (s.locks l).state.WellFormed
  registered : ∀ key l, s.registry key = some l → l < s.next
  injective : ∀ key key' l, s.registry key = some l → s.registry key' = some l → key = key'
  leases : ∀ l, (s.locks l).leases = s.tasks.countP (Pc.leases l)
  unused : ∀ l, s.next ≤ l → s.locks l = .new
  mirror : ∀ l, (s.locks l).guard = none → (s.locks l).holders = (s.locks l).state.holders.length
  /-- A lock that no key has is held by nobody. -/
  retired : ∀ l, (∀ key, s.registry key ≠ some l) → (s.locks l).state.holders = []
  guard : ∀ l i, (s.locks l).guard = some i →
    ∃ r pc, s.tasks[i]? = some (.locking r l pc) ∧ pc.inside = true
  waiting : ∀ l, ∀ i ∈ (s.locks l).waiting, ∃ r, s.tasks[i]? = some (.locking r l .parked)
  tasks : ∀ i (pc : Pc K), s.tasks[i]? = some pc → pc.Ok s i

/-- A queued call of an unwounded transaction waits for unwounded holders that are older. -/
def Ages (s : System K) : Prop :=
  ∀ l, ∀ i ∈ (s.locks l).waiting, ∀ r, s.tasks[i]? = some (.locking r l .parked) →
    s.wounded r.tx = true ∨
      ∀ h ∈ (s.locks l).state.holders, h = r.tx ∨ h < r.tx ∨ s.wounded h = true

variable {pc : Pc K}

/-- The number of leases after call `i` has moved. -/
theorem countP_set_add {tasks : List (Pc K)} (hi : tasks[i]? = some pc) (pc' : Pc K) (l : Nat) :
    (tasks.set i pc').countP (Pc.leases l) + (if pc.leases l then 1 else 0) =
      tasks.countP (Pc.leases l) + (if pc'.leases l then 1 else 0) := by
  obtain ⟨hlt, hget⟩ := List.getElem?_eq_some_iff.1 hi
  rw [countP_set hlt, hget]
  have hpos : pc.leases l = true → 0 < tasks.countP (Pc.leases l) := fun hpc =>
    countP_pos_iff.2 ⟨pc, mem_of_getElem? hi, hpc⟩
  split
  case isTrue hpc => have := hpos hpc; omega
  case isFalse => omega

/-- A call has one lease at a time. -/
theorem Pc.leases_of_lease (h : pc.lease = some (key, l)) (l' : Nat) :
    pc.leases l' = (l == l') := by
  simp [Pc.leases, h]

/-- The lock of a lease is the registered one. -/
theorem Pc.Ok.registry {s : System K} (hok : pc.Ok s i) (h : pc.lease = some (key, l)) :
    s.registry key = some l := by
  cases pc with
  | locking r l' pc => cases h; exact hok.1
  | releasing tx key' l' keys => cases h; exact hok
  | leave key' l' after => cases h; exact hok.1
  | acquire | release | returned => cases h

/-- What a call inside the mutex knows depends on that lock and on the wound marks only. -/
theorem LockPc.Ok.carry {s s' : System K} {tx : Nat} {pc : LockPc} (h : pc.Ok s i tx l)
    (hlock : (s.locks l).guard = some i → (s'.locks l).guard = some i ∧
      (s'.locks l).state = (s.locks l).state ∧ (s'.locks l).holders = (s.locks l).holders)
    (hwounded : ∀ t, s.wounded t = true → s'.wounded t = true) : pc.Ok s' i tx l := by
  have hcopy : ∀ st, (s.locks l).guard = some i → Copy s l st → Copy s' l st := by
    intro st hg hc
    refine ⟨hc.distinct, ?_, ?_⟩
    · rw [(hlock hg).2.1]; exact hc.sub
    · rw [(hlock hg).2.1]
      exact fun x hx => (hc.lost x hx).imp_right (hwounded x)
  have hvisiting : ∀ j st, Visiting s i tx l j st → Visiting s' i tx l j st := by
    intro j st hv
    obtain ⟨hg, hstate, -⟩ := hlock hv.guard
    exact ⟨hg, hcopy st hv.guard hv.copy, hstate ▸ hv.mode, hstate ▸ hv.held, hv.visited⟩
  have hvisited : ∀ st, Visited s i tx l st → Visited s' i tx l st := by
    intro st hv
    obtain ⟨hg, -, hmirror⟩ := hlock hv.guard
    exact ⟨hg, hcopy st hv.guard hv.copy, hv.wf, hmirror ▸ hv.published, hv.older⟩
  cases pc with
  | check | enter | parked => trivial
  | scan j st mustWait woundedAny =>
    refine ⟨hvisiting j st h.1, fun hno => ?_⟩
    obtain ⟨-, hstate, hmirror⟩ := hlock h.1.guard
    rw [hstate, hmirror]
    exact h.2 hno
  | poke j victim st mustWait => exact ⟨hvisiting _ st h.1, h.2.1, hwounded _ h.2.2⟩
  | recheck st | park st => exact hvisited st h

/-! ## Steps under a lease -/

/-- What a step of call `i` from `pc` to `pc'` may do to the lock it leases. -/
structure Step (s : System K) (i l : Nat) (pc' : Pc K) (lock' : KeyLock) : Prop where
  leases : lock'.leases = (s.locks l).leases
  wf : lock'.state.WellFormed
  mirror : lock'.guard = none → lock'.holders = lock'.state.holders.length
  /-- Nothing behind the mutex changes while another call has locked it. -/
  other : ∀ j, j ≠ i → (s.locks l).guard = some j → lock'.guard = some j ∧
    lock'.state = (s.locks l).state ∧ lock'.holders = (s.locks l).holders
  guard : ∀ j, lock'.guard = some j → (j ≠ i ∧ (s.locks l).guard = some j) ∨
    (j = i ∧ ∃ r pc, pc' = .locking r l pc ∧ pc.inside = true)
  waiting : ∀ j ∈ lock'.waiting, (j ≠ i ∧ j ∈ (s.locks l).waiting) ∨
    (j = i ∧ ∃ r, pc' = .locking r l .parked)

/-- The state after such a step. -/
abbrev System.stepped (s : System K) (i l : Nat) (pc' : Pc K) (lock' : KeyLock)
    (wounded permit : Nat → Bool) : System K :=
  { s with
    locks := update s.locks l lock'
    wounded := wounded
    permit := permit
    tasks := s.tasks.set i pc' }

section

variable {s : System K} {i l j : Nat} {key : K} {pc pc' : Pc K} {lock' : KeyLock}
  {wounded permit : Nat → Bool}

/-- The lock that is stepped on. -/
theorem locks_stepped_self : (s.stepped i l pc' lock' wounded permit).locks l = lock' :=
  update_self ..

/-- The other locks stay. -/
theorem locks_stepped_of_ne {l' : Nat} (hl : l' ≠ l) :
    (s.stepped i l pc' lock' wounded permit).locks l' = s.locks l' :=
  update_of_ne hl ..

/-- The call that makes the step. -/
theorem tasks_stepped_self (hi : s.tasks[i]? = some pc) :
    (s.stepped i l pc' lock' wounded permit).tasks[i]? = some pc' :=
  set_self hi pc'

/-- The other calls stay. -/
theorem tasks_stepped_of_ne (hj : j ≠ i) :
    (s.stepped i l pc' lock' wounded permit).tasks[j]? = s.tasks[j]? :=
  set_other hj pc'

/-- Another call keeps what it knows. -/
theorem Step.carry (hstep : Step s i l pc' lock')
    (hwounded : ∀ t, s.wounded t = true → wounded t = true) (hj : j ≠ i) {q : Pc K}
    (hq : q.Ok s j) : q.Ok (s.stepped i l pc' lock' wounded permit) j := by
  cases q with
  | acquire | release | returned => trivial
  | releasing | leave => exact hq
  | locking r l' q =>
    refine ⟨hq.1, hq.2.carry (fun hg => ?_) hwounded⟩
    by_cases hl : l' = l
    · subst hl
      simpa using hstep.other j hj hg
    · simpa [update_of_ne hl] using hg

/-- A call with a lease makes a step on its lock. -/
theorem Inv.stepped (h : Inv s) (hi : s.tasks[i]? = some pc) (hlease : pc.lease = some (key, l))
    (hlease' : pc'.lease = some (key, l)) (hstep : Step s i l pc' lock')
    (hwounded : ∀ t, s.wounded t = true → wounded t = true)
    (hok : pc'.Ok (s.stepped i l pc' lock' wounded permit) i) :
    Inv (s.stepped i l pc' lock' wounded permit) := by
  have hregistered : s.registry key = some l := (h.tasks i pc hi).registry hlease
  -- call `i` has no business with any other lock
  have hforeign : ∀ l', l' ≠ l → ∀ r q, s.tasks[i]? ≠ some (.locking r l' q) := by
    intro l' hl' r q hq
    cases hi.symm.trans hq
    cases hlease
    exact hl' rfl
  refine ⟨?_, h.registered, h.injective, ?_, ?_, ?_, ?_, ?_, ?_, ?_⟩
  · intro l'
    by_cases hl : l' = l
    · subst hl; simpa using hstep.wf
    · simpa [update_of_ne hl] using h.wf l'
  · intro l'
    have hcount : (s.tasks.set i pc').countP (Pc.leases l') = s.tasks.countP (Pc.leases l') := by
      have := countP_set_add hi pc' l'
      rw [Pc.leases_of_lease hlease, Pc.leases_of_lease hlease'] at this
      omega
    show ((s.stepped i l pc' lock' wounded permit).locks l').leases =
      (s.tasks.set i pc').countP (Pc.leases l')
    rw [hcount]
    by_cases hl : l' = l
    · subst hl
      rw [locks_stepped_self, hstep.leases, h.leases]
    · rw [locks_stepped_of_ne hl, h.leases]
  · intro l' hl'
    have hl : l' ≠ l := by
      rintro rfl
      exact absurd (h.registered key l' hregistered) (Nat.not_lt.2 hl')
    simpa [update_of_ne hl] using h.unused l' hl'
  · intro l'
    by_cases hl : l' = l
    · subst hl; simpa using hstep.mirror
    · simpa [update_of_ne hl] using h.mirror l'
  · intro l' hnone
    have hl : l' ≠ l := by
      rintro rfl
      exact hnone key hregistered
    simpa [update_of_ne hl] using h.retired l' hnone
  · intro l' j hj
    by_cases hl : l' = l
    · subst hl
      rw [locks_stepped_self] at hj
      rcases hstep.guard j hj with ⟨hne, hold⟩ | ⟨rfl, r, q, hpc', hq⟩
      · rw [tasks_stepped_of_ne hne]
        exact h.guard l' j hold
      · exact ⟨r, q, hpc' ▸ tasks_stepped_self hi, hq⟩
    · rw [locks_stepped_of_ne hl] at hj
      obtain ⟨r, q, hq, hin⟩ := h.guard l' j hj
      have hne : j ≠ i := by
        rintro rfl
        exact hforeign l' hl r q hq
      exact ⟨r, q, (tasks_stepped_of_ne hne).trans hq, hin⟩
  · intro l' j hj
    by_cases hl : l' = l
    · subst hl
      rw [locks_stepped_self] at hj
      rcases hstep.waiting j hj with ⟨hne, hold⟩ | ⟨rfl, r, hpc'⟩
      · rw [tasks_stepped_of_ne hne]
        exact h.waiting l' j hold
      · exact ⟨r, hpc' ▸ tasks_stepped_self hi⟩
    · rw [locks_stepped_of_ne hl] at hj
      obtain ⟨r, hq⟩ := h.waiting l' j hj
      have hne : j ≠ i := by
        rintro rfl
        exact hforeign l' hl r _ hq
      exact ⟨r, (tasks_stepped_of_ne hne).trans hq⟩
  · intro j q hq
    by_cases hj : j = i
    · subst hj
      cases (tasks_stepped_self hi).symm.trans hq
      exact hok
    · rw [tasks_stepped_of_ne hj] at hq
      exact hstep.carry hwounded hj (h.tasks j q hq)

/-- Whoever was queued keeps waiting for older transactions if no younger one joins. -/
theorem Ages.stepped (ha : Ages s) (hi : s.tasks[i]? = some pc)
    (hlease' : pc'.lease = some (key, l)) (hstep : Step s i l pc' lock')
    (hwounded : ∀ t, s.wounded t = true → wounded t = true)
    (hjoin : ∀ h ∈ lock'.state.holders, h ∈ (s.locks l).state.holders ∨
      ∀ j ∈ (s.locks l).waiting, ∀ q, s.tasks[j]? = some (.locking q l .parked) →
        s.wounded q.tx = false → h ≤ q.tx)
    (hself : ∀ r, pc' = .locking r l .parked → i ∈ lock'.waiting →
      ∀ h ∈ lock'.state.holders, h = r.tx ∨ h < r.tx) :
    Ages (s.stepped i l pc' lock' wounded permit) := by
  intro l' j hj q hq
  have hcarry : ∀ l'' , j ≠ i → j ∈ (s.locks l'').waiting →
      s.tasks[j]? = some (.locking q l'' .parked) → wounded q.tx = true ∨
        ∀ h ∈ (s.locks l'').state.holders, h = q.tx ∨ h < q.tx ∨ wounded h = true := by
    intro l'' _ hjw hqt
    rcases ha l'' j hjw q hqt with hw | hall
    · exact .inl (hwounded _ hw)
    · exact .inr fun x hx => (hall x hx).imp_right (Or.imp_right (hwounded x))
  by_cases hl : l' = l
  · subst hl
    rw [locks_stepped_self] at hj ⊢
    rcases hstep.waiting j hj with ⟨hne, hold⟩ | ⟨rfl, r, hpc'⟩
    · rw [tasks_stepped_of_ne hne] at hq
      rcases hcarry l' hne hold hq with hw | hall
      · exact .inl hw
      by_cases hwq : s.wounded q.tx = true
      · exact .inl (hwounded _ hwq)
      refine .inr fun x hx => ?_
      rcases hjoin x hx with hin | hnew
      · exact hall x hin
      · have := hnew j hold q hq (by simpa using hwq)
        rcases Nat.eq_or_lt_of_le this with heq | hlt
        · exact .inl heq
        · exact .inr (.inl hlt)
    · rw [tasks_stepped_self hi, some.injEq] at hq
      right
      intro x hx
      rcases hself q hq hj x hx with heq | hlt
      · exact .inl heq
      · exact .inr (.inl hlt)
  · rw [locks_stepped_of_ne hl] at hj ⊢
    by_cases hji : j = i
    · subst hji
      rw [tasks_stepped_self hi, some.injEq] at hq
      -- a call queued on another lock would lease that one
      rw [hq] at hlease'
      cases hlease'
      exact absurd rfl hl
    · rw [tasks_stepped_of_ne hji] at hq
      exact hcarry l' hji hj hq

end

end ShamirDb.KeyLocks
