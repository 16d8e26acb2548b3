/-
# Wound-wait

Safety of the lock table: every lock state stays well formed whatever the interleaving,
and as long as nobody overtakes an older transaction that is queued on the same key,
transactions only wait for older ones, so the waits-for relation has no cycle.

A shared request is granted beside shared holders even if an older exclusive request is
queued on the key.  The older transaction then waits for a younger one, and a cycle is
possible.
-/
import ShamirDb.LockSteps

namespace ShamirDb.KeyLocks

open Machine TaskList Function

variable {K : Type}

/-! ## Runs -/

/-- The empty table. -/
theorem inv_init : Inv (System.init (K := K)) where
  wf _ := KeyLockState.wellFormed_unheld
  registered := by simp [System.init]
  injective := by simp [System.init]
  leases _ := rfl
  unused _ _ := rfl
  mirror _ _ := rfl
  retired _ _ := rfl
  guard := by simp [System.init, KeyLock.new]
  waiting := by simp [System.init, KeyLock.new]
  tasks := by simp [System.init]

/-- Nobody waits in the empty table. -/
theorem ages_init : Ages (System.init (K := K)) := by
  intro l i hi
  simp [System.init, KeyLock.new] at hi

section

variable {s : System K}

/-- A call begins. -/
theorem Inv.invoke (h : Inv s) (call : Call K) :
    Inv { s with tasks := s.tasks ++ [call.entry] } := by
  have hentry : call.entry.outside = true := by cases call <;> rfl
  obtain ⟨hlease, -, hok⟩ := Pc.outside_spec hentry
  refine ⟨h.wf, h.registered, h.injective, ?_, h.unused, h.mirror, h.retired, ?_, ?_, ?_⟩
  · intro l
    rw [List.countP_append, ← h.leases]
    simp [Pc.leases, hlease]
  · intro l i hi
    obtain ⟨r, pc, hpc, hin⟩ := h.guard l i hi
    exact ⟨r, pc, getElem?_concat_of hpc _, hin⟩
  · intro l i hi
    obtain ⟨r, hpc⟩ := h.waiting l i hi
    exact ⟨r, getElem?_concat_of hpc _⟩
  · intro i pc hi
    rcases concat_cases hi with hold | ⟨-, rfl⟩
    · have := h.tasks i pc hold
      cases pc with
      | acquire | release | returned => trivial
      | releasing | leave => exact this
      | locking r l pc => exact ⟨this.1, this.2.carry (fun hg => ⟨hg, rfl, rfl⟩) (fun _ => id)⟩
    · exact hok _ i

/-- A call begins. -/
theorem Ages.invoke (ha : Ages s) (call : Call K) :
    Ages { s with tasks := s.tasks ++ [call.entry] } := by
  intro l i hi r hr
  rcases concat_cases hr with hold | ⟨-, heq⟩
  · exact ha l i hi r hold
  · cases call <;> cases heq

end

section

variable {s : System K} {i : Nat}

/-- Each key's lock state is well formed. -/
theorem Inv.table_wellFormed (h : Inv s) (key : K) : (s.table key).WellFormed := by
  unfold System.table
  split
  · exact h.wf _
  · exact KeyLockState.wellFormed_unheld

/-- Whoever waits is younger than whom it waits for. -/
theorem lt_of_waitsFor (h : Inv s) (ha : Ages s) {t x : Nat} (hw : s.WaitsFor t x) : x < t := by
  obtain ⟨hwt, hwx, hne, i, r, l, hi, rfl, hin, hx, -⟩ := hw
  have hreg : s.registry r.key = some l := (h.tasks i _ hi).1
  simp only [System.table, hreg] at hx
  rcases ha l i hin r hi with hwounded | hall
  · rw [hwt] at hwounded
    cases hwounded
  · rcases hall x hx with heq | hlt | hwounded
    · exact absurd heq hne
    · exact hlt
    · rw [hwx] at hwounded
      cases hwounded

end

section

variable [DecidableEq K] {s : System K} {i : Nat} {pc : Pc K}

/-- What an event does: nothing, or one of the accesses the invariant is stated for. -/
inductive Does (s : System K) (ev : Event K) : System K → Prop
  | same : Does s ev s
  | invoke (call : Call K) : Does s ev { s with tasks := s.tasks ++ [call.entry] }
  | goto {i : Nat} {pc pc' : Pc K} (hi : s.tasks[i]? = some pc) (hpc : pc.outside = true)
      (hpc' : pc'.outside = true) : Does s ev (s.goto i pc')
  | acquire {i l : Nat} {key : K} {pc pc' : Pc K} (hi : s.tasks[i]? = some pc)
      (hpc : pc.outside = true) (hreg : s.registry key = some l)
      (hlease : pc'.lease = some (key, l)) (hidle : pc'.idle = true)
      (hok : ∀ s' : System K, s'.registry = s.registry → pc'.Ok s' i) :
      Does s ev ((s.setLock l (s.locks l).lease).goto i pc')
  | acquireNew {i : Nat} {r : Request K} (hi : s.tasks[i]? = some (.acquire r))
      (hreg : s.registry r.key = none) :
      Does s ev (({ s.setLock s.next KeyLock.new.lease with
        registry := update s.registry r.key (some s.next)
        next := s.next + 1 } : System K).goto i (.locking r s.next .check))
  | leased {i l : Nat} {key : K} {pc : Pc K} {joins : Nat → Prop} {s' : System K}
      (hi : s.tasks[i]? = some pc) (hlease : pc.lease = some (key, l))
      (hs' : Leased s i l key joins s')
      (hjoins : NoOvertake s ev → ∀ h, joins h → ∀ j ∈ (s.locks l).waiting, ∀ q,
        s.tasks[j]? = some (.locking q l .parked) → s.wounded q.tx = false → h ≤ q.tx) :
      Does s ev s'
  | drop {i l : Nat} {key : K} {after : Pc K} (hi : s.tasks[i]? = some (.leave key l after)) :
      Does s ev ((dropLease s key).goto i after)

/-- What an access does. -/
theorem access_does (h : Inv s) (e : Bool) (hi : s.tasks[i]? = some pc) :
    Does s (.exec i e) (access i e s pc) := by
  cases pc with
  | acquire r =>
    simp only [access]
    split
    case h_1 l hreg => exact .acquire hi rfl hreg rfl rfl fun s' hs' => ⟨hs' ▸ hreg, trivial⟩
    case h_2 hreg => exact .acquireNew hi hreg
  | locking r l pc =>
    rcases lockStep_leased h hi with heq | hleased
    · rw [access, heq]
      exact .same
    · refine .leased hi rfl hleased fun hfair => ?_
      rintro x ⟨rfl, rfl, hg, hc, hnot⟩ j hj q hq hw
      simp only [NoOvertake, hi] at hfair
      refine hfair hg hc hnot j hj q.tx ?_ hw
      simp [System.queuedTx, hq]
  | release tx keys =>
    cases keys with
    | nil => exact .goto hi rfl rfl
    | cons key keys =>
      simp only [access]
      split
      case h_1 l hreg => exact .acquire hi rfl hreg rfl rfl fun s' hs' => (congrFun hs' key).trans hreg
      case h_2 => exact .goto hi rfl rfl
  | releasing tx key l keys =>
    simp only [access]
    split
    case h_1 => exact .same
    case h_2 hg => exact .leased hi rfl (release_leased h hi hg) fun _ _ hf => hf.elim
  | leave key l after => exact .drop hi
  | returned => exact .same

/-- What a cancellation does. -/
theorem cancel_does (h : Inv s) (hi : s.tasks[i]? = some pc) :
    Does s (.cancel i) (cancel i s pc) := by
  have hgone : ∀ {key : K} {l : Nat} {s' : System K}, pc.lease = some (key, l) →
      Leased s i l key (fun _ => False) s' → Does s (.cancel i) s' := fun hlease hs' =>
    .leased hi hlease hs' fun _ _ hf => hf.elim
  cases pc with
  | acquire r => exact .goto hi rfl rfl
  | release | returned | leave => exact .same
  | releasing tx key l keys =>
    have hreg : s.registry key = some l := h.tasks i _ hi
    refine hgone rfl (Leased.goto h rfl (fun _ => id) ?_ ?_ ⟨hreg, rfl⟩)
    · exact fun hg => absurd hg (h.guard_ne hi (by rintro r q ⟨⟩))
    · exact h.not_waiting _ hi (by simp)
  | locking r l pc =>
    have hreg := (h.tasks i _ hi).1
    cases pc with
    | check | scan | poke | recheck | park => exact .same
    | enter =>
      refine hgone rfl (Leased.goto h rfl (fun _ => id) ?_ ?_ ⟨hreg, rfl⟩)
      · exact fun hg => absurd hg (h.guard_ne hi (by rintro r' q ⟨⟩; rfl))
      · exact h.not_waiting _ hi (by simp)
    | parked =>
      exact hgone rfl (Leased.unpark h hi rfl (fun s' hs' => ⟨hs' ▸ hreg, rfl⟩) (by simp))

/-- What a step does. -/
theorem step_does (h : Inv s) (ev : Event K) : Does s ev (step s ev) := by
  cases ev with
  | invoke call => exact .invoke call
  | exec i e =>
    simp only [step]
    split
    · exact access_does h e ‹_›
    · exact .same
  | cancel i =>
    simp only [step]
    split
    · exact cancel_does h ‹_›
    · exact .same

/-- One step keeps the invariant. -/
theorem inv_step (s : System K) (ev : Event K) (h : Inv s) : Inv (step s ev) := by
  have hdoes := step_does h ev
  generalize step s ev = s' at hdoes
  cases hdoes with
  | same => exact h
  | invoke call => exact h.invoke call
  | goto hi hpc hpc' => exact h.goto hi hpc hpc'
  | acquire hi hpc hreg hlease hidle hok => exact h.acquire hi hpc hreg hlease hok
  | acquireNew hi hreg => exact h.acquire_new hi rfl hreg rfl fun s' hs' => ⟨hs', trivial⟩
  | leased hi hlease hs' => exact hs'.inv h hi hlease
  | drop hi => exact h.dropLease hi

/-- A step that overtakes nobody keeps the ages. -/
theorem ages_step (s : System K) (ev : Event K) (h : Inv s) (ha : Ages s)
    (hfair : NoOvertake s ev) : Ages (step s ev) := by
  have hdoes := step_does h ev
  generalize step s ev = s' at hdoes
  cases hdoes with
  | same => exact ha
  | invoke call => exact ha.invoke call
  | goto hi hpc hpc' => exact (relabel_goto ..).ages ha hi (Pc.outside_spec hpc').2.1
  | acquire hi hpc hreg hlease hidle => exact (relabel_acquire ..).ages ha hi hidle
  | acquireNew hi hreg => exact (relabel_acquire_new h _).ages ha hi rfl
  | leased hi hlease hs' hjoins => exact hs'.ages ha hi (hjoins hfair)
  | drop hi =>
    exact (relabel_dropLease ..).ages ha hi (Pc.outside_spec (h.tasks _ _ hi).2).2.1

/-- The invariant holds in every run. -/
theorem inv_after (es : List (Event K)) : Inv (after es) := run_invariant inv_step inv_init es

/-- **Wound-wait is safe, and free of deadlock where nobody overtakes.**  In every run,
every key's lock state is well formed, and a lock that its key has lost is held by nobody.
If moreover no request joins the holders of a key past an older transaction queued on it,
the waits-for relation of the transactions that are neither wounded nor notified has no
cycle. -/
theorem wound_wait (es : List (Event K)) :
    (∀ key, ((after es).table key).WellFormed) ∧
      (∀ l, (∀ key, (after es).registry key ≠ some l) →
        ((after es).locks l).state.holders = []) ∧
      (Along step NoOvertake .init es → ∀ t, ¬Relation.TransGen (after es).WaitsFor t t) := by
  refine ⟨(inv_after es).table_wellFormed, (inv_after es).retired, fun hes => ?_⟩
  have hboth : Inv (after es) ∧ Ages (after es) :=
    along_invariant (I := fun s : System K => Inv s ∧ Ages s)
      (fun s ev hs hfair => ⟨inv_step s ev hs.1, ages_step s ev hs.1 hs.2 hfair⟩)
      ⟨inv_init, ages_init⟩ hes
  intro t hcycle
  have hlt : ∀ x y, Relation.TransGen (after es).WaitsFor x y → y < x := by
    intro x y hxy
    induction hxy with
    | single hw => exact lt_of_waitsFor hboth.1 hboth.2 hw
    | tail _ hw ih => exact Nat.lt_trans (lt_of_waitsFor hboth.1 hboth.2 hw) ih
  exact absurd (hlt t t hcycle) (Nat.lt_irrefl t)

end

/-- Call `i` performs `n` accesses. -/
def execs (i n : Nat) : List (Event Nat) := List.replicate n (.exec i false)

/-- Transaction 1 shares key 0, transaction 2 has key 1 and queues for key 0. -/
def queued : List (Event Nat) :=
  [.invoke (.lockKey ⟨0, 1, .shared⟩)] ++ execs 0 4 ++
    [.invoke (.lockKey ⟨1, 2, .exclusive⟩)] ++ execs 1 4 ++
    [.invoke (.lockKey ⟨0, 2, .exclusive⟩)] ++ execs 2 7

/-- Transaction 2 waits for transaction 1, and there is no cycle. -/
theorem wound_wait_queued :
    Along step NoOvertake .init queued ∧ (after queued).WaitsFor 2 1 ∧
      ∀ t, ¬Relation.TransGen (after queued).WaitsFor t t := by
  have hes : Along step NoOvertake .init queued := by decide
  refine ⟨hes, ⟨by decide, by decide, by decide, 2, ⟨0, 2, .exclusive⟩, 0, by decide, rfl,
    by decide, by decide, .inl rfl⟩, (wound_wait queued).2.2 hes⟩

/-- Transaction 3 then shares key 0 past transaction 2, and queues for key 1. -/
def overtaken : List (Event Nat) :=
  queued ++ [.invoke (.lockKey ⟨0, 3, .shared⟩)] ++ execs 3 4 ++
    [.invoke (.lockKey ⟨1, 3, .exclusive⟩)] ++ execs 4 7

/-- Transactions 2 and 3 wait for each other; neither is wounded or notified. -/
theorem overtaken_cycle : Relation.TransGen (after overtaken).WaitsFor 2 2 := by
  have h23 : (after overtaken).WaitsFor 2 3 :=
    ⟨by decide, by decide, by decide, 2, ⟨0, 2, .exclusive⟩, 0, by decide, rfl, by decide,
      by decide, .inl rfl⟩
  have h32 : (after overtaken).WaitsFor 3 2 :=
    ⟨by decide, by decide, by decide, 4, ⟨1, 3, .exclusive⟩, 1, by decide, rfl, by decide,
      by decide, .inl rfl⟩
  exact .tail (.single h23) h32

end ShamirDb.KeyLocks
