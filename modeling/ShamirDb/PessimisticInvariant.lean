/-
# What a pessimistic transaction can rely on

The invariant behind the absence of lost updates.  As long as a transaction may still
commit, it holds every lock it has recorded, exclusively if it staged the row, and nobody
else has published a row it has read.  Three facts carry this: a holder only loses its lock
by being wounded, an exclusive holder is alone, and two transactions that are both past the
check for a closed repository have no staged row in common with the other's locks.

The last one is there for the WAL entries of unknown fate: their rows are published when
the locks are long gone.
-/
import ShamirDb.Pessimistic

namespace ShamirDb.KeyLocks.KeyLockState

open List

/-! ## What an attempt and a release do to the holders -/

/-- `tx` holds the key exclusively. -/
def Owns (st : KeyLockState) (tx : Nat) : Prop := st.mode = some .exclusive ∧ tx ∈ st.holders

variable {st : KeyLockState} {tx h : Nat} {mode : LockMode}

/-- The owner of a key is its only holder. -/
theorem WellFormed.eq_of_owns (hwf : st.WellFormed) (howns : st.Owns tx) (hh : h ∈ st.holders) :
    h = tx := by
  obtain ⟨x, hx⟩ := length_eq_one_iff.1 (hwf.exclusive howns.1)
  have htx := howns.2
  rw [hx, mem_singleton] at hh htx
  rw [hh, htx]

/-- A well-formed state with fewer holders, its mode recomputed, keeps an exclusive holder
that is still there. -/
theorem Owns.recompute (howns : st.Owns h) (hwf : st.WellFormed) {st' : KeyLockState}
    (hmode : st'.mode = st.mode) (hnodup : st'.holders.Nodup)
    (hsub : ∀ x ∈ st'.holders, x ∈ st.holders) (hh : h ∈ st'.holders) :
    st'.recomputeMode.Owns h := by
  have hlen : st'.holders.length = 1 := by
    have hall : ∀ x ∈ st'.holders, x = h := fun x hx => hwf.eq_of_owns howns (hsub x hx)
    have hrep := eq_replicate_of_mem hall
    rw [hrep, nodup_replicate] at hnodup
    have hpos := length_pos_of_mem hh
    omega
  constructor
  · simp only [recomputeMode, hlen]
    exact hmode.trans howns.1
  · rwa [recomputeMode_holders]

section

variable (n : Nat) (mustWait : Bool) (victims : List Nat)

/-- The visit keeps the mode and repeats no holder. -/
theorem visit_frame (hst : st.holders.Nodup) :
    (st.visit tx n mustWait victims).1.mode = st.mode ∧
      (st.visit tx n mustWait victims).1.holders.Nodup ∧
      (∀ x ∈ victims, x ∈ (st.visit tx n mustWait victims).2.2) := by
  induction n generalizing st mustWait victims with
  | zero => exact ⟨rfl, hst, fun _ => id⟩
  | succ j ih =>
    simp only [visit]
    split
    case h_1 => exact ih mustWait victims hst
    case h_2 x hx =>
      split
      · exact ih mustWait victims hst
      split
      · have hnodup : ({ st with holders := swapRemove st.holders j } : KeyLockState).holders.Nodup :=
          ((perm_swapRemove hx).nodup_iff.1 hst).of_cons
        obtain ⟨hmode, hdistinct, hkept⟩ := ih mustWait (x :: victims) hnodup
        exact ⟨hmode, hdistinct, fun y hy => hkept y (mem_cons_of_mem x hy)⟩
      · exact ih true victims hst

/-- A holder that the loop does not wound stays. -/
theorem mem_visit_of_not_victim (hst : st.holders.Nodup) (hh : h ∈ st.holders)
    (hnot : h ∉ (st.visit tx n mustWait victims).2.2) :
    h ∈ (st.visit tx n mustWait victims).1.holders := by
  induction n generalizing st mustWait victims with
  | zero => exact hh
  | succ j ih =>
    simp only [visit] at hnot ⊢
    split at hnot
    case h_1 => exact ih mustWait victims hst hh hnot
    case h_2 x hx =>
      by_cases hself : x = tx
      · simp only [if_pos hself] at hnot ⊢
        exact ih mustWait victims hst hh hnot
      simp only [if_neg hself] at hnot ⊢
      by_cases hyounger : tx < x
      · simp only [if_pos hyounger] at hnot ⊢
        have hnodup := ((perm_swapRemove hx).nodup_iff.1 hst).of_cons
        have hne : h ≠ x := by
          rintro rfl
          exact hnot ((visit_frame j mustWait (h :: victims) hnodup).2.2 h (by simp))
        apply ih mustWait (x :: victims) hnodup _ hnot
        rcases mem_cons.1 ((perm_swapRemove hx).mem_iff.1 hh) with heq | hin
        · exact absurd heq hne
        · exact hin
      · simp only [if_neg hyounger] at hnot ⊢
        exact ih true victims hst hh hnot

/-- The loop wounds younger holders only. -/
theorem lt_of_mem_visit (hvictims : ∀ x ∈ victims, tx < x)
    (hh : h ∈ (st.visit tx n mustWait victims).2.2) : tx < h := by
  induction n generalizing st mustWait victims with
  | zero => exact hvictims h hh
  | succ j ih =>
    simp only [visit] at hh
    split at hh
    case h_1 => exact ih mustWait victims hvictims hh
    case h_2 x hx =>
      split at hh
      · exact ih mustWait victims hvictims hh
      split at hh
      case isTrue hyounger =>
        exact ih mustWait (x :: victims) (forall_mem_cons.2 ⟨hyounger, hvictims⟩) hh
      case isFalse => exact ih true victims hvictims hh

end

/-- Victims are younger. -/
theorem lt_of_mem_victims (hh : h ∈ (st.attempt tx mode).victims) : tx < h := by
  unfold attempt at hh
  split at hh
  · exact absurd hh not_mem_nil
  · exact lt_of_mem_visit _ _ [] (by simp) hh

/-- Holders stay holders. -/
theorem mem_grant_of_mem (hh : h ∈ st.holders) : h ∈ (st.grant tx mode).holders := by
  unfold grant
  split
  · split <;> exact hh
  · exact mem_append_left _ hh

/-- Who is not a victim stays a holder. -/
theorem mem_attempt_of_not_victim (hwf : st.WellFormed) (hh : h ∈ st.holders)
    (hnot : h ∉ (st.attempt tx mode).victims) : h ∈ (st.attempt tx mode).state.holders := by
  by_cases hc : st.compatible tx mode = true
  · simp only [attempt, if_pos hc]
    exact mem_grant_of_mem hh
  · simp only [attempt, if_neg hc] at hnot ⊢
    have hin := mem_visit_of_not_victim st.holders.length false [] hwf.distinct hh hnot
    split
    · exact hin
    · rwa [recomputeMode_holders]

/-- A request is refused only while somebody holds the key. -/
theorem WellFormed.holders_ne_nil (hwf : st.WellFormed) (hc : ¬st.compatible tx mode = true) :
    st.holders ≠ [] := by
  intro hnil
  rw [← hwf.mode_none] at hnil
  exact hc (by simp [compatible, hnil])

/-- An attempt leaves a well-formed state. -/
theorem WellFormed.attempt (hwf : st.WellFormed) : (st.attempt tx mode).state.WellFormed := by
  by_cases hc : st.compatible tx mode = true
  · simp only [KeyLockState.attempt, if_pos hc]
    exact hwf.grant hc
  obtain ⟨hmode, hdistinct, -⟩ := visit_frame st.holders.length false [] hwf.distinct
  simp only [KeyLockState.attempt, if_neg hc]
  split
  case isFalse => exact hwf.recompute hmode hdistinct (hwf.holders_ne_nil hc)
  case isTrue hnone =>
    -- nobody was wounded, so the holders are still all there
    have hall : ∀ x ∈ st.holders, x ∈ (st.visit tx st.holders.length false []).1.holders := by
      intro x hx
      apply mem_visit_of_not_victim _ _ _ hwf.distinct hx
      rw [isEmpty_iff.1 hnone]
      exact not_mem_nil
    have hperm : (st.visit tx st.holders.length false []).1.holders.Perm st.holders := by
      apply (perm_ext_iff_of_nodup hdistinct hwf.distinct).2
      intro x
      exact ⟨mem_visit tx, hall x⟩
    refine ⟨?_, hdistinct, ?_⟩
    · intro hex
      rw [hperm.length_eq]
      exact hwf.exclusive (hmode ▸ hex)
    rw [hmode, hwf.mode_none]
    have hlen := hperm.length_eq
    constructor
    · intro hnil
      apply length_eq_zero_iff.1
      rw [hlen, hnil, length_nil]
    · intro hnil
      apply length_eq_zero_iff.1
      rw [← hlen, hnil, length_nil]

/-- An exclusive holder that an attempt does not wound stays exclusive. -/
theorem Owns.attempt (howns : st.Owns h) (hwf : st.WellFormed)
    (hnot : h ∉ (st.attempt tx mode).victims) : (st.attempt tx mode).state.Owns h := by
  have hin := mem_attempt_of_not_victim hwf howns.2 hnot
  refine ⟨?_, hin⟩
  by_cases hc : st.compatible tx mode = true
  · have hheld : st.heldBy tx = true := by
      rcases compatible_cases hc with ⟨hheld, -⟩ | hnone | ⟨-, hshared⟩
      · exact heldBy_iff.2 hheld
      · rw [howns.1] at hnone
        simp at hnone
      · rw [howns.1] at hshared
        simp at hshared
    simp only [KeyLockState.attempt, if_pos hc, grant, if_pos hheld]
    split
    · rfl
    · exact howns.1
  · obtain ⟨hmode, hdistinct, -⟩ := visit_frame st.holders.length false [] hwf.distinct
    simp only [KeyLockState.attempt, if_neg hc] at hin ⊢
    split at hin
    case isTrue hnone =>
      rw [if_pos hnone]
      exact hmode.trans howns.1
    case isFalse hsome =>
      rw [if_neg hsome]
      rw [recomputeMode_holders] at hin
      exact (howns.recompute hwf hmode hdistinct (fun x => mem_visit tx) hin).1

/-- Who is granted a key holds it, and alone if it asked for that. -/
theorem attempt_granted (hgranted : (st.attempt tx mode).granted = true) :
    tx ∈ (st.attempt tx mode).state.holders ∧
      (mode = .exclusive → (st.attempt tx mode).state.Owns tx) := by
  by_cases hc : st.compatible tx mode = true
  · simp only [attempt, if_pos hc]
    have hin : tx ∈ (st.grant tx mode).holders := by
      unfold grant
      split
      case isTrue hheld => split <;> exact heldBy_iff.1 hheld
      case isFalse => exact mem_append_right _ (mem_singleton_self tx)
    refine ⟨hin, fun hex => ⟨?_, hin⟩⟩
    subst hex
    unfold grant
    split <;> rfl
  · simp [attempt, hc] at hgranted

/-- So does a release. -/
theorem WellFormed.release (hwf : st.WellFormed) : (st.release tx).WellFormed := by
  unfold KeyLockState.release
  split
  case isFalse => exact hwf
  case isTrue hne =>
    refine hwf.recompute rfl (hwf.distinct.filter _) ?_
    intro hnil
    simp [retain, hnil] at hne

/-- A release takes away one holder only. -/
theorem mem_release_of_ne (hne : h ≠ tx) (hh : h ∈ st.holders) : h ∈ (st.release tx).holders := by
  unfold release
  split
  · rw [recomputeMode_holders]
    exact mem_filter.2 ⟨hh, by simpa using hne⟩
  · exact hh

/-- The release of another keeps the owner. -/
theorem Owns.release (howns : st.Owns h) (hwf : st.WellFormed) (hne : h ≠ tx) :
    (st.release tx).Owns h := by
  have hin := mem_release_of_ne hne howns.2
  unfold KeyLockState.release at hin ⊢
  split
  case isFalse => exact howns
  case isTrue hlen =>
    rw [if_pos hlen, recomputeMode_holders] at hin
    exact howns.recompute hwf rfl (hwf.distinct.filter _) (fun x hx => mem_of_mem_filter hx) hin

end ShamirDb.KeyLocks.KeyLockState

namespace ShamirDb.Pessimistic

open Machine KeyLocks
open TxLocks (Stage)

variable {K : Type}

/-! ## Phases of a transaction -/

/-- The transaction has its locks and has not been refused.  A wounded transaction fails at
the check of its mark, and a closed repository refuses the commits that come to it. -/
def Tx.mayCommit (tx : Tx K) (wounded requiresReopen : Bool) : Bool :=
  match tx.place with
  | .running | .checking _ | .entering _ | .granted _ => !wounded && !requiresReopen
  | .committing stage =>
    (pastWoundCheck stage || !wounded) && (pastReopenCheck stage || !requiresReopen)
  | .publishing _ => true
  | .releasing _ | .ended => false

/-- The transaction is past the check for a closed repository, and its commit may still
become visible. -/
def Tx.reserved (tx : Tx K) : Bool :=
  tx.unsettled ≠ [] ||
    match tx.place with
    | .committing stage => pastReopenCheck stage
    | .publishing _ => true
    | _ => false

/-- The commit has a version. -/
def assigned : Stage → Bool
  | .walQueue | .walCompletion | .publish => true
  | _ => false

/-- The transaction is not decided yet: it has the version its place says, no row is left
to replay, and it has not committed. -/
def Tx.Undecided (tx : Tx K) (versioned : Bool) : Prop :=
  (tx.version ≠ 0 ↔ versioned = true) ∧ tx.unsettled = [] ∧ tx.committed = none

/-- What a place says about the outcome. -/
def Tx.Phase (tx : Tx K) : Prop :=
  match tx.place with
  | .running | .checking _ | .entering _ | .granted _ => tx.Undecided false
  | .committing stage => tx.Undecided (assigned stage)
  | .publishing _ => tx.Undecided true
  | .releasing _ | .ended => tx.unsettled ≠ [] → tx.version ≠ 0 ∧ tx.committed = none

/-- The transaction executes its operations; it has not come to its commit. -/
def Place.executing : Place K → Bool
  | .running | .checking _ | .entering _ | .granted _ => true
  | _ => false

variable {tx : Tx K}

/-- While it executes, nothing of a transaction is decided. -/
theorem Tx.Phase.executing (h : tx.Phase) (hplace : tx.place.executing = true) :
    tx.Undecided false := by
  unfold Tx.Phase at h
  split at h <;> simp_all [Place.executing]

/-- An executing transaction may commit unless it is wounded or the store reopens. -/
theorem Tx.mayCommit_executing (hplace : tx.place.executing = true) (w r : Bool) :
    tx.mayCommit w r = (!w && !r) := by
  unfold Tx.mayCommit
  split <;> simp_all [Place.executing]

/-- Rows are left to replay only after the locks have been given up; they have a version. -/
theorem Tx.Phase.unsettled (h : tx.Phase) (hne : tx.unsettled ≠ []) :
    ((∃ todo, tx.place = .releasing todo) ∨ tx.place = .ended) ∧
      tx.version ≠ 0 ∧ tx.committed = none := by
  unfold Tx.Phase at h
  split at h
  case h_7 todo hplace => exact ⟨.inl ⟨todo, hplace⟩, h hne⟩
  case h_8 hplace => exact ⟨.inr hplace, h hne⟩
  all_goals exact absurd h.2.1 hne

/-- Wounds and a reopening only take the permission away. -/
theorem Tx.mayCommit_mono {w r w' r' : Bool} (hw : w = true → w' = true) (hr : r = true → r' = true)
    (h : tx.mayCommit w' r' = true) : tx.mayCommit w r = true := by
  have hnw : (!w') = true → (!w) = true := by
    cases w <;> simp_all
  have hnr : (!r') = true → (!r) = true := by
    cases r <;> simp_all
  unfold Tx.mayCommit at h ⊢
  split at h
  case h_5 =>
    simp only [Bool.and_eq_true, Bool.or_eq_true] at h ⊢
    exact ⟨h.1.imp_right hnw, h.2.imp_right hnr⟩
  case h_6 => rfl
  case h_7 => exact h
  case h_8 => exact h
  all_goals
    rw [Bool.and_eq_true] at h ⊢
    exact ⟨hnw h.1, hnr h.2⟩

/-- Nobody but `t` published the row among the publications from `i` on and below `j`. -/
def Untouched (visible : List (Publication K)) (t : Nat) (key : K) (i j : Nat) : Prop :=
  ∀ p pub, i ≤ p → p < j → visible[p]? = some pub → pub.key = key → pub.tx = t

/-! ## The invariant -/

/-- What holds for one transaction. -/
structure TxOk (s : System K) (t : Nat) (tx : Tx K) : Prop where
  phase : tx.Phase
  locked_read : ∀ r ∈ tx.reads, r.key ∈ tx.locked
  locked_staged : ∀ k ∈ tx.staged, k ∈ tx.locked
  locked_granted : ∀ op, tx.place = .granted op → op.key ∈ tx.locked
  held : tx.mayCommit (s.wounded t) s.requiresReopen = true →
    ∀ k ∈ tx.locked, t ∈ (s.locks k).holders
  owned : tx.mayCommit (s.wounded t) s.requiresReopen = true →
    ∀ k, k ∈ tx.staged ∨ tx.place = .granted (.write k) → (s.locks k).Owns t
  fresh : tx.mayCommit (s.wounded t) s.requiresReopen = true ∨ tx.unsettled ≠ [] →
    ∀ r ∈ tx.reads, Untouched s.visible t r.key r.since s.visible.length
  version_le : tx.version ≤ s.lastVersion
  seen : ∀ r ∈ tx.reads, r.seen ≤ s.lastVersion ∧ (tx.version ≠ 0 → r.seen < tx.version)
  newest : ∀ r ∈ tx.reads, r.since ≤ s.visible.length ∧
    ∀ p pub, p < r.since → s.visible[p]? = some pub → pub.key = r.key → pub.version ≤ r.seen
  own : ∀ p pub, s.visible[p]? = some pub → pub.tx = t →
    tx.version ≠ 0 ∧ pub.version = tx.version ∧ ∀ r ∈ tx.reads, r.since ≤ p
  publishing : ∀ todo, tx.place = .publishing todo →
    (∀ k ∈ todo, k ∈ tx.staged) ∧ ∀ k ∈ tx.staged, k ∈ todo ∨ ⟨tx.version, t, k⟩ ∈ s.visible
  replaying : tx.unsettled ≠ [] → s.requiresReopen = true ∧
    (∀ k ∈ tx.unsettled, k ∈ tx.staged) ∧
    ∀ k ∈ tx.staged, k ∈ tx.unsettled ∨ ⟨tx.version, t, k⟩ ∈ s.visible
  committed : ∀ j, tx.committed = some j → j ≤ s.visible.length ∧
    (∀ r ∈ tx.reads, Untouched s.visible t r.key r.since j) ∧
    ∀ k ∈ tx.staged, ∃ p < j, s.visible[p]? = some ⟨tx.version, t, k⟩

/-- Two transactions that are both past the check for a closed repository. -/
def Apart (tx ux : Tx K) : Prop :=
  tx.reserved = true → ux.reserved = true → ∀ k ∈ tx.staged, k ∉ ux.locked

structure Inv (s : System K) : Prop where
  wf : ∀ k, (s.locks k).WellFormed
  cells : ∀ k, s.cells k ≤ s.lastVersion
  newest : ∀ pub ∈ s.visible, pub.version ≤ s.cells pub.key
  known : ∀ pub ∈ s.visible, ∃ tx, s.txs pub.tx = some tx
  txs : ∀ t tx, s.txs t = some tx → TxOk s t tx
  apart : ∀ t u tx ux, t ≠ u → s.txs t = some tx → s.txs u = some ux → Apart tx ux

/-! ## Carrying it over a step -/

section

variable {s s' : System K} {t : Nat} {tx : Tx K}

/-- A transaction that does not move, in a step that publishes nothing. -/
theorem TxOk.carry (h : TxOk s t tx) (hwounded : s.wounded t = true → s'.wounded t = true)
    (hreopen : s.requiresReopen = true → s'.requiresReopen = true)
    (hversion : s.lastVersion ≤ s'.lastVersion) (hvisible : s'.visible = s.visible)
    (hlocks : tx.mayCommit (s'.wounded t) s'.requiresReopen = true → ∀ k,
      (t ∈ (s.locks k).holders → t ∈ (s'.locks k).holders) ∧
      ((s.locks k).Owns t → (s'.locks k).Owns t)) : TxOk s' t tx where
  phase := h.phase
  locked_read := h.locked_read
  locked_staged := h.locked_staged
  locked_granted := h.locked_granted
  held := by
    intro hmay k hk
    exact (hlocks hmay k).1 (h.held (Tx.mayCommit_mono hwounded hreopen hmay) k hk)
  owned := by
    intro hmay k hk
    exact (hlocks hmay k).2 (h.owned (Tx.mayCommit_mono hwounded hreopen hmay) k hk)
  fresh := by
    rw [hvisible]
    intro hmay
    exact h.fresh (hmay.imp_left (Tx.mayCommit_mono hwounded hreopen))
  version_le := Nat.le_trans h.version_le hversion
  seen := by
    intro r hr
    obtain ⟨hseen, hlt⟩ := h.seen r hr
    omega
  newest := by
    rw [hvisible]
    exact h.newest
  own := by
    rw [hvisible]
    exact h.own
  publishing := by
    rw [hvisible]
    exact h.publishing
  replaying := by
    rw [hvisible]
    intro hne
    obtain ⟨hclosed, hrest⟩ := h.replaying hne
    exact ⟨hreopen hclosed, hrest⟩
  committed := by
    rw [hvisible]
    exact h.committed

/-- The transaction that changes. -/
theorem txs_setTx_self : (s.setTx t tx).txs t = some tx := Function.update_self ..

variable {u : Nat} {ux : Tx K} {w r : Bool}

/-- The others stay. -/
theorem txs_setTx_of_ne (hu : u ≠ t) : (s.setTx t tx).txs u = s.txs u :=
  Function.update_of_ne hu ..

/-- The others stay well placed. -/
theorem TxOk.setTx (h : TxOk s u ux) : TxOk (s.setTx t tx) u ux :=
  h.carry id id (Nat.le_refl _) rfl (fun _ _ => ⟨fun hk => hk, fun hk => hk⟩)

/-- A transaction moves to a place where nothing more is promised than before. -/
theorem TxOk.goto (h : TxOk s t tx) (place : Place K) (hphase : ({ tx with place } : Tx K).Phase)
    (hmay : ({ tx with place } : Tx K).mayCommit (s.wounded t) s.requiresReopen = true →
      tx.mayCommit (s.wounded t) s.requiresReopen = true) (hgranted : ∀ op, place ≠ .granted op)
    (hpublishing : ∀ todo, place = .publishing todo → (∀ k ∈ todo, k ∈ tx.staged) ∧
      ∀ k ∈ tx.staged, k ∈ todo ∨ ⟨tx.version, t, k⟩ ∈ s.visible) : TxOk s t { tx with place } :=
  { h with
    phase := hphase
    locked_granted := fun op hop => absurd hop (hgranted op)
    held := fun hmay' => h.held (hmay hmay')
    owned := fun hmay' k hk =>
      h.owned (hmay hmay') k (hk.imp_right fun hk => absurd hk (hgranted _))
    fresh := fun hmay' => h.fresh (hmay'.imp_left hmay)
    publishing := hpublishing }

/-- A settled reservation may commit. -/
theorem Tx.mayCommit_of_reserved (hres : tx.reserved = true) (hsettled : tx.unsettled = []) :
    tx.mayCommit w r = true := by
  simp only [Tx.reserved, hsettled] at hres
  unfold Tx.mayCommit
  split at hres
  case h_1 stage hplace =>
    cases stage <;> simp_all [pastReopenCheck, pastWoundCheck]
  case h_2 todo hplace => simp only [hplace]
  case h_3 => simp at hres

/-- A transaction that may commit and is not reserved has found the repository open. -/
theorem Tx.reopen_of_mayCommit (hmay : tx.mayCommit w r = true) (hres : tx.reserved = false) :
    r = false := by
  simp only [Tx.reserved, Bool.or_eq_false_iff] at hres
  unfold Tx.mayCommit at hmay
  split at hmay
  case h_5 stage hplace =>
    simp only [hplace] at hres
    simp only [hres, Bool.false_or, Bool.and_eq_true, Bool.not_eq_true'] at hmay
    exact hmay.2
  case h_6 todo hplace => simp [hplace] at hres
  case h_7 => simp at hmay
  case h_8 => simp at hmay
  all_goals
    simp only [Bool.and_eq_true, Bool.not_eq_true'] at hmay
    exact hmay.2

section

variable (h : Inv s) (hne : t ≠ u) (htx : s.txs t = some tx) (hux : s.txs u = some ux)
include h hne htx hux

/-- Of two that may commit one has not locked what the other has staged. -/
theorem Inv.not_locked (hmay : tx.mayCommit (s.wounded t) s.requiresReopen = true)
    (hmay' : ux.mayCommit (s.wounded u) s.requiresReopen = true) {k : K} (hk : k ∈ tx.staged) :
    k ∉ ux.locked := by
  intro hlocked
  have howns := (h.txs t tx htx).owned hmay k (.inl hk)
  have hholds := (h.txs u ux hux).held hmay' k hlocked
  exact hne ((h.wf k).eq_of_owns howns hholds).symm

/-- A row about to be published is not locked by another transaction that may commit. -/
theorem Inv.not_locked_of_reserved (hres : tx.reserved = true)
    (hmay : ux.mayCommit (s.wounded u) s.requiresReopen = true ∨ ux.unsettled ≠ []) {k : K}
    (hk : k ∈ tx.staged) : k ∉ ux.locked := by
  by_cases hres' : ux.reserved = true
  · exact h.apart t u tx ux hne htx hux hres hres' k hk
  rw [Bool.not_eq_true] at hres'
  rcases hmay with hmay | hunsettled
  · -- the repository is open, so nothing waits for a replay and `tx` has its locks
    have hopen := Tx.reopen_of_mayCommit hmay hres'
    have hsettled : tx.unsettled = [] := by
      by_contra hne'
      have hclosed := ((h.txs t tx htx).replaying hne').1
      rw [hopen] at hclosed
      simp at hclosed
    exact h.not_locked hne htx hux (Tx.mayCommit_of_reserved hres hsettled) hmay hk
  · simp [Tx.reserved, hunsettled] at hres'

end

/-- A step that changes one transaction and publishes nothing. -/
theorem Inv.of_setTx (hwf : ∀ k, (s.locks k).WellFormed) (hcells : ∀ k, s.cells k ≤ s.lastVersion)
    (hnewest : ∀ pub ∈ s.visible, pub.version ≤ s.cells pub.key)
    (hknown : ∀ pub ∈ s.visible, pub.tx ≠ t → ∃ tx, s.txs pub.tx = some tx)
    (hothers : ∀ u ux, u ≠ t → s.txs u = some ux → TxOk s u ux)
    (hapart : ∀ u v ux vx, u ≠ v → u ≠ t → v ≠ t → s.txs u = some ux → s.txs v = some vx →
      Apart ux vx) (hself : TxOk s t tx)
    (hself' : ∀ u ux, u ≠ t → s.txs u = some ux → Apart tx ux ∧ Apart ux tx) :
    Inv (s.setTx t tx) where
  wf := hwf
  cells := hcells
  newest := hnewest
  known := by
    intro pub hpub
    by_cases ht : pub.tx = t
    · rw [ht]
      exact ⟨tx, txs_setTx_self⟩
    · rw [txs_setTx_of_ne ht]
      exact hknown pub hpub ht
  txs := by
    intro u ux hux
    by_cases hu : u = t
    · subst hu
      rw [txs_setTx_self, Option.some.injEq] at hux
      exact hux ▸ hself.setTx
    · rw [txs_setTx_of_ne hu] at hux
      exact (hothers u ux hu hux).setTx
  apart := by
    intro u v ux vx huv hux hvx
    by_cases hu : u = t
    · subst hu
      rw [txs_setTx_self, Option.some.injEq] at hux
      rw [txs_setTx_of_ne huv.symm] at hvx
      exact hux ▸ (hself' v vx huv.symm hvx).1
    · rw [txs_setTx_of_ne hu] at hux
      by_cases hv : v = t
      · subst hv
        rw [txs_setTx_self, Option.some.injEq] at hvx
        exact hvx ▸ (hself' u ux hu hux).2
      · rw [txs_setTx_of_ne hv] at hvx
        exact hapart u v ux vx huv hu hv hux hvx

end

end ShamirDb.Pessimistic
