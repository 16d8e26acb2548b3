/-
# No lost updates between pessimistic transactions

Every step keeps the invariant, provided no lock is taken from a transaction between the
check of its wound mark and the moment its commit is visible.  The commit does not look at
the mark again, so without this condition a wounded transaction commits: `both_commit` is a
run in which two transactions read the same version of a row and both replace it.
-/
import ShamirDb.PessimisticInvariant
import ShamirDb.TaskList

namespace ShamirDb.Pessimistic

open Machine KeyLocks List Function Option TaskList
open TxLocks (Stage)

variable {K : Type} {s : System K} {t u i j : Nat} {tx : Tx K} {visible : List (Publication K)}
  {key : K}

/-! ## Steps of the shared state -/

/-- Versions only grow, the repository only closes, marks are only set, and locks are lost
by those who may not commit. -/
theorem Inv.shared (h : Inv s) (locks : K → KeyLockState) (wounded : Nat → Bool)
    (requiresReopen : Bool) (lastVersion : Nat) (hwf : ∀ k, (locks k).WellFormed)
    (hwounded : ∀ u, s.wounded u = true → wounded u = true)
    (hreopen : s.requiresReopen = true → requiresReopen = true)
    (hversion : s.lastVersion ≤ lastVersion)
    (hlocks : ∀ u ux, s.txs u = some ux → ux.mayCommit (wounded u) requiresReopen = true →
      ∀ k, (u ∈ (s.locks k).holders → u ∈ (locks k).holders) ∧
        ((s.locks k).Owns u → (locks k).Owns u)) :
    Inv { s with locks, wounded, requiresReopen, lastVersion } where
  wf := hwf
  cells := fun k => Nat.le_trans (h.cells k) hversion
  newest := h.newest
  known := h.known
  txs := by
    intro u ux hux
    exact (h.txs u ux hux).carry (hwounded u) hreopen hversion rfl (hlocks u ux hux)
  apart := h.apart

/-- The repository is closed for new commits. -/
theorem Inv.reopen (h : Inv s) : Inv { s with requiresReopen := true } :=
  h.shared s.locks s.wounded true s.lastVersion h.wf (fun _ => id) (fun _ => rfl) (Nat.le_refl _)
    (fun _ _ _ _ _ => ⟨fun hk => hk, fun hk => hk⟩)

/-- A lock changes hands. -/
theorem Inv.relock [DecidableEq K] (h : Inv s) (key : K) {st : KeyLockState} (wounded : Nat → Bool)
    (hwf : st.WellFormed) (hwounded : ∀ u, s.wounded u = true → wounded u = true)
    (hlock : ∀ u ux, s.txs u = some ux → ux.mayCommit (wounded u) s.requiresReopen = true →
      (u ∈ (s.locks key).holders → u ∈ st.holders) ∧ ((s.locks key).Owns u → st.Owns u)) :
    Inv { s with locks := update s.locks key st, wounded } := by
  refine h.shared _ _ s.requiresReopen s.lastVersion ?_ hwounded id (Nat.le_refl _) ?_
  · exact (forall_update_iff s.locks fun _ st => st.WellFormed).2 ⟨hwf, fun k _ => h.wf k⟩
  · intro u ux hux hmay
    exact (forall_update_iff s.locks fun k st => (u ∈ (s.locks k).holders → u ∈ st.holders) ∧
      ((s.locks k).Owns u → st.Owns u)).2 ⟨hlock u ux hux hmay, fun _ _ => ⟨id, id⟩⟩

/-- A turn of the loop in `lock_key`: whoever loses its lock is wounded, and may not commit
if it was not past its check. -/
theorem Inv.attempt [DecidableEq K] (h : Inv s) (key : K) (mode : LockMode)
    (hspares : ∀ u ∈ ((s.locks key).attempt t mode).victims, ∀ ux ∈ s.txs u, ux.passed = false) :
    Inv { s with
      locks := update s.locks key ((s.locks key).attempt t mode).state
      wounded := fun u => s.wounded u || u ∈ ((s.locks key).attempt t mode).victims } := by
  refine h.relock key _ (h.wf key).attempt (fun u hu => by simp [hu]) fun u ux hux hmay => ?_
  have hnot : u ∉ ((s.locks key).attempt t mode).victims := by
    intro hvictim
    have hpassed := hspares u hvictim ux hux
    simp only [Tx.passed] at hpassed
    unfold Tx.mayCommit at hmay
    split at hmay <;> simp_all
  constructor
  · intro hholds
    exact KeyLockState.mem_attempt_of_not_victim (h.wf key) hholds hnot
  · intro howns
    exact howns.attempt (h.wf key) hnot

/-! ## Publications -/

/-- A window of the publications that is over does not change. -/
theorem Untouched.append (h : Untouched visible u key i j) (hj : j ≤ visible.length)
    (pub : Publication K) : Untouched (visible ++ [pub]) u key i j := by
  intro p pub' hi hp hget hkey
  rw [getElem?_append_left (by omega)] at hget
  exact h p pub' hi hp hget hkey

/-- A window that is still running takes in a publication of another row, or of one's own. -/
theorem Untouched.concat (h : Untouched visible u key i visible.length) {pub : Publication K}
    (hpub : pub.key = key → pub.tx = u) :
    Untouched (visible ++ [pub]) u key i (visible ++ [pub]).length := by
  intro p pub' hi hp hget hkey
  rcases concat_cases hget with hold | ⟨-, rfl⟩
  · have hlt : p < visible.length := (List.getElem?_eq_some_iff.1 hold).1
    exact h p pub' hi hlt hold hkey
  · exact hpub hkey

/-! ## Steps of one transaction -/

/-- A transaction changes. -/
theorem Inv.setTx (h : Inv s) (hself : TxOk s t tx)
    (hself' : ∀ u ux, u ≠ t → s.txs u = some ux → Apart tx ux ∧ Apart ux tx) :
    Inv (s.setTx t tx) :=
  .of_setTx h.wf h.cells h.newest (fun pub hpub _ => h.known pub hpub)
    (fun u ux _ hux => h.txs u ux hux) (fun u v ux vx huv _ _ hux hvx => h.apart u v ux vx huv hux hvx)
    hself hself'

/-- A transaction begins. -/
theorem Inv.begin (h : Inv s) (hnone : s.txs t = none) : Inv (s.setTx t .new) := by
  apply h.setTx
  · refine ⟨⟨by simp [Tx.new], rfl, rfl⟩, by simp [Tx.new], by simp [Tx.new], by simp [Tx.new],
      by simp [Tx.new], by simp [Tx.new], by simp [Tx.new], Nat.zero_le _, by simp [Tx.new],
      by simp [Tx.new], ?_, by simp [Tx.new], by simp [Tx.new], by simp [Tx.new]⟩
    intro p pub hget hpub
    obtain ⟨tx, htx⟩ := h.known pub (mem_of_getElem? hget)
    rw [hpub, hnone] at htx
    simp at htx
  · intro u ux _ _
    exact ⟨fun hres => absurd hres (by simp [Tx.reserved, Tx.new]),
      fun _ hres => absurd hres (by simp [Tx.reserved, Tx.new])⟩

/-- A transaction that is not past the check for a closed repository is apart from all. -/
theorem apart_of_not_reserved (hres : tx.reserved = false) (ux : Tx K) :
    Apart tx ux ∧ Apart ux tx := by
  constructor
  · intro hr
    rw [hres] at hr
    simp at hr
  · intro _ hr
    rw [hres] at hr
    simp at hr

theorem Tx.mayCommit_publishing {w r : Bool} {todo : List K} (hplace : tx.place = .publishing todo) :
    tx.mayCommit w r = true := by
  rw [Tx.mayCommit, hplace]

theorem open_or_visible [DecidableEq K] (key : K) {rows : List K}
    (hrows : ∀ k ∈ tx.staged, k ∈ rows ∨ ⟨tx.version, t, k⟩ ∈ s.visible) :
    ∀ k ∈ tx.staged, k ∈ rows.filter (· ≠ key) ∨
      ⟨tx.version, t, k⟩ ∈ (s.publish t tx key).visible := by
  intro k hk
  by_cases heq : k = key
  · subst heq
    exact .inr (mem_append_right _ (mem_singleton_self _))
  · rcases hrows k hk with hin | hvisible
    · exact .inl (mem_filter.2 ⟨hin, by simpa using heq⟩)
    · exact .inr (mem_append_left _ hvisible)

section

variable (h : Inv s) (htx : s.txs t = some tx) {key : K} {place : Place K}
include h htx

/-- A lock is released. -/
theorem Inv.release [DecidableEq K] (key : K) (hdone : ∀ w r, tx.mayCommit w r = false) :
    Inv { s with locks := update s.locks key ((s.locks key).release t) } := by
  refine h.relock key s.wounded (h.wf key).release (fun _ => id) fun u ux hux hmay => ?_
  have hne : u ≠ t := by
    rintro rfl
    rw [htx, some.injEq] at hux
    rw [← hux, hdone] at hmay
    simp at hmay
  constructor
  · exact KeyLockState.mem_release_of_ne hne
  · intro howns
    exact howns.release (h.wf key) hne

/-- A transaction whose commit is decided publishes a row it has staged. -/
theorem Inv.publish [DecidableEq K] (hres : tx.reserved = true) (hversion : tx.version ≠ 0)
    (hkey : key ∈ tx.staged) : Inv (s.publish t tx key) where
  wf := h.wf
  cells := by
    intro k
    by_cases hk : k = key
    · subst hk
      have hcell := h.cells k
      have hle := (h.txs t tx htx).version_le
      simp only [System.publish, update_self]
      omega
    · simp only [System.publish, update_of_ne hk]
      exact h.cells k
  newest := by
    intro pub hpub
    rcases mem_append.1 hpub with hold | hnew
    · have hle := h.newest pub hold
      by_cases hk : pub.key = key
      · rw [hk] at hle ⊢
        simp only [System.publish, update_self]
        omega
      · simp only [System.publish, update_of_ne hk]
        exact hle
    · rw [mem_singleton] at hnew
      subst hnew
      simp only [System.publish, update_self]
      omega
  known := forall_mem_append.2 ⟨h.known, forall_mem_singleton.2 ⟨tx, htx⟩⟩
  txs := by
    intro u ux hux
    have hok := h.txs u ux hux
    refine { hok with
      fresh := ?_, newest := ?_, own := ?_, publishing := ?_, replaying := ?_, committed := ?_ }
    · intro hmay r hr
      apply (hok.fresh hmay r hr).concat
      intro hrow
      by_contra hne
      exact h.not_locked_of_reserved hne htx hux hres hmay hkey
        (by rw [show key = r.key from hrow]; exact hok.locked_read r hr)
    · intro r hr
      obtain ⟨hsince, hnew⟩ := hok.newest r hr
      refine ⟨by simp only [System.publish, length_append]; omega, ?_⟩
      intro p pub hp hget
      simp only [System.publish, getElem?_append_left (show p < s.visible.length by omega)] at hget
      exact hnew p pub hp hget
    · intro p pub hget hpub
      rcases concat_cases hget with hold | ⟨rfl, rfl⟩
      · exact hok.own p pub hold hpub
      · subst hpub
        obtain rfl : tx = ux := some.inj (htx.symm.trans hux)
        exact ⟨hversion, rfl, fun r hr => (hok.newest r hr).1⟩
    · intro todo htodo
      obtain ⟨hsub, hpub⟩ := hok.publishing todo htodo
      exact ⟨hsub, fun k hk => (hpub k hk).imp_right (mem_append_left _)⟩
    · intro hne
      obtain ⟨hclosed, hsub, hpub⟩ := hok.replaying hne
      exact ⟨hclosed, hsub, fun k hk => (hpub k hk).imp_right (mem_append_left _)⟩
    · intro j hj
      obtain ⟨hle, hreads, hstaged⟩ := hok.committed j hj
      refine ⟨by simp only [System.publish, length_append]; omega, ?_, ?_⟩
      · intro r hr
        exact (hreads r hr).append hle _
      · intro k hk
        obtain ⟨p, hp, hget⟩ := hstaged k hk
        refine ⟨p, hp, ?_⟩
        simp only [System.publish, getElem?_append_left (show p < s.visible.length by omega)]
        exact hget
  apart := h.apart

/-- A transaction that has the same rows and is not reserved unless it was. -/
theorem Inv.apart_of_reserved {tx' : Tx K} (hstaged : tx'.staged = tx.staged)
    (hlocked : tx'.locked = tx.locked) (hres : tx'.reserved = true → tx.reserved = true) :
    ∀ u ux, u ≠ t → s.txs u = some ux → Apart tx' ux ∧ Apart ux tx' := by
  intro u ux hu hux
  constructor
  · intro hr hr' k hk
    rw [hstaged] at hk
    exact h.apart t u tx ux hu.symm htx hux (hres hr) hr' k hk
  · intro hr hr' k hk
    rw [hlocked]
    exact h.apart u t ux tx hu hux htx hr (hres hr') k hk

/-- A transaction moves to a place where nothing more is promised than before. -/
theorem Inv.goto (place : Place K) (hphase : ({ tx with place } : Tx K).Phase)
    (hmay : ({ tx with place } : Tx K).mayCommit (s.wounded t) s.requiresReopen = true →
      tx.mayCommit (s.wounded t) s.requiresReopen = true) (hgranted : ∀ op, place ≠ .granted op)
    (hpublishing : ∀ todo, place = .publishing todo → (∀ k ∈ todo, k ∈ tx.staged) ∧
      ∀ k ∈ tx.staged, k ∈ todo ∨ ⟨tx.version, t, k⟩ ∈ s.visible)
    (hres : ({ tx with place } : Tx K).reserved = true → tx.reserved = true) :
    Inv (s.setTx t { tx with place }) :=
  h.setTx ((h.txs t tx htx).goto place hphase hmay hgranted hpublishing)
    (h.apart_of_reserved htx rfl rfl hres)

/-- A transaction goes on executing, or comes to its commit. -/
theorem Inv.move (hfrom : tx.place.executing = true)
    (hto : place.executing = true ∨ place = .committing .visibilityWait)
    (hgranted : ∀ op, place ≠ .granted op) : Inv (s.setTx t { tx with place }) := by
  have hphase := (h.txs t tx htx).phase.executing hfrom
  have hmay := Tx.mayCommit_executing hfrom
  have hnotres : ({ tx with place } : Tx K).reserved = false := by
    rcases hto with hto | rfl
    · cases place <;> simp_all [Tx.reserved, Place.executing, Tx.Undecided]
    · simp [Tx.reserved, hphase.2.1, pastReopenCheck]
  apply h.goto htx
  · rcases hto with hto | rfl
    · cases place <;> simp_all [Tx.Phase, Place.executing, Tx.Undecided]
    · exact hphase
  · rw [hmay]
    rcases hto with hto | rfl
    · rw [Tx.mayCommit_executing hto]
      exact fun hm => hm
    · simp [Tx.mayCommit, pastWoundCheck, pastReopenCheck]
  · exact hgranted
  · rintro todo rfl
    rcases hto with hto | hto
    · simp [Place.executing] at hto
    · simp at hto
  · rw [hnotres]
    simp

/-- A transaction that is refused or dropped. -/
theorem Inv.refuse (hplace : (∃ todo, place = .releasing todo) ∨ place = .ended) :
    Inv (s.setTx t { tx with place }) := by
  have hok := h.txs t tx htx
  rcases hplace with ⟨todo, rfl⟩ | rfl
  all_goals
    apply h.goto htx
    · exact fun hne => (hok.phase.unsettled hne).2
    · simp [Tx.mayCommit]
    · simp
    · simp
    · intro hres
      simp only [Tx.reserved, Bool.or_false] at hres
      simp [Tx.reserved, hres]

section

variable [DecidableEq K] {op : Op K}

/-- A transaction asks for a lock. -/
theorem Inv.enter (hplace : tx.place = .entering op)
    (hspares : ∀ u ∈ ((s.locks op.key).attempt t op.mode).victims, ∀ ux ∈ s.txs u,
      ux.passed = false) : Inv (s.enter t tx op) := by
  have h' := h.attempt op.key op.mode hspares
  have hok := h'.txs t tx htx
  have hphase := hok.phase.executing (by rw [hplace]; rfl)
  unfold System.enter
  simp only
  split
  case isTrue hgranted =>
    obtain ⟨hin, howns⟩ := KeyLockState.attempt_granted hgranted
    apply h'.setTx
    · refine { hok with
        phase := hphase, locked_read := ?_, locked_staged := ?_, locked_granted := ?_, held := ?_,
        owned := ?_, fresh := ?_, publishing := ?_ }
      · exact fun r hr => mem_insert_of_mem (hok.locked_read r hr)
      · exact fun k hk => mem_insert_of_mem (hok.locked_staged k hk)
      · rintro op' hop'
        obtain rfl : op = op' := by simpa using hop'
        exact mem_insert_self
      · intro hmay k hk
        rcases mem_insert_iff.1 hk with rfl | hk
        · simpa using hin
        · exact hok.held (by rw [Tx.mayCommit, hplace]; exact hmay) k hk
      · intro hmay k hk
        rcases hk with hk | hk
        · exact hok.owned (by rw [Tx.mayCommit, hplace]; exact hmay) k (.inl hk)
        · obtain rfl : op = .write k := by simpa using hk
          simpa [Op.key] using howns rfl
      · intro hmay
        exact hok.fresh (hmay.imp_left fun hm => by rw [Tx.mayCommit, hplace]; exact hm)
      · simp
    · intro u ux _ _
      apply apart_of_not_reserved
      simp [Tx.reserved, hphase.2.1]
  case isFalse =>
    exact h'.move htx (by rw [hplace]; rfl) (.inl rfl) (by simp)

/-- An operation is done. -/
theorem Inv.finish (hplace : tx.place = .granted op) : Inv (s.finish t tx op) := by
  have hok := h.txs t tx htx
  have hphase := hok.phase.executing (by rw [hplace]; rfl)
  have hnotres : ∀ tx' : Tx K, tx'.unsettled = [] → tx'.place = .running → tx'.reserved = false := by
    intro tx' hunsettled hrunning
    simp [Tx.reserved, hunsettled, hrunning]
  have hversion : tx.version = 0 := by
    by_contra hne
    exact absurd (hphase.1.1 hne) (by simp)
  have hmay : ∀ tx' : Tx K, tx'.place = .running →
      tx'.mayCommit (s.wounded t) s.requiresReopen = true →
      tx.mayCommit (s.wounded t) s.requiresReopen = true := by
    intro tx' hrunning hm
    rw [Tx.mayCommit, hrunning] at hm
    rw [Tx.mayCommit, hplace]
    exact hm
  cases op with
  | read key =>
    simp only [System.finish]
    split
    case isTrue =>
      exact h.move htx (by rw [hplace]; rfl) (.inl rfl) (by simp)
    case isFalse =>
      refine h.setTx ?_ (fun u ux _ _ => apart_of_not_reserved (hnotres _ ?_ rfl) ux)
      case refine_2 => exact hphase.2.1
      refine { hok with
        phase := hphase, locked_read := ?_, locked_granted := ?_, held := ?_, owned := ?_,
        fresh := ?_, seen := ?_, newest := ?_, own := ?_, publishing := ?_, committed := ?_ }
      · exact forall_mem_cons.2 ⟨hok.locked_granted _ hplace, hok.locked_read⟩
      · simp
      · exact fun hm => hok.held (hmay _ rfl hm)
      · intro hm k hk
        rcases hk with hk | hk
        · exact hok.owned (hmay _ rfl hm) k (.inl hk)
        · simp at hk
      · intro hm r hr
        rcases mem_cons.1 hr with rfl | hr
        · intro p pub hi hp
          exact absurd hp (Nat.not_lt.2 hi)
        · exact hok.fresh (hm.imp_left (hmay _ rfl)) r hr
      · exact forall_mem_cons.2 ⟨⟨h.cells key, fun hne => absurd hversion hne⟩, hok.seen⟩
      · intro r hr
        rcases mem_cons.1 hr with rfl | hr
        · refine ⟨Nat.le_refl _, ?_⟩
          intro p pub _ hget hkey
          have hle := h.newest pub (mem_of_getElem? hget)
          rwa [hkey] at hle
        · exact hok.newest r hr
      · intro p pub hget hpub
        exact absurd hversion (hok.own p pub hget hpub).1
      · simp
      · simp [show tx.committed = none from hphase.2.2]
  | write key =>
    refine h.setTx ?_ (fun u ux _ _ => apart_of_not_reserved (hnotres _ ?_ rfl) ux)
    case refine_2 => exact hphase.2.1
    refine { hok with
      phase := hphase, locked_staged := ?_, locked_granted := ?_, held := ?_, owned := ?_,
      fresh := ?_, publishing := ?_, replaying := ?_, committed := ?_ }
    · intro k hk
      rcases mem_insert_iff.1 hk with rfl | hk
      · exact hok.locked_granted _ hplace
      · exact hok.locked_staged k hk
    · simp
    · exact fun hm => hok.held (hmay _ rfl hm)
    · intro hm k hk
      rcases hk with hk | hk
      · rcases mem_insert_iff.1 hk with rfl | hk
        · exact hok.owned (hmay _ rfl hm) k (.inr hplace)
        · exact hok.owned (hmay _ rfl hm) k (.inl hk)
      · simp at hk
    · exact fun hm => hok.fresh (hm.imp_left (hmay _ rfl))
    · simp
    · intro hne
      exact absurd hphase.2.1 hne
    · simp [show tx.committed = none from hphase.2.2]

end

/-! ## Steps of a commit -/

variable {stage : Stage}

theorem Inv.undecided (hplace : tx.place = .committing stage) : tx.Undecided (assigned stage) := by
  have := (h.txs t tx htx).phase
  rwa [Tx.Phase, hplace] at this

/-- A transaction that has nothing staged or nothing left to publish commits. -/
theorem Inv.commit (hmay : tx.mayCommit (s.wounded t) s.requiresReopen = true)
    (hsettled : tx.unsettled = []) (hpublished : ∀ k ∈ tx.staged, ⟨tx.version, t, k⟩ ∈ s.visible) :
    Inv (s.setTx t { tx with
      place := .releasing tx.locked, committed := some s.visible.length }) := by
  have hok := h.txs t tx htx
  refine h.setTx ?_ (h.apart_of_reserved htx rfl rfl ?_)
  · refine { hok with
      phase := ?_, locked_granted := by simp, held := ?_, owned := ?_, fresh := ?_,
      publishing := by simp, committed := ?_ }
    · exact fun hne => absurd hsettled hne
    · exact fun hm => absurd hm (by simp [Tx.mayCommit])
    · exact fun hm => absurd hm (by simp [Tx.mayCommit])
    · exact fun _ => hok.fresh (.inl hmay)
    · intro j hj
      obtain rfl : s.visible.length = j := some.inj hj
      refine ⟨Nat.le_refl _, hok.fresh (.inl hmay), ?_⟩
      intro k hk
      obtain ⟨p, hp, hget⟩ := getElem_of_mem (hpublished k hk)
      exact ⟨p, hp, by rw [getElem?_eq_getElem hp, hget]⟩
  · simp [Tx.reserved, hsettled]

/-- A version is assigned. -/
theorem Inv.assign (hplace : tx.place = .committing .validate) :
    Inv ({ s with lastVersion := s.lastVersion + 1 }.setTx t
      { tx with place := .committing .walQueue, version := s.lastVersion + 1 }) := by
  have h' : Inv { s with lastVersion := s.lastVersion + 1 } :=
    h.shared s.locks s.wounded s.requiresReopen (s.lastVersion + 1) h.wf (fun _ => id)
      id (Nat.le_succ _) (fun _ _ _ _ _ => ⟨fun hk => hk, fun hk => hk⟩)
  have hok := h.txs t tx htx
  have hok' := h'.txs t tx htx
  obtain ⟨hversion, hsettled, hcommitted⟩ : tx.Undecided false := h.undecided htx hplace
  have hzero : tx.version = 0 := by
    by_contra hne
    exact absurd (hversion.1 hne) (by simp)
  have hmay : tx.mayCommit (s.wounded t) s.requiresReopen = true := by
    simp [Tx.mayCommit, hplace, pastWoundCheck, pastReopenCheck]
  refine h'.setTx ?_ (h'.apart_of_reserved htx rfl rfl ?_)
  · refine { hok' with
      phase := ?_, locked_granted := by simp, held := fun _ => hok.held hmay, owned := ?_,
      fresh := fun _ => hok.fresh (.inl hmay), version_le := Nat.le_refl _, seen := ?_, own := ?_,
      publishing := by simp, replaying := fun hne => absurd hsettled hne, committed := ?_ }
    · exact ⟨by simp [assigned], hsettled, hcommitted⟩
    · intro _ k hk
      rcases hk with hk | hk
      · exact hok.owned hmay k (.inl hk)
      · simp at hk
    · intro r hr
      have hle := (hok.seen r hr).1
      exact ⟨Nat.le_succ_of_le hle, fun _ => Nat.lt_succ_of_le hle⟩
    · intro p pub hget hpub
      exact absurd hzero (hok.own p pub hget hpub).1
    · simp [show tx.committed = none from hcommitted]
  · simp [Tx.reserved, hplace, pastReopenCheck]

/-- A commit passes the check for a closed repository.  Whoever is past it already has its
locks, since the repository is open. -/
theorem Inv.passReopen
    (hplace : tx.place = .committing .gateReopen) (hopen : s.requiresReopen = false) :
    Inv (s.setTx t { tx with place := .committing .retention }) := by
  have hok := h.txs t tx htx
  have hmay : tx.mayCommit (s.wounded t) s.requiresReopen = true := by
    simp [Tx.mayCommit, hplace, pastWoundCheck, hopen]
  apply h.setTx
  · apply hok.goto
    · exact (h.undecided htx hplace : tx.Undecided false)
    · exact fun _ => hmay
    · simp
    · simp
  intro u ux hu hux
  have hmay' : ux.reserved = true → ux.mayCommit (s.wounded u) s.requiresReopen = true := by
    intro hres
    apply Tx.mayCommit_of_reserved hres
    by_contra hne
    have hclosed := ((h.txs u ux hux).replaying hne).1
    rw [hopen] at hclosed
    simp at hclosed
  constructor
  · intro _ hres k hk
    exact h.not_locked hu.symm htx hux hmay (hmay' hres) hk
  · intro hres _ k hk
    exact h.not_locked hu hux htx (hmay' hres) hmay hk

/-- A commit moves on. -/
theorem Inv.advance {next : Stage} (hplace : tx.place = .committing stage)
    (hassigned : assigned next = assigned stage)
    (hwound : pastWoundCheck next = true → pastWoundCheck stage = true ∨ s.wounded t = false)
    (hreopen : pastReopenCheck next = pastReopenCheck stage) :
    Inv (s.setTx t { tx with place := .committing next }) := by
  apply h.goto htx
  · show tx.Undecided (assigned next)
    rw [hassigned]
    exact h.undecided htx hplace
  · intro hmay
    simp only [Tx.mayCommit, hreopen, Bool.and_eq_true, Bool.or_eq_true] at hmay
    simp only [Tx.mayCommit, hplace, Bool.and_eq_true, Bool.or_eq_true]
    refine ⟨?_, hmay.2⟩
    rcases hmay.1 with hpast | hunwounded
    · rcases hwound hpast with hstage | hunwounded
      · exact .inl hstage
      · exact .inr (by simp [hunwounded])
    · exact .inr hunwounded
  · simp
  · simp
  · simp [Tx.reserved, hplace, hreopen]

/-- Every stage of a commit. -/
theorem Inv.commitStage [DecidableEq K] (hplace : tx.place = .committing stage) (ok : Bool) :
    Inv (s.commitStage t tx stage ok) := by
  unfold System.commitStage
  split
  case isTrue hpass =>
    cases stage with
    | wounded =>
      refine h.advance htx hplace rfl (fun _ => .inr ?_) rfl
      simpa [System.passes] using hpass
    | gateReopen =>
      apply h.passReopen htx hplace
      simpa [System.passes] using hpass
    | validate =>
      simp only
      split
      case isTrue hempty =>
        apply h.commit htx
        · simp [Tx.mayCommit, hplace, pastWoundCheck, pastReopenCheck]
        · exact (h.undecided htx hplace).2.1
        · simp [hempty]
      case isFalse => exact h.assign htx hplace
    | walCompletion | publish => exact h
    | access | visibilityWait | gateInit =>
      exact h.advance htx hplace rfl (fun hpast => absurd hpast (by simp [pastWoundCheck])) rfl
    | expiry | gate | retention | wal | walReopen | prelock | walQueue =>
      exact h.advance htx hplace rfl (fun _ => .inl rfl) rfl
  case isFalse =>
    have hrefuse : ∀ closes : Bool,
        Inv ({ s with requiresReopen := s.requiresReopen || closes }.setTx t
          { tx with place := .releasing tx.locked }) := by
      intro closes
      have h' : Inv { s with requiresReopen := s.requiresReopen || closes } := by
        cases closes with
        | true =>
          rw [Bool.or_true]
          exact h.reopen
        | false =>
          rw [Bool.or_false]
          exact h
      exact h'.refuse htx (.inl ⟨_, rfl⟩)
    split
    · exact h
    · exact h
    · exact hrefuse _

/-- The answer of the WAL.  If nobody knows it, the repository is closed before the locks
are given back. -/
theorem Inv.wal [DecidableEq K] (hplace : tx.place = .committing .walCompletion)
    (outcome : WalOutcome) : Inv (s.wal t tx outcome) := by
  have hok := h.txs t tx htx
  have hphase : tx.Undecided true := h.undecided htx hplace
  have hmay : ∀ w r, tx.mayCommit w r = true := by
    simp [Tx.mayCommit, hplace, pastWoundCheck, pastReopenCheck]
  have hres : tx.reserved = true := by
    simp [Tx.reserved, hplace, pastReopenCheck]
  have hpublish : Inv (s.setTx t { tx with place := .publishing tx.staged }) := by
    refine h.goto htx _ hphase (fun _ => hmay _ _) (by simp) ?_ (fun _ => hres)
    rintro _ ⟨rfl⟩
    exact ⟨fun _ => id, fun _ => .inl⟩
  cases outcome with
  | written | writtenNotDurable => exact hpublish
  | notWritten => exact h.refuse htx (.inl ⟨_, rfl⟩)
  | unknown =>
    have hok' := h.reopen.txs t tx htx
    refine h.reopen.setTx ?_ (h.reopen.apart_of_reserved htx rfl rfl (fun _ => hres))
    refine { hok' with
      phase := ?_, locked_granted := by simp, held := ?_, owned := ?_,
      fresh := fun _ => hok.fresh (.inl (hmay _ _)), publishing := by simp, replaying := ?_ }
    · exact fun _ => ⟨hphase.1.2 rfl, hphase.2.2⟩
    · exact fun hm => absurd hm (by simp [Tx.mayCommit])
    · exact fun hm => absurd hm (by simp [Tx.mayCommit])
    · intro _
      exact ⟨rfl, fun _ => id, fun _ => .inl⟩

/-- A row is published. -/
theorem Inv.publishRow [DecidableEq K] {todo : List K} (hplace : tx.place = .publishing todo)
    (hkey : key ∈ todo) :
    Inv ((s.publish t tx key).setTx t
      { tx with place := .publishing (todo.filter (· ≠ key)) }) := by
  have hok := h.txs t tx htx
  have hphase : tx.Undecided true := by
    have := hok.phase
    rwa [Tx.Phase, hplace] at this
  have hres : tx.reserved = true := by simp [Tx.reserved, hplace]
  obtain ⟨hsub, hrows⟩ := hok.publishing todo hplace
  have h' := h.publish htx hres (hphase.1.2 rfl) (hsub key hkey)
  refine h'.goto htx _ hphase (fun _ => Tx.mayCommit_publishing hplace) (by simp) ?_ (fun _ => hres)
  rintro _ ⟨rfl⟩
  exact ⟨fun k hk => hsub k (mem_of_mem_filter hk), open_or_visible key hrows⟩

/-- A row of a WAL entry of unknown fate is published by replay. -/
theorem Inv.replay [DecidableEq K] (hkey : key ∈ tx.unsettled) : Inv (s.replay t tx key) := by
  have hok := h.txs t tx htx
  have hunsettled : tx.unsettled ≠ [] := ne_nil_of_mem hkey
  have hres : tx.reserved = true := by simp [Tx.reserved, hunsettled]
  obtain ⟨hplace, hversion, hcommitted⟩ := hok.phase.unsettled hunsettled
  obtain ⟨hclosed, hsub, hrows⟩ := hok.replaying hunsettled
  have h' := h.publish htx hres hversion (hsub key hkey)
  have hok' := h'.txs t tx htx
  have hrows' := open_or_visible key hrows
  refine h'.setTx ?_ (h'.apart_of_reserved htx rfl rfl (fun _ => hres))
  refine { hok' with
    phase := ?_, fresh := fun _ => hok'.fresh (.inr hunsettled), replaying := ?_, committed := ?_ }
  · rcases hplace with ⟨todo, hplace⟩ | hplace <;> rw [hplace] <;> intro hne <;>
      exact ⟨hversion, by rw [if_neg hne]; exact hcommitted⟩
  · intro _
    exact ⟨hclosed, fun k hk => hsub k (mem_of_mem_filter hk), hrows'⟩
  intro j hj
  by_cases hlast : tx.unsettled.filter (· ≠ key) = []
  · rw [if_pos hlast] at hj
    obtain rfl : s.visible.length + 1 = j := some.inj hj
    have hlen : (s.publish t tx key).visible.length = s.visible.length + 1 := by
      simp [System.publish]
    rw [← hlen]
    refine ⟨Nat.le_refl _, hok'.fresh (.inr hunsettled), ?_⟩
    intro k hk
    have hvisible := (hrows' k hk).resolve_left (by rw [hlast]; exact not_mem_nil)
    obtain ⟨p, hp, hget⟩ := getElem_of_mem hvisible
    exact ⟨p, hp, by rw [getElem?_eq_getElem hp, hget]⟩
  · rw [if_neg hlast, hcommitted] at hj
    simp at hj

/-- A commit releases its locks. -/
theorem Inv.releaseKey [DecidableEq K] {todo : List K}
    (hplace : tx.place = .releasing todo) : Inv (s.release t tx todo) := by
  cases todo with
  | nil => exact h.refuse htx (.inr rfl)
  | cons key todo =>
    have h' := h.release htx key (by simp [Tx.mayCommit, hplace])
    exact h'.refuse htx (.inl ⟨todo, rfl⟩)

end

section

variable [DecidableEq K]

/-- One step keeps the invariant, unless it takes a lock from a transaction that is past the
check of its wound mark. -/
theorem Inv.step (h : Inv s) (ev : Event K) (hspares : SparesPassed s ev) :
    Inv (Pessimistic.step s ev) := by
  unfold Pessimistic.step
  split
  case h_2 hnone =>
    cases ev with
    | begin t => exact h.begin hnone
    | _ => exact h
  case h_1 tx htx =>
    have hok := h.txs _ tx htx
    -- at any other place than its own an event changes nothing
    cases ev with ((simp only [act]; repeat' split) <;> try exact h)
    | call t op => next hplace => exact h.move htx (by rw [hplace]; rfl) (.inl rfl) (by simp)
    | check t => next op hplace _ => exact h.move htx (by rw [hplace]; rfl) (.inl rfl) (by simp)
    | enter t =>
      next op hplace =>
      apply h.enter htx hplace
      have htx' : s.txs t = some tx := htx
      intro u hu
      apply hspares
      simp only [victims, htx', hplace]
      exact hu
    | finish t => next op hplace => exact h.finish htx hplace
    | cancel t => exact h.move htx (by simp_all [Place.executing]) (.inl rfl) (by simp)
    | abort t => exact h.refuse htx (.inl ⟨_, rfl⟩)
    | drop t => exact h.refuse htx (.inr rfl)
    | commit t => next hplace => exact h.move htx (by rw [hplace]; rfl) (.inr rfl) (by simp)
    | stage t ok => next stage hplace => exact h.commitStage htx hplace ok
    | wal t outcome => next hplace => exact h.wal htx hplace outcome
    | publish t key => next todo hplace hkey => exact h.publishRow htx hplace hkey
    | settle t =>
      next hplace =>
      have hphase := hok.phase
      rw [Tx.Phase, hplace] at hphase
      apply h.commit htx (Tx.mayCommit_publishing hplace) hphase.2.1
      intro k hk
      exact ((hok.publishing [] hplace).2 k hk).resolve_left not_mem_nil
    | replay t key => next hkey => exact h.replay htx hkey
    | release t => next todo hplace => exact h.releaseKey htx hplace

omit [DecidableEq K] in
/-- A new engine. -/
theorem Inv.init : Inv (.init : System K) where
  wf := fun _ => KeyLockState.wellFormed_unheld
  cells := fun _ => Nat.le_refl _
  newest := by simp [System.init]
  known := by simp [System.init]
  txs := by simp [System.init]
  apart := by simp [System.init]

/-! ## Wounded in time -/

/-- The transaction is wounded and has not passed the check of its mark. -/
def Doomed (s : System K) (t : Nat) : Prop :=
  s.wounded t = true ∧ ∀ tx, s.txs t = some tx → tx.passed = false ∧ tx.committed = none

/-- What the steps of a transaction do to it and to the marks: if it is doomed, it stays so. -/
structure Acted (s : System K) (t : Nat) (tx : Tx K) (s' : System K) : Prop where
  marks : ∀ u, s.wounded u = true → s'.wounded u = true
  moved : ∃ tx', s'.txs = update s.txs t (some tx') ∧
    (s.wounded t = true → tx.passed = false → tx.committed = none →
      tx'.passed = false ∧ tx'.committed = none)

section

omit [DecidableEq K]

theorem Acted.stay (htx : s.txs t = some tx) : Acted s t tx s :=
  ⟨fun _ => id, tx, by rw [← htx, update_eq_self], fun _ hp hc => ⟨hp, hc⟩⟩

theorem Acted.setTx {s' : System K} {tx' : Tx K} (htxs : s'.txs = s.txs)
    (hmarks : ∀ u, s.wounded u = true → s'.wounded u = true)
    (hunsettled : tx'.unsettled = tx.unsettled) (hcommitted : tx'.committed = tx.committed)
    (hplace : s.wounded t = true → tx.passed = false →
      (∀ stage, tx'.place = .committing stage → pastWoundCheck stage = false) ∧
      ∀ todo, tx'.place ≠ .publishing todo) : Acted s t tx (s'.setTx t tx') := by
  refine ⟨hmarks, tx', by rw [← htxs]; rfl, ?_⟩
  intro hw hp hc
  obtain ⟨hstage, hpublishing⟩ := hplace hw hp
  refine ⟨?_, hcommitted.trans hc⟩
  simp only [Tx.passed, Bool.or_eq_false_iff] at hp ⊢
  refine ⟨by rw [hunsettled]; exact hp.1, ?_⟩
  split
  case h_1 stage heq => exact hstage stage heq
  case h_2 todo heq => exact absurd heq (hpublishing todo)
  case h_3 => rfl

/-- Whoever is past the check is not doomed. -/
theorem Acted.ofPassed {s' : System K} {tx' : Tx K} (htxs : s'.txs = update s.txs t (some tx'))
    (hmarks : ∀ u, s.wounded u = true → s'.wounded u = true) (hp : tx.passed = true) :
    Acted s t tx s' := by
  refine ⟨hmarks, tx', htxs, ?_⟩
  intro _ hp'
  rw [hp] at hp'
  simp at hp'

/-- What a stage does to a transaction. -/
theorem acted_commitStage (htx : s.txs t = some tx) {stage : Stage}
    (hplace : tx.place = .committing stage) (ok : Bool) :
    Acted s t tx (s.commitStage t tx stage ok) := by
  by_cases hpast : pastWoundCheck stage = true
  · have hp : tx.passed = true := by simp [Tx.passed, hplace, hpast]
    unfold System.commitStage
    split
    · split
      · split <;> exact .ofPassed rfl (fun _ => id) hp
      · exact .stay htx
      · exact .stay htx
      · split
        · exact .ofPassed rfl (fun _ => id) hp
        · exact .stay htx
    · split
      · exact .stay htx
      · exact .stay htx
      · exact .ofPassed rfl (fun _ => id) hp
  · have hrefused : ∀ closes, Acted s t tx
        ({ s with requiresReopen := closes }.setTx t { tx with place := .releasing tx.locked }) :=
      fun _ => .setTx rfl (fun _ => id) rfl rfl (by simp)
    unfold System.commitStage
    split
    case isFalse => cases stage <;> first | exact hrefused _ | exact absurd rfl hpast
    case isTrue hpass =>
      cases stage with
      | access | visibilityWait | gateInit =>
        exact .setTx rfl (fun _ => id) rfl rfl (by simp [pastWoundCheck])
      | wounded =>
        -- the one check of the mark
        refine .setTx rfl (fun _ => id) rfl rfl (fun hw => ?_)
        simp [System.passes, hw] at hpass
      | _ => exact absurd rfl hpast

end

/-- What an event does to a transaction. -/
theorem acted (htx : s.txs t = some tx) (ev : Event K) : Acted s t tx (act s t tx ev) := by
  cases ev with ((simp only [act, System.enter]; repeat' split) <;> try exact .stay htx)
  | call t op | check t | abort t | cancel t | drop t | commit t =>
    exact .setTx rfl (fun _ => id) rfl rfl (by simp [pastWoundCheck])
  | enter t => exact .setTx rfl (fun _ hw => by simp [hw]) rfl rfl (by simp)
  | finish t =>
    next op _ =>
    cases op with
    | read key =>
      simp only [System.finish]
      split <;> exact .setTx rfl (fun _ => id) rfl rfl (by simp)
    | write key => exact .setTx rfl (fun _ => id) rfl rfl (by simp)
  | stage t ok => next stage hplace => exact acted_commitStage htx hplace ok
  | wal t outcome =>
    next hplace =>
    have hp : tx.passed = true := by simp [Tx.passed, hplace, pastWoundCheck]
    cases outcome <;> exact .ofPassed rfl (fun _ => id) hp
  | publish t key | settle t =>
    exact .ofPassed rfl (fun _ => id) (by simp_all [Tx.passed])
  | replay t key =>
    next hkey => exact .ofPassed rfl (fun _ => id) (by simp [Tx.passed, ne_nil_of_mem hkey])
  | release t =>
    next todo _ => cases todo <;> exact .setTx rfl (fun _ => id) rfl rfl (by simp)

/-- A wounded transaction stays so. -/
theorem Doomed.step (h : Doomed s t) (ev : Event K) : Doomed (Pessimistic.step s ev) t := by
  unfold Pessimistic.step
  split
  case h_1 ux hux =>
    obtain ⟨hmarks, ux', htxs, hkeep⟩ := acted hux ev
    refine ⟨hmarks t h.1, ?_⟩
    intro tx htx
    rw [htxs] at htx
    by_cases ht : t = ev.tx
    · subst ht
      rw [update_self, some.injEq] at htx
      subst htx
      exact hkeep h.1 (h.2 ux hux).1 (h.2 ux hux).2
    · rw [update_of_ne ht] at htx
      exact h.2 tx htx
  case h_2 hnone =>
    cases ev with
    | begin u =>
      refine ⟨h.1, ?_⟩
      intro tx htx
      by_cases ht : t = u
      · subst ht
        rw [show (s.setTx t Tx.new).txs t = _ from txs_setTx_self, some.injEq] at htx
        subst htx
        exact ⟨rfl, rfl⟩
      · rw [show (s.setTx u Tx.new).txs t = _ from txs_setTx_of_ne ht] at htx
        exact h.2 tx htx
    | _ => exact h

/-- A step that takes a lock from a transaction wounds it. -/
theorem Doomed.of_victim {ev : Event K} (hvictim : t ∈ victims s ev) (hspares : SparesPassed s ev)
    (hopen : ∀ tx, s.txs t = some tx → tx.committed = none) : Doomed (Pessimistic.step s ev) t := by
  have hdoomed : ∀ tx, s.txs t = some tx → tx.passed = false ∧ tx.committed = none :=
    fun tx htx => ⟨hspares t hvictim tx htx, hopen tx htx⟩
  cases ev with
  | enter u =>
    simp only [victims] at hvictim
    split at hvictim
    case h_1 ux hux =>
      split at hvictim
      case h_1 op hplace =>
        have hne : t ≠ u := (Nat.ne_of_lt (KeyLockState.lt_of_mem_victims hvictim)).symm
        have hstep : Pessimistic.step s (.enter u) = s.enter u ux op := by
          simp only [Pessimistic.step, Event.tx, hux, act, hplace]
        rw [hstep, System.enter]
        split
        all_goals
          refine ⟨by simp [System.setTx, hvictim], ?_⟩
          intro tx htx
          rw [txs_setTx_of_ne hne] at htx
          exact hdoomed tx htx
      case h_2 => exact absurd hvictim not_mem_nil
    case h_2 => exact absurd hvictim not_mem_nil
  | _ => exact absurd hvictim not_mem_nil

end

/-! ## No lost updates -/

/-- A transaction that committed after another one replaced the row has not read the version
which that one had read. -/
theorem Inv.seen_ne (h : Inv s) {ux : Tx K} (hne : t ≠ u) (htx : s.txs t = some tx)
    (hux : s.txs u = some ux) {r r' : Read K} (hr : r ∈ tx.reads) (hr' : r' ∈ ux.reads)
    (hkey : r.key = r'.key) {p : Nat} (hpub : s.visible[p]? = some ⟨tx.version, t, r.key⟩)
    (hj : ux.committed = some j) (hp : p < j) : r.seen ≠ r'.seen := by
  have hok := h.txs t tx htx
  have hok' := h.txs u ux hux
  by_cases hsince : r'.since ≤ p
  · -- the publication would be a foreign one between the read and the commit
    exact absurd ((hok'.committed j hj).2.1 r' hr' p _ hsince hp hpub hkey) hne
  · have hle : tx.version ≤ r'.seen := (hok'.newest r' hr').2 p _ (Nat.lt_of_not_le hsince) hpub hkey
    have hlt : r.seen < tx.version := (hok.seen r hr).2 (hok.own p _ hpub rfl).1
    omega

/-- In every run that takes no lock from a transaction past the check of its mark: nobody
else's write of a row became visible between a transaction's read of the row and its commit;
a transaction that lost a lock before it committed never commits; and of two transactions
that read the same version of a row and replace it, at most one commits. -/
theorem no_lost_update [DecidableEq K] (es : List (Event K))
    (hes : Along step SparesPassed .init es) :
    (∀ t tx j, (after es).txs t = some tx → tx.committed = some j →
      ∀ r ∈ tx.reads, Untouched (after es).visible t r.key r.since j) ∧
    (∀ es₁ ev es₂ t, es = es₁ ++ ev :: es₂ → t ∈ victims (after es₁) ev →
      (∀ tx, (after es₁).txs t = some tx → tx.committed = none) →
      ∀ tx, (after es).txs t = some tx → tx.committed = none) ∧
    ∀ t u tx ux, t ≠ u → (after es).txs t = some tx → (after es).txs u = some ux →
      tx.committed.isSome → ux.committed.isSome →
      ∀ r ∈ tx.reads, ∀ r' ∈ ux.reads, r.key = r'.key → r.seen = r'.seen →
        ¬(r.key ∈ tx.staged ∧ r.key ∈ ux.staged) := by
  have hinv : Inv (after es) := along_invariant (fun s ev h hev => h.step ev hev) Inv.init hes
  refine ⟨?_, ?_, ?_⟩
  · intro t tx j htx hj
    exact ((hinv.txs t tx htx).committed j hj).2.1
  · intro es₁ ev es₂ t hsplit hvictim hopen
    subst hsplit
    have hspares := ((along_append _ _ _ _ _).1 hes).2.1
    have hdoomed : Doomed (after (es₁ ++ ev :: es₂)) t := by
      rw [after, run_append]
      exact run_invariant (I := fun s => Doomed s t) (fun s e h => h.step e)
        (Doomed.of_victim hvictim hspares hopen) es₂
    exact fun tx htx => (hdoomed.2 tx htx).2
  · intro t u tx ux hne htx hux hc hc' r hr r' hr' hkey hseen
    rintro ⟨hstaged, hstaged'⟩
    obtain ⟨j, hj⟩ := isSome_iff_exists.1 hc
    obtain ⟨j', hj'⟩ := isSome_iff_exists.1 hc'
    obtain ⟨p, hp, hpub⟩ := ((hinv.txs t tx htx).committed j hj).2.2 r.key hstaged
    obtain ⟨p', hp', hpub'⟩ := ((hinv.txs u ux hux).committed j' hj').2.2 r.key hstaged'
    -- whichever publication came first, the other commit was later
    by_cases hfirst : p < j'
    · exact hinv.seen_ne hne htx hux hr hr' hkey hpub hj' hfirst hseen
    · rw [hkey] at hpub'
      exact hinv.seen_ne hne.symm hux htx hr' hr hkey.symm hpub' hj (by omega) hseen.symm

/-- 2 reads row 0 and loses its lock to the older 1, which stages the row and commits; the
commit of 2 is refused. -/
theorem no_lost_update_wounded :
    let es₁ : List (Event Nat) :=
      [.begin 1, .begin 2, .call 2 (.read 0), .check 2, .enter 2, .finish 2, .call 1 (.write 0),
        .check 1]
    let stages : List (Event Nat) := replicate 12 (.stage 1 true)
    let ends : List (Event Nat) :=
      [.wal 1 .written, .publish 1 0, .settle 1, .commit 2, .stage 2 true, .stage 2 true,
        .stage 2 true]
    let es₂ := [.check 1, .enter 1, .finish 1, .commit 1] ++ stages ++ ends
    2 ∈ victims (after es₁) (.enter 1) ∧
      (((after (es₁ ++ .enter 1 :: es₂)).txs 1).map Tx.committed = some (some 1)) ∧
      ∀ tx, (after (es₁ ++ .enter 1 :: es₂)).txs 2 = some tx → tx.committed = none := by
  intro es₁ stages ends es₂
  refine ⟨by decide, by decide, ?_⟩
  refine (no_lost_update (es₁ ++ .enter 1 :: es₂) (by decide)).2.1 es₁ _ es₂ 2 rfl (by decide) ?_
  rintro tx ⟨⟩
  rfl

/-- A lock is taken after the check: 2 reads row 0, stages it and passes the check of its
mark; then the older 1 takes the row and reads it too.  Both have read version 0, and both
commit. -/
theorem both_commit :
    let passes : List (Event Nat) :=
      [.begin 1, .begin 2, .call 2 (.read 0), .check 2, .enter 2, .finish 2,
        .call 2 (.write 0), .check 2, .enter 2, .finish 2, .commit 2,
        .stage 2 true, .stage 2 true, .stage 2 true]
    let robbed : List (Event Nat) :=
      [.call 1 (.read 0), .check 1, .enter 1, .check 1, .enter 1, .finish 1]
    let commits : List (Event Nat) := replicate 9 (.stage 2 true)
    let publishes : List (Event Nat) := [.wal 2 .written, .publish 2 0, .settle 2,
        .call 1 (.write 0), .check 1, .enter 1, .finish 1, .commit 1]
    let commits' : List (Event Nat) := replicate 12 (.stage 1 true)
    let publishes' : List (Event Nat) := [.wal 1 .written, .publish 1 0, .settle 1]
    let s := after (passes ++ robbed ++ commits ++ publishes ++ commits' ++ publishes')
    (s.txs 1).map (fun tx => (tx.reads, tx.staged, tx.committed)) =
        some ([⟨0, 0, 0⟩], [0], some 2) ∧
      (s.txs 2).map (fun tx => (tx.reads, tx.staged, tx.committed)) =
        some ([⟨0, 0, 0⟩], [0], some 1) ∧
      s.visible = [⟨1, 2, 0⟩, ⟨2, 1, 0⟩] := by
  decide

end ShamirDb.Pessimistic
