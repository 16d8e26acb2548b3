/-
# What every access to the multi-version store keeps

The invariant of the shared state: which versions are allocated, owned, settled and
accepted by the WAL, where the rows in the log and the overlay come from, and that a
key's cell is not below a committed version of the key.  `Evolves` is what a call can
expect of the steps of the others: versions settle once, what a version was allocated
for stays, a version that is not touched keeps its owner and gets no new rows.

The accesses fall in two groups.  Most are quiet: they change nothing of this or only take
rows away.  The others have a lemma each, under what the call knows when it makes the
access.
-/
import ShamirDb.MvccReads

namespace ShamirDb.Mvcc

open Threads Nat Function Option

variable {K : Type}

/-! ## The invariant -/

/-- Version `v` has committed a row of `k`. -/
def Committed (s : Store K) (k : K) (v : Nat) : Prop :=
  s.completion.outcome v = some .materialized ∧ ∃ x, (k, x) ∈ s.writes v

/-- What holds in every reachable state. -/
structure Inv (s : Store K) : Prop where
  unused : ∀ v, v = 0 ∨ s.counter < v → s.completion.outcome v = none ∧ s.owner v = none ∧
    s.wal v = none ∧ ∀ k, s.history k v = none ∧ s.overlay k v = none
  settled : ∀ v, 0 < v → v ≤ s.completion.watermark → s.completion.outcome v ≠ none
  historyRow : ∀ k v x, s.history k v = some x →
    (k, x) ∈ s.writes v ∧ s.completion.outcome v ≠ some .aborted
  overlayRow : ∀ k v x, s.overlay k v = some x →
    (k, x) ∈ s.writes v ∧ s.completion.outcome v ≠ some .aborted
  nodup : ∀ v, ((s.writes v).map Prod.fst).Nodup
  owned : ∀ v i, s.owner v = some i → s.completion.outcome v = none
  accepted : ∀ v r, s.wal v = some r → r.ops = s.writes v ∧
    s.completion.outcome v ≠ some .aborted ∧ (r.status ≠ .active → s.owner v = none)
  cell : ∀ k v, Committed s k v →
    v ≤ s.currentVersion k ∨ (s.currentVersion k = 0 ∧ v ≤ s.completion.watermark)

/-- A step after which a version that is not `touched` is as it was, and in which only the
threads in `granted` can come to own a version. -/
structure Evolves (granted touched : Nat → Prop) (s s' : Store K) : Prop where
  counter : s.counter ≤ s'.counter
  watermark : s.completion.watermark ≤ s'.completion.watermark
  outcome : ∀ v o, s.completion.outcome v = some o → s'.completion.outcome v = some o
  writes : ∀ v, v ≤ s.counter → s'.writes v = s.writes v
  unowned : ∀ v, v ≤ s.counter → s.owner v = none → s'.owner v = none
  owner : ∀ v i, s'.owner v = some i → s.owner v = some i ∨ granted i
  accepted : ∀ v r, s.wal v = some r → r.status ≠ .active →
    ∃ r', s'.wal v = some r' ∧ r'.ops = r.ops ∧ r'.status ≠ .active
  cell : ∀ k v, v ≤ s.currentVersion k →
    v ≤ s'.currentVersion k ∨ s'.completion.outcome v ≠ none
  spared : ∀ v, v ≤ s.counter → ¬ touched v → s'.owner v = s.owner v ∧
    s'.completion.outcome v = s.completion.outcome v ∧ s'.wal v = s.wal v ∧
    (∀ k, s.history k v = none → s'.history k v = none) ∧
    ∀ k, s.overlay k v = none → s'.overlay k v = none

/-- What call `i` expects of the steps of the others: its own versions are spared. -/
abbrev Rely (i : Nat) (s s' : Store K) : Prop :=
  Evolves (· ≠ i) (fun v => s.owner v ≠ some i) s s'

variable {granted touched : Nat → Prop} {s s' t u : Store K} {i : Nat}

/-- A store evolves to itself. -/
theorem Evolves.refl (granted touched : Nat → Prop) (s : Store K) : Evolves granted touched s s where
  counter := le_rfl
  watermark := le_rfl
  outcome := fun _ _ h => h
  writes := fun _ _ => rfl
  unowned := fun _ _ h => h
  owner := fun _ _ => .inl
  accepted := fun _ r h hr => ⟨r, h, rfl, hr⟩
  cell := fun _ _ => .inl
  spared := fun _ _ _ => ⟨rfl, rfl, rfl, fun _ => id, fun _ => id⟩

/-- Two steps in a row. -/
theorem Evolves.trans {touched' : Nat → Prop} (h : Evolves granted touched s t)
    (h' : Evolves granted touched' t u) (htouched : ∀ v, v ≤ s.counter → ¬ touched v → ¬ touched' v) :
    Evolves granted touched s u where
  counter := le_trans h.counter h'.counter
  watermark := le_trans h.watermark h'.watermark
  outcome := fun v o ho => h'.outcome v o (h.outcome v o ho)
  writes := fun v hv => (h'.writes v (le_trans hv h.counter)).trans (h.writes v hv)
  unowned := fun v hv hnone => h'.unowned v (le_trans hv h.counter) (h.unowned v hv hnone)
  owner := fun v i hi => by
    rcases h'.owner v i hi with hold | hg
    · exact h.owner v i hold
    · exact .inr hg
  accepted := fun v r hr hstatus => by
    obtain ⟨r', hr', hops, hstatus'⟩ := h.accepted v r hr hstatus
    obtain ⟨r'', hr'', hops', hstatus''⟩ := h'.accepted v r' hr' hstatus'
    exact ⟨r'', hr'', hops'.trans hops, hstatus''⟩
  cell := fun k v hv => by
    rcases h.cell k v hv with hle | hsettled
    · exact h'.cell k v hle
    · obtain ⟨o, ho⟩ := ne_none_iff_exists'.1 hsettled
      exact .inr (by rw [h'.outcome v o ho]; simp)
  spared := fun v hv hn => by
    obtain ⟨howner, houtcome, hwal, hhistory, hoverlay⟩ := h.spared v hv hn
    obtain ⟨howner', houtcome', hwal', hhistory', hoverlay'⟩ :=
      h'.spared v (le_trans hv h.counter) (htouched v hv hn)
    exact ⟨howner'.trans howner, houtcome'.trans houtcome, hwal'.trans hwal,
      fun k hk => hhistory' k (hhistory k hk), fun k hk => hoverlay' k (hoverlay k hk)⟩

/-- The steps of the others compose. -/
theorem Rely.trans (h : Rely i s t) (h' : Rely i t u) : Rely i s u := by
  refine Evolves.trans h h' fun v hv hn ht => ht ?_
  rw [(h.spared v hv hn).1]
  exact not_not.1 hn

/-- The others see a step that touches no version of theirs. -/
theorem Evolves.rely (h : Evolves (· = i) touched s s') {j : Nat} (hj : j ≠ i)
    (htouched : ∀ v, touched v → s.owner v ≠ some j) : Rely j s s' where
  counter := h.counter
  watermark := h.watermark
  outcome := h.outcome
  writes := h.writes
  unowned := h.unowned
  owner := fun v i' hi' => by
    rcases h.owner v i' hi' with hold | rfl
    · exact .inl hold
    · exact .inr (fun heq => hj heq.symm)
  accepted := h.accepted
  cell := h.cell
  spared := fun v hv hn => h.spared v hv fun ht => hn (htouched v ht)

/-- A step that keeps the invariant. -/
structure Steps (granted touched : Nat → Prop) (s s' : Store K) : Prop where
  inv : Inv s'
  evolves : Evolves granted touched s s'

/-! ## Quiet accesses -/

/-- Nothing the invariant speaks of changes, except that rows go away and the watermark
moves over settled versions. -/
structure Quiet (s s' : Store K) : Prop where
  counter : s'.counter = s.counter
  outcome : s'.completion.outcome = s.completion.outcome
  watermark : s.completion.watermark ≤ s'.completion.watermark
  settled : ∀ v, s.completion.watermark < v → v ≤ s'.completion.watermark →
    s.completion.outcome v ≠ none
  writes : s'.writes = s.writes
  owner : s'.owner = s.owner
  wal : s'.wal = s.wal
  history : ∀ k v, s'.history k v = none ∨ s'.history k v = s.history k v
  overlay : ∀ k v, s'.overlay k v = none ∨ s'.overlay k v = s.overlay k v
  currentVersion : ∀ k, s'.currentVersion k = s.currentVersion k

/-- Nothing happens. -/
theorem Quiet.refl (s : Store K) : Quiet s s where
  counter := rfl
  outcome := rfl
  watermark := le_rfl
  settled := fun _ hlt hle => absurd hle (not_le.2 hlt)
  writes := rfl
  owner := rfl
  wal := rfl
  history := fun _ _ => .inr rfl
  overlay := fun _ _ => .inr rfl
  currentVersion := fun _ => rfl

/-- A quiet step commits nothing. -/
theorem Quiet.committed (q : Quiet s s') (k : K) (v : Nat) : Committed s' k v ↔ Committed s k v := by
  rw [Committed, Committed, q.outcome, q.writes]

/-- A quiet step keeps the invariant. -/
theorem Quiet.inv (q : Quiet s s') (h : Inv s) : Inv s' where
  unused := fun v hv => by
    rw [q.counter] at hv
    obtain ⟨houtcome, howner, hwal, hrows⟩ := h.unused v hv
    refine ⟨by rwa [q.outcome], by rwa [q.owner], by rwa [q.wal], fun k => ⟨?_, ?_⟩⟩
    · exact (q.history k v).elim id fun heq => heq.trans (hrows k).1
    · exact (q.overlay k v).elim id fun heq => heq.trans (hrows k).2
  settled := fun v hv hle => by
    rw [q.outcome]
    rcases lt_or_ge s.completion.watermark v with hlt | hge
    · exact q.settled v hlt hle
    · exact h.settled v hv hge
  historyRow := fun k v x hx => by
    rw [q.writes, q.outcome]
    rcases q.history k v with hnone | heq
    · exact absurd (hnone.symm.trans hx) (by simp)
    · exact h.historyRow k v x (heq.symm.trans hx)
  overlayRow := fun k v x hx => by
    rw [q.writes, q.outcome]
    rcases q.overlay k v with hnone | heq
    · exact absurd (hnone.symm.trans hx) (by simp)
    · exact h.overlayRow k v x (heq.symm.trans hx)
  nodup := by rw [q.writes]; exact h.nodup
  owned := by rw [q.owner, q.outcome]; exact h.owned
  accepted := by rw [q.wal, q.writes, q.outcome, q.owner]; exact h.accepted
  cell := fun k v hv => by
    rw [q.currentVersion]
    refine (h.cell k v ((q.committed k v).1 hv)).imp_right fun hcell => ?_
    exact ⟨hcell.1, le_trans hcell.2 q.watermark⟩

/-- A quiet step is allowed to everybody. -/
theorem Quiet.evolves (q : Quiet s s') : Evolves granted touched s s' where
  counter := le_of_eq q.counter.symm
  watermark := q.watermark
  outcome := fun v o ho => by rwa [q.outcome]
  writes := fun v _ => by rw [q.writes]
  unowned := fun v _ hv => by rwa [q.owner]
  owner := fun v i hi => by rw [q.owner] at hi; exact .inl hi
  accepted := fun v r hr hstatus => ⟨r, by rwa [q.wal], rfl, hstatus⟩
  cell := fun k v hv => by rw [q.currentVersion]; exact .inl hv
  spared := fun v _ _ => by
    refine ⟨by rw [q.owner], by rw [q.outcome], by rw [q.wal], fun k hk => ?_, fun k hk => ?_⟩
    · exact (q.history k v).elim id fun heq => heq.trans hk
    · exact (q.overlay k v).elim id fun heq => heq.trans hk

/-- The accesses that are quiet in every state. -/
def Access.IsQuiet : Access K → Prop
  | .assignNextVersion _ | .mark _ _ | .publishCell _ _ | .seedCell _ _
  | .finalizeReservation _ _ | .evictCell _ _ | .logRows _ _ | .drainRows _
  | .overlayInsert _ _ _ | .walAppend _ _ | .orphan _ | .deactivate _ | .completeOrphan _
  | .forgetOrphan _ => False
  | _ => True

/-- A read is quiet. -/
theorem Access.IsRead.isQuiet {a : Access K} (h : a.IsRead) : a.IsQuiet := by
  cases a <;> trivial

section

variable [DecidableEq K]

/-- The version of a cell after one was replaced. -/
theorem Store.currentVersion_update (s : Store K) (k k' : K) (c : Option Cell) :
    { s with cells := update s.cells k c }.currentVersion k' =
      if k' = k then (c.map Cell.version).getD 0 else s.currentVersion k' := by
  by_cases hk : k' = k
  · subst hk
    cases c <;> simp [Store.currentVersion]
  · simp [Store.currentVersion, hk]

variable {v : Nat} {k : K} {c : Cell}

/-- A cell that keeps its version. -/
theorem Quiet.cell (s : Store K) (hc : c.version = s.currentVersion k) :
    Quiet s { s with cells := update s.cells k (some c) } :=
  { Quiet.refl s with
    currentVersion := fun k' => by
      rw [Store.currentVersion_update]
      split
      · simp [*]
      · rfl }

/-- Rows go away. -/
theorem Quiet.clear (s : Store K) (rows : List (K × Nat)) (stamps : Nat → Option Nat) :
    Quiet s { s with history := s.history.clearAll rows, stamps } :=
  { Quiet.refl s with
    history := fun k v => (s.history.clearAll_eq rows k v).imp And.right And.right }

/-- A quiet access makes a quiet step. -/
theorem serve_quiet {a : Access K} (ha : a.IsQuiet) (i : Nat) (e : Env) (s : Store K) :
    Quiet s (serve i e s a).1 := by
  cases a with
  | assignNextVersion | mark | publishCell | seedCell | finalizeReservation | evictCell | logRows
  | drainRows | overlayInsert | walAppend | orphan | deactivate | completeOrphan | forgetOrphan =>
    exact ha.elim
  | advance =>
    exact { Quiet.refl s with
      outcome := s.completion.advanceBy_outcome e.rounds
      watermark := s.completion.watermark_le_advanceBy e.rounds
      settled := fun _ => s.completion.advanceBy_settled e.rounds }
  | tryReserve k snapshot txn =>
    dsimp only [serve]
    split
    · rename_i c hc
      refine Quiet.cell s ?_
      unfold Cell.reserve at hc
      unfold Store.currentVersion
      split at hc
      · split at hc
        · cases hc
          simp [*]
        · cases hc
      · cases hc
        simp [*]
    · exact Quiet.refl s
  | releaseReservation k txn =>
    dsimp only [serve]
    split
    · split
      · exact Quiet.cell s (by simp [Store.currentVersion, *])
      · exact Quiet.refl s
    · exact Quiet.refl s
  | swapVacuumAnchor k anchor =>
    dsimp only [serve]
    split
    · exact Quiet.cell s (by simp [Store.currentVersion, *])
    · exact Quiet.refl s
  | unlogRows slots | reclaimRows rows =>
    rcases hio : e.io with _ | _ | _ <;> simp only [serve, hio]
    · exact Quiet.clear s _ _
    · exact Quiet.refl s
    · exact Quiet.clear s _ _
  | overlayRemove k v =>
    exact { Quiet.refl s with
      overlay := fun k' v' => s.overlay.set_none_eq k v k' v' }
  | overlayExpire k v d =>
    dsimp only [serve]
    split
    · exact { Quiet.refl s with
        overlay := fun k' v' => s.overlay.set_none_eq k v k' v' }
    · exact Quiet.refl s
  | setRetention r =>
    dsimp only [serve]
    split
    · exact { Quiet.refl s with }
    · exact Quiet.refl s
  | _ => exact { Quiet.refl s with }

/-! ## Versions -/

section

omit [DecidableEq K]

/-- An unsettled version is above the watermark. -/
theorem Inv.watermark_lt (h : Inv s) (hv : 0 < v) (hnone : s.completion.outcome v = none) :
    s.completion.watermark < v := by
  by_contra hle
  exact h.settled v hv (not_lt.1 hle) hnone

/-- A version with an owner has been assigned. -/
theorem Inv.owned_used (h : Inv s) (hv : s.owner v = some i) : ¬ (v = 0 ∨ s.counter < v) :=
  fun hunused => absurd (hv.symm.trans (h.unused v hunused).2.1) (by simp)

/-- An owned version is allocated. -/
theorem Inv.owned_pos (h : Inv s) (hv : s.owner v = some i) : 0 < v ∧ v ≤ s.counter := by
  have hused := h.owned_used hv
  omega

/-- What the state holds of one version. -/
structure VersionView (K : Type) where
  outcome : Option Outcome
  owner : Option Nat
  wal : Option (WalRecord K)
  writes : List (K × Bytes)
  history : K → Option Bytes
  overlay : K → Option Bytes

def Store.view (s : Store K) (v : Nat) : VersionView K :=
  ⟨s.completion.outcome v, s.owner v, s.wal v, s.writes v, (s.history · v), (s.overlay · v)⟩

/-- The invariant of one version. -/
structure VersionOk (unused : Prop) (x : VersionView K) : Prop where
  blank : unused → x.outcome = none ∧ x.owner = none ∧ x.wal = none ∧
    ∀ k, x.history k = none ∧ x.overlay k = none
  rows : ∀ k y, x.history k = some y ∨ x.overlay k = some y →
    (k, y) ∈ x.writes ∧ x.outcome ≠ some .aborted
  nodup : (x.writes.map Prod.fst).Nodup
  owned : ∀ i, x.owner = some i → x.outcome = none
  accepted : ∀ r, x.wal = some r → r.ops = x.writes ∧ x.outcome ≠ some .aborted ∧
    (r.status ≠ .active → x.owner = none)

/-- What the invariant says about one version. -/
theorem Inv.version (h : Inv s) (v : Nat) : VersionOk (v = 0 ∨ s.counter < v) (s.view v) :=
  ⟨h.unused v, fun k y => (Or.elim · (h.historyRow k v y) (h.overlayRow k v y)), h.nodup v,
    h.owned v, h.accepted v⟩

/-- A step that touches one version. -/
theorem Inv.replace (h : Inv s) (hother : ∀ w, w ≠ v → s'.view w = s.view w)
    (hcounter : s.counter ≤ s'.counter) (hok : VersionOk (v = 0 ∨ s'.counter < v) (s'.view v))
    (hsettled : ∀ w, 0 < w → w ≤ s'.completion.watermark → s'.completion.outcome w ≠ none)
    (hcell : ∀ k w, Committed s' k w → w ≤ s'.currentVersion k ∨
      (s'.currentVersion k = 0 ∧ w ≤ s'.completion.watermark)) : Inv s' := by
  have hall : ∀ w, VersionOk (w = 0 ∨ s'.counter < w) (s'.view w) := by
    intro w
    by_cases hw : w = v
    · exact hw ▸ hok
    · rw [hother w hw]
      have hold := h.version w
      exact { hold with blank := fun hunused => hold.blank (by omega) }
  exact ⟨fun w => (hall w).blank, hsettled, fun k w y hy => (hall w).rows k y (.inl hy),
    fun k w y hy => (hall w).rows k y (.inr hy), fun w => (hall w).nodup, fun w => (hall w).owned,
    fun w => (hall w).accepted, hcell⟩

/-- A version is assigned. -/
theorem Inv.assign (h : Inv s) {rows : List (K × Bytes)} (hrows : (rows.map Prod.fst).Nodup) :
    Steps (· = i) (fun _ => False) s { s with
      counter := s.counter + 1
      writes := update s.writes (s.counter + 1) rows
      owner := update s.owner (s.counter + 1) (some i) } := by
  obtain ⟨houtcome, -, hwal, hnorows⟩ := h.unused (s.counter + 1) (.inr (lt_succ_self _))
  have howner : ∀ v, v ≠ s.counter + 1 →
      update s.owner (s.counter + 1) (some i) v = s.owner v := fun v hv => by simp [hv]
  have hwrites : ∀ v, v ≠ s.counter + 1 →
      update s.writes (s.counter + 1) rows v = s.writes v := fun v hv => by simp [hv]
  refine ⟨h.replace (v := s.counter + 1) (fun w hw => ?_) (le_succ _) ⟨?_, ?_, ?_, ?_, ?_⟩ h.settled ?_,
    { Evolves.refl (· = i) (fun _ => False) s with
    counter := le_succ _, writes := fun v hv => hwrites v (by omega),
    unowned := fun v hv hnone => (howner v (by omega)).trans hnone, owner := fun v j hv => ?_,
    spared := fun v hv _ => ⟨howner v (by omega), rfl, rfl, fun _ => id, fun _ => id⟩ }⟩
  · simp [Store.view, hw]
  · exact fun hunused => absurd hunused (by simp)
  · intro k y hy
    simp [Store.view, hnorows k] at hy
  · simpa [Store.view] using hrows
  · exact fun _ _ => houtcome
  · intro r hr
    simp [Store.view, hwal] at hr
  · rintro k v ⟨ho, x, hx⟩
    have hne : v ≠ s.counter + 1 := by
      rintro rfl
      exact absurd (ho.symm.trans houtcome) (by simp)
    refine h.cell k v ⟨ho, x, ?_⟩
    rw [← hwrites v hne]
    exact hx
  · by_cases hne : v = s.counter + 1
    · subst hne
      exact .inr (by simpa using hv.symm)
    · exact .inl ((howner v hne).symm.trans hv)

variable {owner : Nat → Option Nat}

theorem update_none_of_none {w : Nat} (h : owner w = none) : update owner v none w = none := by
  rw [update_apply]
  split
  · rfl
  · exact h

theorem of_update_none {w j : Nat} (h : update owner v none w = some j) : owner w = some j := by
  rw [update_apply] at h
  split at h
  · cases h
  · exact h

/-- The settlement of a version: committed once the cells of its keys have reached
it, aborted once it has no rows and no WAL entry. -/
theorem Inv.mark (h : Inv s) {o : Outcome} (hused : 0 < v ∧ v ≤ s.counter)
    (hnone : s.completion.outcome v = none)
    (hcommit : o = .materialized → ∀ k x, (k, x) ∈ s.writes v → v ≤ s.currentVersion k)
    (habort : o = .aborted → s.wal v = none ∧ ∀ k, s.history k v = none ∧ s.overlay k v = none) :
    Steps (· = i) (· = v) s
      { s with completion := s.completion.mark v o, owner := update s.owner v none } := by
  have houtcome : ∀ w, w ≠ v → (s.completion.mark v o).outcome w = s.completion.outcome w :=
    fun w hw => s.completion.mark_outcome_of_ne o hw
  have hself : (s.completion.mark v o).outcome v = some o := s.completion.mark_outcome_self o hnone
  have howner : ∀ w, w ≠ v → update s.owner v none w = s.owner w := fun w hw => by simp [hw]
  have hold := h.version v
  refine ⟨h.replace (fun w hw => ?_) le_rfl ⟨?_, fun k y hy => ?_, hold.nodup, ?_, fun r hr => ?_⟩
    (fun w hw hle => ?_) ?_, { Evolves.refl (· = i) (· = v) s with
    watermark := le_of_eq (s.completion.mark_watermark v o).symm,
    outcome := fun w o' ho => s.completion.mark_outcome_some ho,
    unowned := fun w _ hw => update_none_of_none hw, owner := fun w j hw => .inl (of_update_none hw),
    cell := fun _ _ => .inl,
    spared := fun w _ hw => ⟨howner w hw, houtcome w hw, rfl, fun _ => id, fun _ => id⟩ }⟩
  · simp [Store.view, houtcome w hw, hw]
  · exact fun hunused => absurd hunused (not_or.2 ⟨hused.1.ne', not_lt.2 hused.2⟩)
  · refine ⟨(hold.rows k y hy).1, ?_⟩
    show (s.completion.mark v o).outcome v ≠ _
    rw [hself]
    rintro ⟨⟩
    obtain ⟨hhistory, hoverlay⟩ := (habort rfl).2 k
    simp [Store.view, hhistory, hoverlay] at hy
  · intro j hj
    simp [Store.view] at hj
  · refine ⟨(hold.accepted r hr).1, ?_, fun _ => by simp [Store.view]⟩
    show (s.completion.mark v o).outcome v ≠ _
    rw [hself]
    rintro ⟨⟩
    exact absurd (hr.symm.trans (habort rfl).1) (by simp)
  · rw [s.completion.mark_watermark] at hle
    obtain ⟨o', ho'⟩ := ne_none_iff_exists'.1 (h.settled w hw hle)
    rw [s.completion.mark_outcome_some ho']
    simp
  · rintro k w ⟨ho, x, hx⟩
    by_cases hwv : w = v
    · subst hwv
      rw [hself, some.injEq] at ho
      exact .inl (hcommit ho k x hx)
    · rw [s.completion.mark_watermark]
      exact h.cell k w ⟨(houtcome w hwv).symm.trans ho, x, hx⟩

end

/-! ## Cells -/

/-- The cell of `k` is raised to `v`. -/
theorem Inv.raiseCell (h : Inv s) (hc : c.version = max (s.currentVersion k) v)
    (hnewest : s.currentVersion k = 0 → ∀ w, Committed s k w → w ≤ v) :
    Steps granted touched s { s with cells := update s.cells k (some c) } := by
  have hcell : ∀ k', { s with cells := update s.cells k (some c) }.currentVersion k' =
      if k' = k then max (s.currentVersion k) v else s.currentVersion k' := by
    intro k'
    rw [Store.currentVersion_update, ← hc]
    rfl
  refine ⟨{ h with cell := fun k' w hw => ?_ }, { Evolves.refl granted touched s with
    cell := fun k' w hw => ?_ }⟩
  · have hw' : Committed s k' w := hw
    rw [hcell]
    by_cases hk : k' = k
    · subst hk
      rw [if_pos rfl]
      rcases h.cell k' w hw' with hle | ⟨hzero, -⟩
      · omega
      · exact .inl (le_trans (hnewest hzero w hw') (le_max_right _ _))
    · rw [if_neg hk]
      exact h.cell k' w hw'
  · rw [hcell]
    refine .inl ?_
    split
    · subst k'
      omega
    · exact hw

section

omit [DecidableEq K]

/-- A published cell is at the larger version. -/
theorem Cell.publish_version (s : Store K) (k : K) (v : Nat) :
    (Cell.publish v (s.cells k)).version = max (s.currentVersion k) v := by
  unfold Cell.publish Store.currentVersion
  split <;> simp

/-- So is a finalized one. -/
theorem Cell.finalize_version (s : Store K) (k : K) (v : Nat) :
    (Cell.finalize v (s.cells k)).version = max (s.currentVersion k) v := by
  unfold Cell.finalize Store.currentVersion
  split <;> simp

/-- Without a cell no committed version is above one in flight. -/
theorem Inv.committed_le (h : Inv s) {v w : Nat} (hpos : 0 < v)
    (hnone : s.completion.outcome v = none) (hzero : s.currentVersion k = 0)
    (hw : Committed s k w) : w ≤ v := by
  have hlt := h.watermark_lt hpos hnone
  rcases h.cell k w hw with hle | ⟨-, hle⟩ <;> omega

end

/-- A settled cell is evicted. -/
theorem Inv.evictCell (h : Inv s) (hc : s.cells k = some c)
    (hbelow : c.version ≤ s.completion.watermark) :
    Steps granted touched s { s with cells := update s.cells k none } := by
  have hcur : s.currentVersion k = c.version := by simp [Store.currentVersion, hc]
  have hcell : ∀ k', { s with cells := update s.cells k none }.currentVersion k' =
      if k' = k then 0 else s.currentVersion k' := fun k' => Store.currentVersion_update s k k' none
  refine ⟨{ h with cell := fun k' w hw => ?_ }, { Evolves.refl granted touched s with
    cell := fun k' w hw => ?_ }⟩
  · have hw' : Committed s k' w := hw
    rw [hcell]
    split
    · subst k'
      refine .inr ⟨rfl, ?_⟩
      rcases h.cell k w hw' with hle | ⟨-, hle⟩
      · exact le_trans (hcur ▸ hle) hbelow
      · exact hle
    · exact h.cell k' w hw'
  · rw [hcell]
    split
    · subst k'
      rcases Nat.eq_zero_or_pos w with rfl | hpos
      · omega
      · exact .inr (h.settled w hpos (le_trans (hcur ▸ hw) hbelow))
    · exact .inl hw

/-! ## Rows -/

omit [DecidableEq K] in
/-- Rows are logged, or go. -/
theorem Inv.log (h : Inv s) {history : VersionedRows K Bytes} {stamps : Nat → Option Nat}
    (hrows : ∀ k v, history k v = s.history k v ∨ ∃ x, history k v = some x ∧
      (k, x) ∈ s.writes v ∧ s.completion.outcome v ≠ some .aborted ∧ touched v ∧
        0 < v ∧ v ≤ s.counter) :
    Steps granted touched s { s with history, stamps } := by
  refine ⟨{ h with unused := fun v hv => ?_, historyRow := fun k v x hx => ?_ },
    { Evolves.refl granted touched s with
      spared := fun v _ hv => ⟨rfl, rfl, rfl, fun k hk => ?_, fun _ => id⟩ }⟩
  · obtain ⟨houtcome, howner, hwal, hnorows⟩ := h.unused v hv
    refine ⟨houtcome, howner, hwal, fun k => ⟨?_, (hnorows k).2⟩⟩
    rcases hrows k v with hold | ⟨x, -, -, -, -, hpos, hle⟩
    · exact hold.trans (hnorows k).1
    · change v = 0 ∨ s.counter < v at hv
      omega
  · rcases hrows k v with hold | ⟨y, hy, hmem, hne, -⟩
    · exact h.historyRow k v x (hold.symm.trans hx)
    · obtain rfl : y = x := some.inj (hy.symm.trans hx)
      exact ⟨hmem, hne⟩
  · rcases hrows k v with hold | ⟨x, -, -, -, htouched, -⟩
    · exact hold.trans hk
    · exact absurd htouched hv

/-- A row of an owned version enters the overlay. -/
theorem Inv.overlayInsert (h : Inv s) {x : Bytes} (hv : s.owner v = some i)
    (hx : (k, x) ∈ s.writes v) :
    Steps granted (· = v) s
      { s with overlay := s.overlay.set k v (some ((s.overlay k v).getD x)) } := by
  have hold := h.version v
  refine ⟨h.replace (fun w hw => ?_) le_rfl
    { hold with blank := fun hunused => absurd hunused (h.owned_used hv), rows := fun k' y hy => ?_ }
    h.settled h.cell, { Evolves.refl granted (· = v) s with
      spared := fun w _ hw => ⟨rfl, rfl, rfl, fun _ => id, fun k' hk => ?_⟩ }⟩
  · simp [Store.view, s.overlay.set_of_ne _ hw]
  · rcases hy with hy | hy
    · exact hold.rows k' y (.inl hy)
    rcases s.overlay.set_eq k v (some ((s.overlay k v).getD x)) k' v with ⟨rfl, -, heq⟩ | heq
    · have hget := some.inj (heq.symm.trans hy)
      cases hrow : s.overlay k' v with
      | some z => exact hold.rows k' y (.inr (by rw [← hget, hrow]; exact hrow))
      | none =>
        rw [hrow] at hget
        exact ⟨hget ▸ hx, by simp [Store.view, h.owned v i hv]⟩
    · exact hold.rows k' y (.inr (heq.symm.trans hy))
  · exact (s.overlay.set_of_ne _ hw).trans hk

/-! ## The write-ahead log -/

omit [DecidableEq K] in
/-- The WAL accepts the rows of an owned version. -/
theorem Inv.walAppend (h : Inv s) (hv : s.owner v = some i) :
    Steps granted (· = v) s { s with wal := update s.wal v (some ⟨s.writes v, .active⟩) } := by
  have hwal : ∀ w, w ≠ v →
      update s.wal v (some ⟨s.writes v, .active⟩) w = s.wal w := fun w hw => by simp [hw]
  refine ⟨h.replace (fun w hw => by simp [Store.view, hw]) le_rfl { h.version v with
      blank := fun hunused => absurd hunused (h.owned_used hv), accepted := fun r hr => ?_ }
    h.settled h.cell, { Evolves.refl granted (· = v) s with
      accepted := fun w r hr hstatus => ?_
      spared := fun w _ hw => ⟨rfl, rfl, hwal w hw, fun _ => id, fun _ => id⟩ }⟩
  · obtain rfl : r = ⟨s.writes v, .active⟩ := by simpa [Store.view] using hr.symm
    exact ⟨rfl, by simp [Store.view, h.owned v i hv], fun hactive => absurd rfl hactive⟩
  · have hne : w ≠ v := by
      rintro rfl
      exact absurd (hv.symm.trans ((h.accepted w r hr).2.2 hstatus)) (by simp)
    exact ⟨r, (hwal w hne).trans hr, rfl, hstatus⟩

omit [DecidableEq K] in
/-- A WAL entry leaves the active state, and its version has no owner any more. -/
theorem Inv.setStatus (h : Inv s) {status : WalStatus} (hstatus : status ≠ .active) :
    Steps granted (· = v) s { s with
      wal := update s.wal v ((s.wal v).map fun r => { r with status })
      owner := update s.owner v none } := by
  have hwal : ∀ w, w ≠ v → update s.wal v
      ((s.wal v).map fun r => { r with status }) w = s.wal w := fun w hw => by simp [hw]
  have howner : ∀ w, w ≠ v → update s.owner v none w = s.owner w := fun w hw => by simp [hw]
  have hold := h.version v
  refine ⟨h.replace (fun w hw => by simp [Store.view, hw]) le_rfl { hold with
      blank := fun hunused => ?_, owned := fun j hj => hold.owned j (of_update_none hj)
      accepted := fun r hr => ?_ }
    h.settled h.cell, { Evolves.refl granted (· = v) s with
    unowned := fun w _ hw => update_none_of_none hw, owner := fun w j hw => .inl (of_update_none hw),
    accepted := fun w r hr hr' => ?_,
    spared := fun w _ hw => ⟨howner w hw, rfl, hwal w hw, fun _ => id, fun _ => id⟩ }⟩
  · obtain ⟨houtcome, -, hnone, hnorows⟩ := hold.blank hunused
    exact ⟨houtcome, by simp [Store.view], by simp [Store.view, show s.wal v = none from hnone], hnorows⟩
  · obtain ⟨r', hr', rfl⟩ := map_eq_some_iff.1 ((update_self v _ s.wal).symm.trans hr)
    obtain ⟨hops, houtcome, -⟩ := hold.accepted r' hr'
    exact ⟨hops, houtcome, fun _ => by simp [Store.view]⟩
  · by_cases hne : w = v
    · subst hne
      exact ⟨{ r with status }, by simp [hr], rfl, hstatus⟩
    · exact ⟨r, (hwal w hne).trans hr, rfl, hr'⟩

end

end ShamirDb.Mvcc
