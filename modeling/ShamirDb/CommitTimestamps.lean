/-
# Commit timestamps and the rows they belong to

A transaction has one version for all its rows, and the log one timestamp row for that
version; the timestamp index points back from the time to the version.  Reclaiming works
row by row: with each row it removes, `flush_history_reclaims` removes the timestamp row
of the version and its index entry.  A row of the same version under another key, which
stays, is then left without its timestamp.

This file runs the calls of the store one after the other and shows that a recorded
timestamp stays with its rows as long as every flush takes all rows of the versions it
removes.  Two facts carry the proof.  Rows of a version reach the log in the call that
allocated it, or in a drain pass over versions that are neither durable nor indexed yet;
and a drain pass makes what it has indexed durable before it returns.
-/
import ShamirDb.MvccReads
import Mathlib.Data.Fintype.Basic

namespace ShamirDb.Mvcc

open Threads Discipline List Nat Holds Function Machine

variable {K : Type}

/-! ## Statement -/

/-- Some key has a row at version `v` in the log. -/
def HasRow (s : Store K) (v : Nat) : Prop := ∃ k, s.history k v ≠ none

/-- The timestamp row of version `v` says `ts`, and the index has the version under it. -/
def Recorded (s : Store K) (v ts : Nat) : Prop := s.stamps v = some ts ∧ s.tsIndex ts v = true

instance (s : Store K) (v ts : Nat) : Decidable (Recorded s v ts) :=
  inferInstanceAs (Decidable (_ ∧ _))

/-- A flush of reclaimed rows takes every row the log has at one of their versions. -/
def WholeVersions : Access K → Store K → Prop
  | .reclaimRows rows, s => ∀ row ∈ rows, ∀ k, s.history k row.2 ≠ none → (k, row.2) ∈ rows
  | _, _ => True

instance [Fintype K] [DecidableEq K] (a : Access K) (s : Store K) :
    Decidable (WholeVersions a s) := by
  cases a with
  | reclaimRows rows =>
    exact inferInstanceAs
      (Decidable (∀ row ∈ rows, ∀ k, s.history k row.2 ≠ none → (k, row.2) ∈ rows))
  | _ => exact .isTrue trivial

variable [DecidableEq K]

/-- A call run from its start to its end, with what the environment contributes to its
accesses. -/
def callAlone (s : Store K) (c : Op K × (Nat → Env)) : Store K :=
  ((program c.1).exec (serve 0) c.2 s).2.2

/-- Every flush of the call takes whole versions. -/
def FlushesWholeVersions (s : Store K) (c : Op K × (Nat → Env)) : Prop :=
  (program c.1).ExecMeets (serve 0) WholeVersions c.2 s

instance [Fintype K] (s : Store K) (c : Op K × (Nat → Env)) :
    Decidable (FlushesWholeVersions s c) :=
  inferInstanceAs (Decidable (Prog.ExecMeets (serve 0) WholeVersions _ _ _))

/-! ## What holds between the calls -/

/-- The timestamp `ts` of version `v` cannot get lost: it is there as long as a row is, and
no row of `v` will reach the log any more. -/
structure Kept (s : Store K) (v ts : Nat) : Prop where
  recorded : HasRow s v → Recorded s v ts
  allocated : v ≤ s.counter
  durable : s.wal v = none ∨ v ≤ s.durable.watermark

/-- What the calls keep.  `tracked` are the timestamps that must not get lost.  An indexed
version is durable, unless it is no transaction's or among the `pending` versions of a
drain pass. -/
structure IndexOk (tracked : Nat → Nat → Prop) (pending : List Nat) (s : Store K) : Prop where
  kept : ∀ v ts, tracked v ts → Kept s v ts
  unused : ∀ v, s.counter < v → s.wal v = none ∧ ∀ ts, s.tsIndex ts v = false
  indexed : ∀ ts v, s.tsIndex ts v = true →
    s.wal v = none ∨ v ≤ s.durable.watermark ∨ v ∈ pending

variable {tracked : Nat → Nat → Prop} {pending : List Nat} {s t : Store K}

omit [DecidableEq K] in
/-- A timestamp is kept by steps that keep the row's. -/
theorem Kept.mono {v ts : Nat} (h : Kept s v ts)
    (hrows : HasRow t v → HasRow s v ∧ (Recorded s v ts → Recorded t v ts))
    (hcounter : s.counter ≤ t.counter) (hwal : s.wal v = none → t.wal v = none)
    (hdurable : s.durable.watermark ≤ t.durable.watermark) : Kept t v ts where
  recorded := fun hrow => (hrows hrow).2 (h.recorded (hrows hrow).1)
  allocated := le_trans h.allocated hcounter
  durable := h.durable.imp hwal fun hv => le_trans hv hdurable

omit [DecidableEq K] in
/-- A change that leaves the log and the index alone. -/
theorem IndexOk.frame (h : IndexOk tracked pending s) (hhistory : t.history = s.history)
    (hstamps : t.stamps = s.stamps) (hindex : t.tsIndex = s.tsIndex)
    (hcounter : s.counter ≤ t.counter) (hwal : ∀ v, s.wal v = none → t.wal v = none)
    (hdurable : s.durable.watermark ≤ t.durable.watermark) : IndexOk tracked pending t where
  kept := fun v ts hv => by
    refine (h.kept v ts hv).mono (fun hrow => ?_) hcounter (hwal v) hdurable
    rw [HasRow, hhistory] at hrow
    refine ⟨hrow, fun hrec => ?_⟩
    rwa [Recorded, hstamps, hindex]
  unused := fun v hv => by
    obtain ⟨hnone, hidx⟩ := h.unused v (by omega)
    exact ⟨hwal v hnone, by rwa [hindex]⟩
  indexed := fun ts v hv => by
    rw [hindex] at hv
    rcases h.indexed ts v hv with hnone | hle | hmem
    · exact .inl (hwal v hnone)
    · omega
    · exact .inr (.inr hmem)

/-- The accesses that touch neither the rows and timestamps of the log, nor the index, nor
the set of versions the WAL has accepted. -/
def Access.IsCalm : Access K → Prop
  | .logRows _ _ | .unlogRows _ | .drainRows _ | .reclaimRows _ | .tsIndexInsert _ _
  | .tsIndexRemove _ _ | .walAppend _ _ => False
  | _ => True

variable {entries : List (Nat × List (K × Bytes))} {history : VersionedRows K Bytes} {a : Access K}
  {v : Nat} {pass : List (DrainEntry K)}

omit [DecidableEq K] in
/-- A plain access is calm. -/
theorem Access.IsPlain.isCalm (h : a.IsPlain) : a.IsCalm := by
  cases a <;> trivial

omit [DecidableEq K] in
/-- So is a read. -/
theorem Access.IsRead.isCalm (h : a.IsRead) : a.IsCalm := by
  cases a <;> trivial

/-- A calm access keeps the index right. -/
theorem IndexOk.calm (h : IndexOk tracked pending s) (ha : a.IsCalm) (i : Nat) (e : Env) :
    IndexOk tracked pending (serve i e s a).1 := by
  -- statuses change, but a version the WAL has not accepted stays unaccepted
  have hstatus : ∀ (w : Nat) (status : WalStatus) v, s.wal v = none →
      update s.wal w ((s.wal w).map fun r => { r with status }) v = none := by
    intro w status v hv
    by_cases hvw : v = w
    · subst hvw
      simp [hv]
    · simp [hvw, hv]
  cases a with
  | logRows | unlogRows | drainRows | reclaimRows | tsIndexInsert | tsIndexRemove | walAppend =>
    exact ha.elim
  | assignNextVersion rows =>
    exact h.frame rfl rfl rfl (le_succ _) (fun _ => id) le_rfl
  | markDurable v o =>
    exact h.frame rfl rfl rfl le_rfl (fun _ => id) (le_of_eq (Settlement.mark_watermark _ _ _).symm)
  | advanceDurable =>
    exact h.frame rfl rfl rfl le_rfl (fun _ => id) (Settlement.watermark_le_advanceBy _ _)
  | orphan v => exact h.frame rfl rfl rfl le_rfl (hstatus v .orphan) le_rfl
  | deactivate v | forgetOrphan v =>
    exact h.frame rfl rfl rfl le_rfl (hstatus v .settled) le_rfl
  | tryReserve | releaseReservation | swapVacuumAnchor | evictCell | overlayExpire
  | setRetention | completeOrphan =>
    dsimp only [serve]
    repeat' split
    all_goals exact h.frame rfl rfl rfl le_rfl (fun _ => id) le_rfl
  | _ => exact h.frame rfl rfl rfl le_rfl (fun _ => id) le_rfl

section

omit [DecidableEq K]

/-- A change of the rows and timestamps of the log. -/
theorem IndexOk.relog (h : IndexOk tracked pending s) {stamps : Nat → Option Nat}
    (hkeep : ∀ v ts, tracked v ts → ∀ k, history k v ≠ none →
      s.history k v ≠ none ∧ stamps v = s.stamps v) :
    IndexOk tracked pending { s with history, stamps } where
  kept := fun v ts hv => by
    refine (h.kept v ts hv).mono ?_ le_rfl id le_rfl
    rintro ⟨k, hk⟩
    obtain ⟨hrow, hstamp⟩ := hkeep v ts hv k hk
    refine ⟨⟨k, hrow⟩, fun hrec => ⟨?_, hrec.2⟩⟩
    exact hstamp.trans hrec.1
  unused := h.unused
  indexed := h.indexed

/-- The index with one entry set. -/
theorem entry_update (index : Nat → Nat → Bool) (ts v ts' v' : Nat) (b : Bool) :
    update index ts (update (index ts) v b) ts' v' =
      if ts' = ts ∧ v' = v then b else index ts' v' := by
  by_cases hts : ts' = ts
  · subst hts
    simp [update_apply]
  · simp [hts]

/-- An index entry is set whose version is no transaction's or in the drain pass, or cleared
when its version has no rows any more. -/
theorem IndexOk.setEntry (h : IndexOk tracked pending s) {ts v : Nat} {b : Bool}
    (hset : b = true → v ≤ s.counter ∧ (s.wal v = none ∨ v ∈ pending))
    (hclear : b = false → ¬ HasRow s v) :
    IndexOk tracked pending
      { s with tsIndex := update s.tsIndex ts (update (s.tsIndex ts) v b) } := by
  refine ⟨fun v' ts' hv' => ?_, fun v' hv' => ⟨(h.unused v' hv').1, fun ts' => ?_⟩,
    fun ts' v' hv' => ?_⟩
  · refine (h.kept v' ts' hv').mono (fun hrow => ⟨hrow, fun hrec => ⟨hrec.1, ?_⟩⟩) le_rfl id le_rfl
    simp only [entry_update]
    split
    · obtain ⟨-, rfl⟩ := ‹ts' = ts ∧ v' = v›
      by_contra hb
      exact hclear (by simpa using hb) hrow
    · exact hrec.2
  · simp only [entry_update]
    split
    · obtain ⟨-, rfl⟩ := ‹ts' = ts ∧ v' = v›
      by_contra hb
      exact absurd (hset (by simpa using hb)).1 (not_le.2 hv')
    · exact (h.unused v' hv').2 ts'
  · simp only [entry_update] at hv'
    split at hv'
    · obtain ⟨-, rfl⟩ := ‹ts' = ts ∧ v' = v›
      exact (hset hv').2.imp_right .inr
    · exact h.indexed ts' v' hv'

/-- The WAL accepts a version without a timestamp. -/
theorem IndexOk.accept (h : IndexOk tracked pending s) (record : WalRecord K) (hv : v ≤ s.counter)
    (htracked : ∀ ts, ¬ tracked v ts) (hindex : ∀ ts, s.tsIndex ts v = false) :
    IndexOk tracked pending { s with wal := update s.wal v (some record) } := by
  have hwal : ∀ v', v' ≠ v → update s.wal v (some record) v' = s.wal v' := by
    intro v' hne
    simp [hne]
  refine ⟨fun v' ts' hv' => ?_, fun v' hv' => ⟨?_, (h.unused v' hv').2⟩, fun ts' v' hv' => ?_⟩
  · have hne : v' ≠ v := fun heq => htracked ts' (heq ▸ hv')
    exact (h.kept v' ts' hv').mono (fun hrow => ⟨hrow, id⟩) le_rfl
      (fun hnone => (hwal v' hne).trans hnone) le_rfl
  · have hne : v' ≠ v := fun heq => absurd hv (not_le.2 (heq ▸ hv'))
    exact (hwal v' hne).trans (h.unused v' hv').1
  · have hne : v' ≠ v := by
      rintro rfl
      exact absurd (hv'.symm.trans (hindex ts')) (by simp)
    exact (h.indexed ts' v' hv').imp_left fun hnone => (hwal v' hne).trans hnone

end

/-! ## Reclaiming -/

/-- One call at a time, every flush taking whole versions. -/
abbrev oneByOne : Discipline (Store K) Env (Access K) Response := .alone (serve 0) WholeVersions

/-- A program that only reads leaves the state as it is. -/
theorem alone_reads {α : Type} {p : Call K α} (hp : ReadOnly p) :
    oneByOne.Holds 0 p (fun _ t => s = t) s :=
  alone_all hp (fun _ t e ha ht => ht.trans (serve_of_isRead ha 0 e t).symm) rfl

/-- The program keeps the invariant, whatever is tracked and pending. -/
def Preserves {α : Type} (p : Call K α) : Prop :=
  ∀ (tracked : Nat → Nat → Prop) (pending : List Nat) (s : Store K), IndexOk tracked pending s →
    oneByOne.Holds 0 p (fun _ => IndexOk tracked pending) s

namespace Preserves

variable {α β : Type}

/-- A call that does nothing. -/
theorem pure (x : α) : Preserves (Pure.pure x : Call K α) := fun _ _ _ h => Holds.pure h

variable {p : Call K α}

/-- One call after the other. -/
theorem seq {f : α → Call K β} (hp : Preserves p) (hf : ∀ x, Preserves (f x)) :
    Preserves (p >>= f) := fun tracked pending s h =>
  (hp tracked pending s h).seq fun x t ht => hf x tracked pending t ht

/-- A call of calm accesses. -/
theorem calm (hp : p.All Access.IsCalm) : Preserves p := fun _ _ _ h =>
  alone_all hp (fun _ _ e ha ht => ht.calm ha 0 e) h

/-- A call that only reads. -/
theorem reads (hp : ReadOnly p) : Preserves p :=
  calm (hp.mono fun _ => Access.IsRead.isCalm)

/-- One calm access. -/
theorem perform {a : Access K} (ha : a.IsCalm) : Preserves (Mvcc.perform a) := calm (.perform ha)

/-- The calls that keep the index are closed. -/
theorem closed : Prog.Closed (A := Access K) (B := Response) Preserves := ⟨pure, seq⟩

/-- A call for each item. -/
theorem forEach {f : β → Call K Unit} (xs : List β) (hf : ∀ x, Preserves (f x)) :
    Preserves (Prog.forEach f xs) := closed.forEach hf xs

end Preserves

/-- Whole versions are reclaimed. -/
theorem IndexOk.reclaimRows (h : IndexOk tracked pending s) {rows : List (K × Nat)}
    (hwhole : WholeVersions (.reclaimRows rows) s) :
    IndexOk tracked pending
        { s with
          history := s.history.clearAll rows
          stamps := stampAll s.stamps (rows.map Prod.snd) none } ∧
      ∀ v ∈ rows.map Prod.snd, ∀ k, s.history.clearAll rows k v = none := by
  have hgone : ∀ v ∈ rows.map Prod.snd, ∀ k, s.history.clearAll rows k v = none := by
    intro v hv k
    obtain ⟨row, hrow, rfl⟩ := mem_map.1 hv
    rcases s.history.clearAll_eq rows k row.2 with ⟨-, hnone⟩ | ⟨hmem, hold⟩
    · exact hnone
    · by_contra hne
      exact hmem (hwhole row hrow k (hold ▸ hne))
  refine ⟨h.relog fun v ts _ k hk => ?_, hgone⟩
  have hv : v ∉ rows.map Prod.snd := fun hv => hk (hgone v hv k)
  exact ⟨VersionedRows.of_clearAll hk, by simp [stampAll, hv]⟩

/-- Then their entries go from the index. -/
theorem reclaimed_holds {removals : List (Removal K)} (h : IndexOk tracked pending s)
    (hgone : ∀ r ∈ removals, ¬ HasRow s r.version) :
    oneByOne.Holds 0 (reclaimed removals) (fun _ => IndexOk tracked pending) s := by
  refine Holds.imp (Holds.forEach_mem (F := fun t => IndexOk tracked pending t ∧
    ∀ r ∈ removals, ¬ HasRow t r.version) ?_ ⟨h, hgone⟩) fun _ _ ht => ht.1
  rintro r hr t ⟨ht, hrows⟩
  refine Holds.seq
    (P := fun _ u => IndexOk tracked pending u ∧ ∀ r ∈ removals, ¬ HasRow u r.version) ?_ ?_
  · unfold unindex
    cases r.ts with
    | some ts => exact alone_perform fun _ _ => ⟨ht.setEntry nofun fun _ => hrows r hr, hrows⟩
    | none => exact Holds.pure ⟨ht, hrows⟩
  · rintro - u ⟨hu, hrows⟩
    refine Holds.step fun _ => Holds.when (fun _ => alone_perform fun _ e => ?_)
      fun _ => ⟨hu, hrows⟩
    exact ⟨hu.calm (a := .overlayRemove r.key r.version) trivial 0 e, hrows⟩

/-- Rows first, index second. -/
theorem reclaim_preserves (removals : List (Removal K)) : Preserves (reclaim removals) := by
  intro tracked pending s h
  unfold reclaim
  split
  · exact Holds.pure h
  refine Holds.seq (P := fun ok t => IndexOk tracked pending t ∧
    (ok = true → ∀ r ∈ removals, ¬ HasRow t r.version)) ?_ ?_
  · refine alone_perform fun hwhole e => ?_
    obtain ⟨hindex, hgone⟩ := h.reclaimRows hwhole
    have hrows : ∀ r ∈ removals, ∀ k, s.history.clearAll
        (removals.map fun r => (r.key, r.version)) k r.version = none := by
      intro r hr k
      exact hgone r.version (by simpa using ⟨r, hr, rfl⟩) k
    rcases hio : e.io with _ | _ | _ <;> simp only [serve, transact, hio]
    · exact ⟨hindex, fun _ r hr ⟨k, hk⟩ => hk (hrows r hr k)⟩
    · exact ⟨h, by simp⟩
    · exact ⟨hindex, by simp⟩
  · rintro ok t ⟨ht, hgone⟩
    cases ok with
    | true => exact (reclaimed_holds ht (hgone rfl)).seq fun _ u hu => Holds.pure hu
    | false => exact Holds.pure ht

/-! ## Vacuum and collection -/

/-- Pruning of cells. -/
theorem pruneVersionCache_preserves (cells : List K) : Preserves (pruneVersionCache cells) :=
  .seq (.reads minAlive_reads) fun _ => .forEach cells fun _ => .perform trivial

/-- The guard of a version commits. -/
theorem commitGuard_preserves (v : Nat) : Preserves (commitGuard v : Call K Unit) :=
  .calm (.seq (.perform trivial) fun _ => .seq (.perform trivial) fun _ =>
    .seq (.perform trivial) fun _ => .seq (.perform trivial) fun _ => .perform trivial)

/-- Or it aborts. -/
theorem abortGuard_preserves (v : Nat) : Preserves (abortGuard v : Call K Unit) :=
  .calm (.seq (.perform trivial) fun _ => .seq (.perform trivial) fun _ =>
    .seq (.perform trivial) fun _ => .seq (.perform trivial) fun _ =>
    .seq (.perform trivial) fun _ => .perform trivial)

/-- The vacuum after a write. -/
theorem vacuumAfter_preserves (t : Slot K) : Preserves (vacuumAfter t) :=
  vacuumAfter_closed Preserves.closed (fun _ ha => .perform ha.isCalm) reclaim_preserves t

/-! ## Plain writes -/

/-- A version the running call has allocated for a plain write. -/
structure Own (tracked : Nat → Nat → Prop) (s : Store K) (v : Nat) : Prop where
  allocated : v ≤ s.counter
  unlogged : s.wal v = none
  untracked : ∀ ts, ¬ tracked v ts

omit [DecidableEq K] in
/-- The next version has no timestamp yet. -/
theorem IndexOk.untracked_next (h : IndexOk tracked pending s) (ts : Nat) :
    ¬ tracked (s.counter + 1) ts := fun ht =>
  absurd (h.kept _ ts ht).allocated (not_succ_le_self _)

/-- The slots of a write are its own. -/
theorem allocate_holds (appendOnly : Bool) (rows : List (K × Bytes))
    (h : IndexOk tracked pending s) :
    oneByOne.Holds 0 (allocate appendOnly rows) (fun slots t => IndexOk tracked pending t ∧
      s.counter ≤ t.counter ∧ t.wal = s.wal ∧ ∀ x ∈ slots, Own tracked t x.version) s := by
  induction rows generalizing s with
  | nil => exact Holds.pure ⟨h, le_rfl, rfl, by simp⟩
  | cons row rest ih =>
    obtain ⟨k, x⟩ := row
    refine (alone_reads (observeCell_reads appendOnly k)).seq ?_
    rintro old _ rfl
    refine Holds.step fun e => Holds.step fun e' => ?_
    have ht := h.calm (a := .assignNextVersion [(k, x)]) trivial 0 e
    refine (ih (ht.calm (a := .publishCell k _) trivial 0 e')).seq ?_
    rintro slots w ⟨hw, hle, hwal, hslots⟩
    refine Holds.pure ⟨hw, le_of_succ_le hle, hwal, ?_⟩
    intro y hy
    rcases mem_cons.1 hy with rfl | hy
    · refine ⟨hle, ?_, h.untracked_next⟩
      show w.wal (s.counter + 1) = none
      rw [hwal]
      exact (h.unused _ (lt_succ_self _)).1
    · exact hslots y hy

omit [DecidableEq K] in
/-- A write logs rows of its own versions. -/
theorem IndexOk.logOwn (h : IndexOk tracked pending s) {versions : List Nat} (ts : Option Nat)
    (hown : ∀ v ∈ versions, ∀ ts, ¬ tracked v ts)
    (hrows : ∀ v ∉ versions, ∀ k, history k v ≠ none → s.history k v ≠ none) :
    IndexOk tracked pending
      { s with history, stamps := stampAll s.stamps versions ts } := by
  refine h.relog fun v ts' hv k hk => ?_
  have hmem : v ∉ versions := fun hmem => hown v hmem ts' hv
  exact ⟨hrows v hmem k hk, by simp [stampAll, hmem]⟩

/-- A plain write. -/
theorem writeRows_preserves (appendOnly : Bool) (rows : List (K × Bytes)) :
    Preserves (writeRows appendOnly rows) := by
  intro tracked pending s h
  refine (allocate_holds appendOnly rows h).seq ?_
  rintro slots t ⟨ht, -, -, hown⟩
  refine Holds.step fun e => ?_
  generalize (serve 0 e t .nowMillis).2 = ts
  have huntracked : ∀ v ∈ slots.map Slot.version, ∀ ts, ¬ tracked v ts := by
    intro v hv
    obtain ⟨x, hx, rfl⟩ := mem_map.1 hv
    exact (hown x hx).untracked
  refine Holds.seq (P := fun _ u => IndexOk tracked pending u ∧
    ∀ x ∈ slots, Own tracked u x.version) ?_ ?_
  · refine alone_perform fun _ e => ?_
    have hlogged := ht.logOwn (some ts) huntracked fun v hv k hk => by
        rcases t.history.setAll_eq (slotRows slots) k v with ⟨x, hx, -⟩ | hold
        · simp only [slotRows, mem_map, Prod.mk.injEq] at hx
          obtain ⟨y, hy, -, hversion, -⟩ := hx
          exact absurd (mem_map.2 ⟨y, hy, hversion⟩) hv
        · exact hold ▸ hk
    rcases hio : e.io with _ | _ | _ <;> simp only [serve, hio]
    · exact ⟨hlogged, fun x hx => { hown x hx with }⟩
    · exact ⟨ht, hown⟩
    · exact ⟨hlogged, fun x hx => { hown x hx with }⟩
  rintro ok u ⟨hu, hown⟩
  cases ok with
  | true =>
    refine Holds.seq (P := fun _ => IndexOk tracked pending) ?_ fun _ w hw => ?_
    · refine Holds.imp (Holds.forEach_mem (F := fun w => IndexOk tracked pending w ∧
        ∀ x ∈ slots, Own tracked w x.version) ?_ ⟨hu, hown⟩) fun _ _ hw => hw.1
      rintro x hx w ⟨hw, hown⟩
      exact alone_perform fun _ _ =>
        ⟨hw.setEntry (fun _ => ⟨(hown x hx).allocated, .inl (hown x hx).unlogged⟩) nofun,
          fun y hy => { hown y hy with }⟩
    have htail : Preserves (do
        Prog.forEach (fun t => perform (.overlayInsert t.key t.version t.value)) slots
        Prog.forEach (fun t => commitGuard t.version) slots
        Prog.forEach (fun t => markDurable t.version) slots
        Prog.forEach vacuumAfter slots
        return some ((slots.map Slot.version).getLastD 0) : Call K (Option Nat)) := by
      refine .seq (.forEach _ fun _ => .perform trivial) fun _ =>
        .seq (.forEach _ fun _ => commitGuard_preserves _) fun _ =>
        .seq (.forEach _ fun _ => .seq (.perform trivial) fun _ => .perform trivial) fun _ =>
        .seq (.forEach _ vacuumAfter_preserves) fun _ => .pure _
    exact htail tracked pending w hw
  | false =>
    refine Holds.seq (P := fun _ => IndexOk tracked pending) ?_ fun _ w hw =>
      Holds.pure hw
    -- compensation: the rows go again, or writes are fenced
    refine Holds.seq (P := fun _ => IndexOk tracked pending) ?_ fun ok w hw => ?_
    · refine alone_perform fun _ e => ?_
      rcases hio : e.io with _ | _ | _ <;> simp only [serve, hio]
      · exact hu.logOwn none huntracked fun _ _ _ => VersionedRows.of_clearAll
      · exact hu
      · exact hu.logOwn none huntracked fun _ _ _ => VersionedRows.of_clearAll
    · cases ok with
      | true => exact Preserves.forEach slots (fun x => abortGuard_preserves x.version) _ _ w hw
      | false => exact Preserves.perform (a := .fenceWrites) trivial _ _ w hw

/-! ## Transactional commits -/

/-- The cells of a commit. -/
theorem applyCommittedVisible_preserves (rows : List (K × Bytes)) (v : Nat) :
    Preserves (applyCommittedVisible rows v) :=
  .seq (.perform trivial) fun _ => .seq (.forEach rows fun _ => .perform trivial) fun _ =>
    .seq (.forEach rows fun _ => .perform trivial) fun _ => .perform trivial

/-- What follows the WAL append of a commit. -/
theorem commitTail_preserves (rows : List (K × Bytes)) (v : Nat) :
    Preserves (do
      if ← perform .cancelled then
        perform (.orphan v)
      else
        applyCommittedVisible rows v
        if ← perform .cancelled then
          perform (.orphan v)
        else commitGuard v : Call K Unit) := by
  refine .seq (.perform trivial) fun dropped => ?_
  split
  · exact .perform trivial
  refine .seq (applyCommittedVisible_preserves rows v) fun _ =>
    .seq (.perform trivial) fun dropped => ?_
  split
  · exact .perform trivial
  · exact commitGuard_preserves v

/-- A transactional commit. -/
theorem commitTx_preserves (set : WriteSet K) : Preserves (commitTx set) := by
  intro tracked pending s h
  refine Holds.step fun e => ?_
  have ht := h.calm (a := .assignNextVersion set.rows) trivial 0 e
  refine Holds.seq (P := fun _ => IndexOk tracked pending) ?_ fun io u hu => ?_
  · refine alone_perform fun _ e => ?_
    rcases hio : e.io with _ | _ | _ <;> simp only [serve, hio]
    · exact ht.accept _ le_rfl h.untracked_next (h.unused _ (lt_succ_self _)).2
    · exact ht
    · exact ht
  · cases io with
    | failed => exact abortGuard_preserves _ tracked pending u hu
    | failedApplied => exact Holds.pure hu
    | done => exact commitTail_preserves set.rows _ tracked pending u hu

/-! ## The drainer -/

omit [DecidableEq K] in
/-- A drain window: consecutive versions from `c + 1` on that the WAL has accepted, and the
orphan next to them. -/
theorem drainable_spec (wal : Nat → Option (WalRecord K)) (visible c fuel : Nat) :
    let window := drainable wal visible (c + 1) fuel
    window.1.map Prod.fst = range' (c + 1) window.1.length ∧
      (∀ entry ∈ window.1, wal entry.1 ≠ none) ∧
      ∀ orphan, window.2 = some orphan →
        orphan.1 = c + 1 + window.1.length ∧ wal orphan.1 ≠ none := by
  dsimp only
  induction fuel generalizing c with
  | zero => simp [drainable]
  | succ fuel ih =>
    unfold drainable
    rcases hwal : wal (c + 1) with _ | ⟨ops, _ | _ | _⟩
    · simp
    · simp
    · simp [hwal]
    dsimp only
    split
    · obtain ⟨hrange, haccepted, horphan⟩ := ih (c + 1)
      refine ⟨?_, ?_, ?_⟩
      · simp only [map_cons, hrange, length_cons, range'_succ]
      · exact forall_mem_cons.2 ⟨by simp [hwal], haccepted⟩
      · intro orphan ho
        obtain ⟨hversion, hne⟩ := horphan orphan ho
        refine ⟨?_, hne⟩
        rw [length_cons]
        omega
    · simp

/-- A pass takes the versions of its entries. -/
theorem stampPassEntries_holds (entries : List (Nat × List (K × Bytes))) :
    oneByOne.Holds 0 (stampPassEntries entries)
      (fun pass t => s = t ∧ pass.map DrainEntry.version = entries.map Prod.fst) s := by
  induction entries with
  | nil => exact Holds.pure ⟨rfl, rfl⟩
  | cons entry rest ih =>
    refine Holds.seq (P := fun stamped t => s = t ∧ stamped.version = entry.1) ?_ ?_
    · refine Holds.ask (fun _ => rfl) ?_
      rcases s.pendingTs entry.1 with _ | ts
      · exact Holds.step fun _ => Holds.pure ⟨rfl, rfl⟩
      · exact Holds.pure ⟨rfl, rfl⟩
    rintro stamped _ ⟨rfl, hstamped⟩
    refine ih.seq ?_
    rintro pass _ ⟨rfl, hpass⟩
    exact Holds.pure ⟨rfl, by simp [hstamped, hpass]⟩

omit [DecidableEq K] in
/-- A version outside of the pass keeps its stamp. -/
theorem stampPass_of_not_mem (stamps : Nat → Option Nat) (hv : v ∉ pass.map DrainEntry.version) :
    stampPass stamps pass v = stamps v := by
  induction pass generalizing stamps with
  | nil => rfl
  | cons entry rest ih =>
    rw [map_cons, mem_cons, not_or] at hv
    rw [stampPass, ih _ hv.2, update_of_ne hv.1]

/-- A pass is logged. -/
theorem IndexOk.drainRows (h : IndexOk tracked pending s)
    (hpass : ∀ v ∈ pass.map DrainEntry.version, ∀ ts, ¬ tracked v ts) :
    IndexOk tracked pending
      { s with history := s.history.setAll (passRows pass), stamps := stampPass s.stamps pass } := by
  refine h.relog fun v ts hv k hk => ?_
  have hmem : v ∉ pass.map DrainEntry.version := fun hmem => hpass v hmem ts hv
  refine ⟨?_, stampPass_of_not_mem s.stamps hmem⟩
  rcases s.history.setAll_eq (passRows pass) k v with ⟨x, hx, -⟩ | hold
  · simp only [passRows, mem_flatMap, mem_map, Prod.mk.injEq] at hx
    obtain ⟨entry, hentry, -, -, -, hversion, -⟩ := hx
    exact absurd (mem_map.2 ⟨entry, hentry, hversion⟩) hmem
  · exact hold ▸ hk

omit [DecidableEq K] in
/-- With more versions pending. -/
theorem IndexOk.weaken (h : IndexOk tracked [] s) (pending : List Nat) :
    IndexOk tracked pending s where
  kept := h.kept
  unused := h.unused
  indexed := fun ts v hv => (h.indexed ts v hv).imp_right fun hle =>
    .inl (hle.resolve_right (by simp))

omit [DecidableEq K] in
/-- A version above the durable watermark has no timestamp yet. -/
theorem IndexOk.untracked (h : IndexOk tracked pending s) (hwal : s.wal v ≠ none)
    (hlt : s.durable.watermark < v) (ts : Nat) : ¬ tracked v ts := by
  intro htracked
  rcases (h.kept v ts htracked).durable with hnone | hle
  · exact hwal hnone
  · omega

/-- How far a drain pass from `s` on has come: what it has indexed is pending. -/
structure Draining (tracked : Nat → Nat → Prop) (pending : List Nat) (s t : Store K) : Prop where
  wal : t.wal = s.wal
  durable : t.durable = s.durable
  counter : t.counter = s.counter
  ok : IndexOk tracked pending t

/-- A drain pass over accepted versions that are not tracked. -/
theorem writeCommittedBatchToHistory_holds (h : IndexOk tracked [] s)
    (hentries : ∀ entry ∈ entries, s.wal entry.1 ≠ none ∧ ∀ ts, ¬ tracked entry.1 ts) :
    oneByOne.Holds 0 (writeCommittedBatchToHistory entries)
      (fun ok => Draining tracked (if ok then entries.map Prod.fst else []) s) s := by
  unfold writeCommittedBatchToHistory
  split
  · have hnil : entries = [] := by simpa using ‹entries.isEmpty = true›
    subst hnil
    exact Holds.pure ⟨rfl, rfl, rfl, h⟩
  refine (stampPassEntries_holds entries).seq ?_
  rintro pass _ ⟨rfl, hpass⟩
  have hversions : ∀ v ∈ pass.map DrainEntry.version, s.wal v ≠ none ∧ ∀ ts, ¬ tracked v ts := by
    rw [hpass]
    intro v hv
    obtain ⟨entry, hentry, rfl⟩ := mem_map.1 hv
    exact hentries entry hentry
  have huntracked : ∀ v ∈ pass.map DrainEntry.version, ∀ ts, ¬ tracked v ts :=
    fun v hv => (hversions v hv).2
  refine Holds.seq (P := fun _ => Draining tracked [] s) ?_ fun ok t ht => ?_
  · refine alone_perform fun _ e => ?_
    have hdrained := h.drainRows huntracked
    rcases hio : e.io with _ | _ | _ <;> simp only [serve, transact, hio]
    · exact ⟨rfl, rfl, rfl, hdrained⟩
    · exact ⟨rfl, rfl, rfl, h⟩
    · exact ⟨rfl, rfl, rfl, hdrained⟩
  cases ok with
  | false => exact Holds.pure ht
  | true =>
    refine Holds.seq (P := fun _ => Draining tracked (entries.map Prod.fst) s) ?_ fun _ u hu => ?_
    · refine Holds.forEach_mem (fun x hmem u hu => ?_) { ht with ok := ht.ok.weaken _ }
      have hx : x.version ∈ pass.map DrainEntry.version := mem_map.2 ⟨x, hmem, rfl⟩
      refine alone_perform fun _ _ =>
        { hu with ok := hu.ok.setEntry (fun _ => ⟨?_, .inr (hpass ▸ hx)⟩) nofun }
      rw [hu.counter]
      by_contra hgt
      exact (hversions x.version hx).1 (h.unused _ (not_le.1 hgt)).1
    · -- seeding the cells and raising the floor
      refine Holds.seq (P := fun _ => Draining tracked (entries.map Prod.fst) s) ?_ fun _ w hw => ?_
      · refine alone_all (P := fun a => ∃ k v, a = .seedCell k v)
          (.forEach fun entry => .forEach fun row => .perform ⟨row.1, entry.1, rfl⟩) ?_ hu
        rintro a w e ⟨k, v, rfl⟩ hw
        exact { hw with ok := hw.ok.calm (a := .seedCell k v) trivial 0 e }
      · exact Holds.step fun e =>
          Holds.pure { hw with ok := hw.ok.calm (a := .raisePublished _) trivial 0 e }

/-- The next version becomes durable. -/
theorem markDurable_next {rest : List Nat} (h : IndexOk tracked (v :: rest) s)
    (hv : v ≤ s.durable.watermark + 1) :
    oneByOne.Holds 0 (markDurable v) (fun _ t => t.wal = s.wal ∧ v ≤ t.durable.watermark ∧
      IndexOk tracked rest t) s := by
  refine Holds.step fun e => alone_perform fun _ e' => ?_
  have hadvanced := (h.calm (a := .markDurable v .materialized) trivial 0 e).calm
    (a := .advanceDurable) trivial 0 e'
  have hwatermark : v ≤ ((s.durable.mark v .materialized).advanceBy (e'.rounds + 1)).watermark :=
    le_trans (Settlement.le_advance_mark s.durable .materialized hv)
      (Settlement.watermark_le_advanceBy _ e'.rounds)
  refine ⟨rfl, hwatermark, hadvanced.kept, hadvanced.unused, fun ts v' hv' => ?_⟩
  rcases hadvanced.indexed ts v' hv' with hnone | hle | hmem
  · exact .inl hnone
  · exact .inr (.inl hle)
  · rcases mem_cons.1 hmem with rfl | hmem
    · exact .inr (.inl hwatermark)
    · exact .inr (.inr hmem)

/-- A pass over the versions next to the durable watermark leaves nothing pending. -/
theorem markDurable_pass {c : Nat} (h : IndexOk tracked (entries.map Prod.fst) s)
    (hc : c ≤ s.durable.watermark) (hrange : entries.map Prod.fst = range' (c + 1) entries.length) :
    oneByOne.Holds 0 (Prog.forEach (fun entry => markDurable entry.1) entries) (fun _ t =>
      t.wal = s.wal ∧ c + entries.length ≤ t.durable.watermark ∧ IndexOk tracked [] t) s := by
  induction entries generalizing s c with
  | nil => exact ⟨rfl, hc, h⟩
  | cons entry rest ih =>
    rw [map_cons, length_cons, range'_succ, cons.injEq] at hrange
    refine (markDurable_next h (by omega)).bind ?_
    rintro - t ⟨hwal, hdurable, ht⟩
    refine Holds.imp (ih ht (by omega) hrange.2) ?_
    rintro - u ⟨huwal, hudurable, hu⟩
    refine ⟨huwal.trans hwal, ?_, hu⟩
    rw [length_cons]
    omega

/-- An orphan is drained in its turn. -/
theorem drainOrphan_holds {orphan : Option (Nat × List (K × Bytes))} (h : IndexOk tracked [] s)
    (horphan : ∀ o, orphan = some o →
      o.1 ≤ s.durable.watermark + 1 ∧ s.wal o.1 ≠ none ∧ ∀ ts, ¬ tracked o.1 ts) :
    oneByOne.Holds 0 (drainOrphan orphan) (fun _ => IndexOk tracked []) s := by
  cases orphan with
  | none => exact Holds.pure h
  | some o =>
    obtain ⟨v, rows⟩ := o
    obtain ⟨hv, hwal⟩ := horphan _ rfl
    refine (writeCommittedBatchToHistory_holds h ?_).seq ?_
    · intro entry hentry
      obtain rfl := mem_singleton.1 hentry
      exact hwal
    rintro ok t ⟨-, hdurable, -, ht⟩
    cases ok with
    | false => exact Holds.pure ht
    | true =>
      refine Holds.step fun e => ?_
      have hu := IndexOk.calm ht (a := .completeOrphan v) trivial 0 e
      have hudurable : (serve 0 e t (.completeOrphan v)).1.durable = s.durable := by
        dsimp only [serve]
        split <;> exact hdurable
      refine Holds.step fun e₁ => Holds.step fun _ => Holds.step fun e₂ => Holds.step fun e₃ => ?_
      have hw := hu.calm (a := .advance) trivial 0 e₁
      exact Holds.imp (markDurable_next ((hw.calm (a := .raisePublished _) trivial 0 e₂).calm
        (a := .forgetOrphan v) trivial 0 e₃) (hudurable ▸ hv)) fun _ _ hz => hz.2.2

/-- The collection of the overlay. -/
theorem gcOverlayTo_preserves (d : Nat) (slots : List (K × Nat)) : Preserves (gcOverlayTo d slots) :=
  gcOverlayTo_closed Preserves.closed (fun _ ha => .perform ha.isCalm) d slots

/-- A drain step starts and ends with nothing pending. -/
theorem drainStep_holds (slots : List (K × Nat)) (h : IndexOk tracked [] s) :
    oneByOne.Holds 0 (drainStep slots) (fun _ => IndexOk tracked []) s := by
  refine Holds.ask (fun _ => rfl) (Holds.ask (fun _ => rfl) (Holds.ask (fun _ => rfl) ?_))
  obtain ⟨hrange, haccepted, horphan⟩ := drainable_spec s.wal s.published
    s.durable.watermark (s.counter - s.durable.watermark)
  generalize drainable s.wal _ _ _ = window at hrange haccepted horphan
  refine (writeCommittedBatchToHistory_holds h ?_).seq ?_
  · intro entry hentry
    refine ⟨haccepted entry hentry, h.untracked (haccepted entry hentry) ?_⟩
    have hmem : entry.1 ∈ window.1.map Prod.fst := mem_map.2 ⟨entry, hentry, rfl⟩
    rw [hrange, mem_range'_1] at hmem
    omega
  rintro ok t ⟨hwal, hdurable, -, ht⟩
  cases ok with
  | false => exact Holds.pure ht
  | true =>
    refine (markDurable_pass ht (by rw [hdurable]) hrange).seq ?_
    rintro - u ⟨huwal, hudurable, hu⟩
    refine (drainOrphan_holds hu fun o ho => ?_).seq fun _ w hw => ?_
    · obtain ⟨hversion, hne⟩ := horphan o ho
      refine ⟨by omega, ?_, h.untracked hne (by omega)⟩
      rwa [huwal, hwal]
    · exact Holds.ask (fun _ => rfl) (gcOverlayTo_preserves _ slots tracked [] w hw)

/-! ## All calls -/

/-- Every call keeps the invariant. -/
theorem program_holds (op : Op K) (h : IndexOk tracked [] s) :
    oneByOne.Holds 0 (program op) (fun _ => IndexOk tracked []) s := by
  have hclosed : Prog.Closed (A := Access K) (B := Response) fun p => ∀ s, IndexOk tracked [] s →
      oneByOne.Holds 0 p (fun _ => IndexOk tracked []) s :=
    ⟨fun _ _ h => Holds.pure h, fun hp hf s h => (hp s h).seq hf⟩
  have hkeeps {α : Type} {p : Call K α} (hp : Preserves p) := hp tracked []
  exact program_closed hclosed (fun a ha => hkeeps (.perform ha.isCalm))
    (fun removals => hkeeps (reclaim_preserves removals))
    (fun appendOnly rows => hkeeps (writeRows_preserves appendOnly rows))
    (fun set => hkeeps (commitTx_preserves set)) (fun slots _ => drainStep_holds slots)
    (fun cells => hkeeps (pruneVersionCache_preserves cells)) (fun _ _ => hkeeps (.perform trivial))
    op s h

/-- What every sequence of calls keeps that flushes whole versions. -/
theorem IndexOk.run (h : IndexOk tracked [] s) {calls : List (Op K × (Nat → Env))}
    (hcalls : Machine.Along callAlone FlushesWholeVersions s calls) :
    IndexOk tracked [] (run callAlone s calls) :=
  along_invariant (I := IndexOk tracked []) (fun _ c hs hc => (program_holds c.1 hs).exec hc) h hcalls

omit [DecidableEq K] in
/-- The empty store. -/
theorem IndexOk.empty (retention : Retention) (receiptNative : Bool) :
    IndexOk (fun _ _ => False) [] (Store.empty retention receiptNative : Store K) where
  kept := fun _ _ hv => hv.elim
  unused := fun _ _ => ⟨rfl, fun _ => rfl⟩
  indexed := fun _ _ hv => absurd hv (by simp [Store.empty])

/-- **Commit timestamps stay with their rows.**  Along any sequence of calls in which every
flush of reclaimed rows takes all rows of the versions it removes, a version whose
timestamp was recorded has it, in the log and in the index, as long as some key has a row at
the version. -/
theorem timestamp_outlives_rows (retention : Retention) (receiptNative : Bool)
    (before after : List (Op K × (Nat → Env))) (v ts : Nat)
    (hwhole : Machine.Along callAlone FlushesWholeVersions (Store.empty retention receiptNative)
      (before ++ after))
    (hrecorded : Recorded
      (run callAlone (Store.empty retention receiptNative) before) v ts)
    (hrow : HasRow
      (run callAlone (Store.empty retention receiptNative) (before ++ after)) v) :
    Recorded (run callAlone (Store.empty retention receiptNative) (before ++ after)) v ts := by
  rw [along_append] at hwhole
  rw [run_append] at hrow ⊢
  have hmid := (IndexOk.empty retention receiptNative).run hwhole.1
  generalize run callAlone (Store.empty retention receiptNative) before = mid at *
  have hkept : Kept mid v ts := by
    refine ⟨fun _ => hrecorded, ?_, ?_⟩
    · by_contra hgt
      have := (hmid.unused v (not_le.1 hgt)).2 ts
      exact absurd (hrecorded.2.symm.trans this) (by simp)
    · exact (hmid.indexed ts v hrecorded.2).imp_right fun hle => hle.resolve_right (by simp)
  have htracked : IndexOk (fun v' ts' => v' = v ∧ ts' = ts) [] mid := by
    refine ⟨?_, hmid.unused, hmid.indexed⟩
    rintro v' ts' ⟨rfl, rfl⟩
    exact hkept
  exact ((htracked.run hwhole.2).kept v ts ⟨rfl, rfl⟩).recorded hrow

/-- All I/O succeeds, at time 5. -/
def calmWeather : Nat → Env := fun _ => ⟨.done, 5, 0, 1, false⟩

/-- Two commits, the second over both keys, and their drain. -/
def firstCommits : List (Op Bool × (Nat → Env)) :=
  [(.commitTx ⟨[(false, [1])], by decide⟩, calmWeather),
    (.commitTx ⟨[(false, [2]), (true, [2])], by decide⟩, calmWeather),
    (.drainStep [], calmWeather)]

/-- A third commit, which supersedes one row of the second, its drain and a collection. -/
def thirdCommit : List (Op Bool × (Nat → Env)) :=
  [(.commitTx ⟨[(false, [3])], by decide⟩, calmWeather), (.drainStep [], calmWeather),
    (.gc ⟨[false, true], [[(false, 1), (false, 2), (false, 3), (true, 2)]]⟩ [], calmWeather)]

/-- The collection takes the only row of version 1; version 2 keeps its rows and its
timestamp. -/
theorem timestamp_outlives_rows_gc :
    Recorded (run callAlone (Store.empty .currentOnly false)
      (firstCommits ++ thirdCommit)) 2 5 :=
  timestamp_outlives_rows .currentOnly false firstCommits thirdCommit 2 5 (by decide) (by decide)
    ⟨true, by decide⟩

/-- One more commit and collection. -/
def fourthCommit : List (Op Bool × (Nat → Env)) :=
  [(.commitTx ⟨[(false, [4])], by decide⟩, calmWeather), (.drainStep [], calmWeather),
    (.gc ⟨[false, true], [[(false, 2), (false, 3), (false, 4), (true, 2)]]⟩ [], calmWeather)]

/-- The first key's row of version 2 goes and takes the timestamp with it, which the second
key's row of version 2 still needs. -/
theorem timestamp_lost :
    Recorded (run callAlone (Store.empty .currentOnly false) firstCommits) 2 5 ∧
      HasRow (run callAlone (Store.empty .currentOnly false)
        (firstCommits ++ (thirdCommit ++ fourthCommit))) 2 ∧
      ¬ Recorded (run callAlone (Store.empty .currentOnly false)
        (firstCommits ++ (thirdCommit ++ fourthCommit))) 2 5 :=
  ⟨by decide, ⟨true, by decide⟩, by decide⟩

end ShamirDb.Mvcc
