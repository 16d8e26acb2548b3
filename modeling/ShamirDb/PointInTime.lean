/-
# Reads at a version

`resolve_read` takes shortcuts: through the cell of the key, then the overlay, then the
log, and only if these fail through a search of both.  This file shows that in every
reachable state the result is the value of the newest committed row at or below the
version asked for, over overlay and log together.  What makes the shortcut through the
cell right is that a cell is not below a committed version of its key.  A cell that was
evicted and then seeded with an older version breaks this; the runs considered are those
in which no seeding does so.
-/
import ShamirDb.MvccDiscipline
import ShamirDb.VersionCodec

namespace ShamirDb.Mvcc

open Threads Discipline VersionedRows List Option Machine

variable {K : Type} {n : Nat}

/-! ## What a read should return -/

/-- The row of a key at a version, in the overlay or in the log. -/
def visibleRow (s : Store K) (k : K) (v : Nat) : Option Bytes := (s.overlay k v).or (s.history k v)

/-- The same, for committed versions only. -/
def committedRow (s : Store K) (k : K) (v : Nat) : Option Bytes :=
  if s.completion.outcome v = some .materialized then visibleRow s k v else none

/-- The value of the newest committed row of `k` at or below `n`; none if there is no such
row or it is a tombstone. -/
def valueAt (s : Store K) (k : K) (n : Nat) : Option Bytes :=
  (VersionedRows.newest (committedRow s k) n).bind fun row => liveValue row.2

/-- Every row of `k` at or below `n` is of a committed version. -/
def RowsCommitted (s : Store K) (k : K) (n : Nat) : Prop :=
  ∀ v, v ≤ n → visibleRow s k v ≠ none → s.completion.outcome v = some .materialized

theorem Inv.rowsCommitted {s : Store K} (h : Inv s) (k : K) (hn : n ≤ s.completion.watermark) :
    RowsCommitted s k n := by
  intro v hv hrow
  -- a row is of an allocated version that is not aborted
  have hrow' : s.overlay k v ≠ none ∨ s.history k v ≠ none := by
    by_contra hnone
    rw [not_or, not_not, not_not] at hnone
    exact hrow (by simp [visibleRow, hnone])
  have hpos : 0 < v := by
    rcases Nat.eq_zero_or_pos v with rfl | hpos
    · obtain ⟨-, -, -, hnorows⟩ := h.unused 0 (Or.inl rfl)
      exact absurd (hnorows k) (by tauto)
    · exact hpos
  have haborted : s.completion.outcome v ≠ some .aborted := by
    rcases hrow' with hne | hne
    · obtain ⟨x, hx⟩ := ne_none_iff_exists'.1 hne
      exact (h.overlayRow k v x hx).2
    · obtain ⟨x, hx⟩ := ne_none_iff_exists'.1 hne
      exact (h.historyRow k v x hx).2
  obtain ⟨o, ho⟩ := ne_none_iff_exists'.1 (h.settled v hpos (Nat.le_trans hv hn))
  cases o with
  | materialized => exact ho
  | aborted => exact absurd ho haborted

/-! ## The searches -/

theorem newerRow_newest (o h : Nat → Option Bytes) (n : Nat) :
    newerRow (VersionedRows.newest o n) (VersionedRows.newest h n) =
      (VersionedRows.newest (fun v => (o v).or (h v)) n).bind fun row => liveValue row.2 := by
  induction n with
  | zero =>
    rcases ho : o 0 with _ | x <;> rcases hh : h 0 with _ | y <;>
      simp [VersionedRows.newest, ho, hh, newerRow]
  | succ n ih =>
    rcases ho : o (n + 1) with _ | x
    · rcases hh : h (n + 1) with _ | y
      · simpa [VersionedRows.newest, ho, hh] using ih
      -- the overlay's newest row is older
      rcases hold : VersionedRows.newest o n with _ | ⟨v, x⟩
      · simp [VersionedRows.newest, ho, hh, hold, newerRow]
      · have hle := (newest_eq_some.1 hold).1
        have hlt : ¬ n + 1 ≤ v := by omega
        simp [VersionedRows.newest, ho, hh, hold, newerRow, hlt]
    · rcases hnew : VersionedRows.newest h (n + 1) with _ | ⟨v, y⟩
      · simp [VersionedRows.newest, ho, newerRow]
      · have hle := (newest_eq_some.1 hnew).1
        simp [VersionedRows.newest, ho, newerRow, hle]

variable [DecidableEq K]

/-- The accesses of a thread alone whose I/O succeeds. -/
abbrev undisturbed : Discipline (Store K) Env (Access K) Response :=
  .alone (fun e => serve 0 { e with io := .done }) fun _ _ => True

variable {s : Store K}

theorem scanHistoryNewest_spec (k : K) (n : Nat) :
    undisturbed.Answers (scanHistoryNewest k n)
      (some (VersionedRows.newest (s.history k) n)) s := by
  induction n with
  | zero =>
    refine Holds.bind (Holds.ask (fun _ => rfl) ?_) fun _ _ h => h
    rcases hrow : s.history k 0 with _ | x <;>
      exact Holds.pure ⟨rfl, by simp [VersionedRows.newest, hrow]⟩
  | succ n ih =>
    unfold scanHistoryNewest
    rw [range_succ, Prog.foldM_append]
    refine ih.bind ?_
    rintro _ _ ⟨rfl, rfl⟩
    refine Holds.bind (Holds.ask (fun _ => rfl) ?_) fun _ _ h => h
    rcases hrow : s.history k (n + 1) with _ | x <;>
      exact Holds.pure ⟨rfl, by simp [VersionedRows.newest, hrow]⟩

/-- The slot-by-slot search of the model finds what the range scan of the physical log
finds. -/
theorem scanHistoryNewest_physical (s : Store Bytes) (log : VersionCodec.PhysicalLog) (k : Bytes)
    (n : UInt64) :
    undisturbed.Answers (scanHistoryNewest k n.toNat) (some (log.scanHistoryNewest k n.toNat))
      { s with history := log.table } := by
  refine Holds.imp (scanHistoryNewest_spec k n.toNat) ?_
  rintro r t ⟨rfl, rfl⟩
  rw [log.scanHistoryNewest_eq k n.toNat_lt]
  exact ⟨rfl, rfl⟩

theorem readNewest_spec (k : K) (n : Nat) :
    undisturbed.Answers (readNewest k n)
      (some ((VersionedRows.newest (visibleRow s k) n).bind fun row => liveValue row.2)) s := by
  refine Holds.ask (fun _ => rfl) ?_
  refine (scanHistoryNewest_spec k n).seq ?_
  refine Holds.pure ⟨rfl, ?_⟩
  rw [newerRow_newest]
  rfl

omit [DecidableEq K] in
/-- With the cell at or below `n`, rows of the key between the two are not committed. -/
theorem newest_above_cell {k : K} {n : Nat} (h : Inv s) (hrows : RowsCommitted s k n)
    (hpos : 0 < s.currentVersion k) {v : Nat} (hlt : s.currentVersion k < v) (hv : v ≤ n) :
    visibleRow s k v = none := by
  by_contra hne
  have hcommitted : Committed s k v := by
    refine ⟨hrows v hv hne, ?_⟩
    rcases ho : s.overlay k v with _ | x
    · obtain ⟨x, hx⟩ := ne_none_iff_exists'.1 (by simpa [visibleRow, ho] using hne)
      exact ⟨x, (h.historyRow k v x hx).1⟩
    · exact ⟨x, (h.overlayRow k v x ho).1⟩
  rcases h.cell k v hcommitted with hle | ⟨hzero, -⟩ <;> omega

/-- **The read in one state**: with no row between `cur` and `n`, it finds the newest row at
or below `n`. -/
theorem resolveRead_spec {k : K} {cur : Nat}
    (hcell : 0 < cur → ∀ v, cur < v → v ≤ n → visibleRow s k v = none) :
    undisturbed.Answers (resolveRead k n cur)
      (some ((VersionedRows.newest (visibleRow s k) n).bind fun row => liveValue row.2)) s := by
  unfold resolveRead
  split
  · rename_i hcur
    have habove := hcell hcur.1
    -- a row at the cell's version is the newest one
    have hhit : ∀ x, visibleRow s k cur = some x →
        VersionedRows.newest (visibleRow s k) n = some (cur, x) :=
      fun x hx => newest_eq_some.2 ⟨hcur.2, hx, habove⟩
    refine Holds.ask (fun _ => rfl) ?_
    rcases ho : s.overlay k cur with _ | x
    · refine Holds.ask (fun _ => rfl) ?_
      rcases hh : s.history k cur with _ | x
      · -- no row at the cell's version: the search goes on below it
        refine Holds.imp (readNewest_spec k _) ?_
        rintro r _ ⟨rfl, hr⟩
        refine ⟨rfl, hr.trans ?_⟩
        have hcell : visibleRow s k cur = none := by simp [visibleRow, ho, hh]
        congr 2
        rcases hnew : VersionedRows.newest (visibleRow s k) n with _ | ⟨v, x⟩
        · rw [newest_eq_none] at hnew ⊢
          exact fun v hv => hnew v (by omega)
        rw [newest_eq_some] at hnew ⊢
        obtain ⟨hv, hx, hnone⟩ := hnew
        have hvc : v < cur := by
          by_contra hge
          rcases Nat.lt_or_eq_of_le (Nat.not_lt.1 hge) with hlt | heq
          · exact absurd (hx.symm.trans (habove v hlt hv)) (by simp)
          · exact absurd (hx.symm.trans (heq ▸ hcell)) (by simp)
        exact ⟨by omega, hx, fun w hw hwn => hnone w hw (by omega)⟩
      · refine Holds.pure ⟨rfl, ?_⟩
        rw [hhit x (by simp [visibleRow, ho, hh])]
        rfl
    · refine Holds.pure ⟨rfl, ?_⟩
      rw [hhit x (by simp [visibleRow, ho])]
      rfl
  · exact readNewest_spec k n

omit [DecidableEq K] in
theorem RowsCommitted.newest_eq {k : K} {n : Nat} (h : RowsCommitted s k n) :
    VersionedRows.newest (visibleRow s k) n = VersionedRows.newest (committedRow s k) n := by
  refine newest_congr fun v hv => ?_
  unfold committedRow
  split
  · rfl
  · by_contra hne
    exact absurd (h v hv hne) ‹_›

/-! ## Every reachable state -/

instance (s : Store K) (k : K) (v : Nat) : Decidable (Committed s k v) :=
  decidable_of_iff (s.completion.outcome v = some .materialized ∧ k ∈ (s.writes v).map Prod.fst)
    (by simp [Committed])

instance (a : Access K) (s : Store K) : Decidable (SeedsNewest a s) := by
  casesm Access K
  case seedCell k v =>
    exact inferInstanceAs
      (Decidable (s.currentVersion k = 0 → ∀ w ≤ s.counter, Committed s k w → w ≤ v))
  all_goals exact .isTrue trivial

/-- **Reads at a version are right.**  In every state reachable by any interleaving of the
calls in which no empty cell is seeded below a committed version of its key, a read of any
key at a version up to the watermark returns the newest committed value at or below it.
Above the watermark the same holds as long as the key's rows up to the version are
committed. -/
theorem resolveRead_newest_committed (retention : Retention) (receiptNative : Bool)
    (es : List (Event (Op K) Env))
    (hes : Machine.Along poolStep (Meets SeedsNewest) (start retention receiptNative) es)
    (k : K) (n : Nat) (env : Nat → Env)
    (hn : n ≤ (run poolStep (start retention receiptNative) es).shared.completion.watermark ∨
      RowsCommitted (run poolStep (start retention receiptNative) es).shared k n) :
    ((resolveRead k n
      ((run poolStep (start retention receiptNative) es).shared.currentVersion k)).exec
        (serve 0) (fun j => { env j with io := .done })
        (run poolStep (start retention receiptNative) es).shared).1 =
      some (valueAt (run poolStep (start retention receiptNative) es).shared k n) := by
  have hinv := inv_run (fun _ _ _ h => h) retention receiptNative hes
  generalize (run poolStep (start retention receiptNative) es).shared = s at hn hinv
  have hrows : RowsCommitted s k n := hn.elim (hinv.rowsCommitted k) id
  rw [Prog.exec_comap (serve 0) (fun e : Env => { e with io := .done }) _ env s]
  refine ((resolveRead_spec fun hpos v hlt hv => newest_above_cell hinv hrows hpos hlt hv).exec
    ?_).2.trans ?_
  · exact Prog.execMeets_true _ _ _
  · rw [hrows.newest_eq]
    rfl

/-- One commit run to its end. -/
def commitRun (i : Nat) (set : WriteSet Bool) : List (Event (Op Bool) Env) :=
  .call (.commitTx set) :: replicate 13 (.exec i ⟨.done, 5, 0, 1, false⟩)

/-- Two commits of one key and one of the other. -/
def threeCommits : List (Event (Op Bool) Env) :=
  commitRun 0 ⟨[(false, [1])], (by decide : [false].Nodup)⟩ ++ commitRun 1 ⟨[(false, [2])], by decide⟩ ++
    commitRun 2 ⟨[(true, [3])], by decide⟩

/-- The cell of the first key is evicted, and a drain pass seeds it with the first version. -/
def evictedAndSeeded : List (Event (Op Bool) Env) :=
  threeCommits ++ .call (.pruneVersionCache [false]) ::
    replicate 4 (.exec 3 ⟨.done, 5, 0, 1, false⟩) ++ .call (.drainStep []) ::
    replicate 11 (.exec 4 ⟨.done, 5, 0, 1, false⟩)

/-- A drain pass in flight, without an eviction. -/
def drainedOnly : List (Event (Op Bool) Env) :=
  threeCommits ++ .call (.drainStep []) :: replicate 11 (.exec 3 ⟨.done, 5, 0, 1, false⟩)

theorem resolveRead_newest_committed_drain :
    ((resolveRead false 3 ((run poolStep (start .currentOnly false)
        drainedOnly).shared.currentVersion false)).exec (serve 0) (fun _ => ⟨.done, 5, 0, 1, false⟩)
        (run poolStep (start .currentOnly false) drainedOnly).shared).1 = some (some [2]) := by
  have hvalue : valueAt (run poolStep (start .currentOnly false) drainedOnly).shared false 3 =
      some [2] := by decide +kernel
  rw [← hvalue]
  exact resolveRead_newest_committed .currentOnly false drainedOnly (by decide +kernel) false 3
    (fun _ => ⟨.done, 5, 0, 1, false⟩) (Or.inl (by decide +kernel))

/-- After the eviction, the read at version 3, which is at the watermark, returns the value
of version 1 although version 2 is committed. -/
theorem stale_read :
    (run poolStep (start .currentOnly false) evictedAndSeeded).shared.completion.watermark = 3 ∧
      valueAt (run poolStep (start .currentOnly false) evictedAndSeeded).shared false 3 =
        some [2] ∧
      ((resolveRead false 3 ((run poolStep (start .currentOnly false)
        evictedAndSeeded).shared.currentVersion false)).exec (serve 0)
        (fun _ => ⟨.done, 5, 0, 1, false⟩)
        (run poolStep (start .currentOnly false) evictedAndSeeded).shared).1 =
          some (some [1]) := by
  decide +kernel

end ShamirDb.Mvcc
