/-
# Resolving a timestamp to a version

The log has a row with the commit timestamp of each version.  `version_at_or_before_ts`
does not scan them: it asks an index in memory, which the first question after an open
builds from the rows, and which every write, drain and reclaim then changes after the rows.
This file runs them one after the other, a batch version by version, and shows when the
index answers as a scan would.

The model is sequential: no write falls between the rows and the index entries of another, and
none into a rebuild.  A replay of recovery is a `record` after the `reopen`; it may stamp a
version again, with another timestamp, before the index is built.
-/
import ShamirDb.Machine
import ShamirDb.MvccStore

namespace ShamirDb.TimestampIndex

open Mvcc (Io)
open List Option Machine

/-- The rows hold a version and its timestamp, the entries of the index a timestamp and its
version. -/
structure Store where
  rows : List (Nat × Nat)
  tsIndex : List (Nat × Nat)
  tsIndexReady : Bool

def Store.empty : Store := ⟨[], [], false⟩

/-- `lookup_ts`, which answers `none` when the read fails. -/
def lookupTs (rows : List (Nat × Nat)) (v : Nat) (readable : Bool) : Option Nat :=
  if readable then (rows.find? (·.1 = v)).map Prod.snd else none

def tsIndexQuery (s : Store) (t : Nat) : Option Nat :=
  ((s.tsIndex.filter (·.1 ≤ t)).map Prod.snd).max?

/-- `ts_index_rebuild`; its scan fails after `broken` rows, if that is a number. -/
def tsIndexRebuild (s : Store) (broken : Option Nat) : Store :=
  { s with
    tsIndex := (s.rows.take (broken.getD s.rows.length)).map Prod.swap ++ s.tsIndex
    tsIndexReady := broken.isNone }

/-- `version_at_or_before_ts`; the outer `none` is the error of a failed rebuild. -/
def versionAtOrBeforeTs (s : Store) (t : Nat) (broken : Option Nat) :
    Store × Option (Option Nat) :=
  let s := if s.tsIndexReady then s else tsIndexRebuild s broken
  (s, if s.tsIndexReady then some (tsIndexQuery s t) else none)

/-- `version_at_or_before_ts_scan`. -/
def versionAtOrBeforeTsScan (rows : List (Nat × Nat)) (t : Nat) : Option Nat :=
  ((rows.filter (·.2 ≤ t)).map Prod.fst).max?

inductive Event where
  /-- A version of a write or of a drain pass, and its timestamp. -/
  | record (v ts : Nat) (io : Io)
  /-- A version `vacuum_key`, `gc_below` or `purge_below_ts` removes, and whether `lookup_ts`
  could read its row; or one of a failed write that is compensated, without `lookup_ts`. -/
  | reclaim (v : Nat) (readable : Bool) (io : Io)
  | ask (t : Nat) (broken : Option Nat)
  | reopen

/-- The rows after the `transact` of an event, and then the index. -/
def step (s : Store) : Event → Store
  | .record v ts io =>
    let rows := (v, ts) :: s.rows.filter (·.1 ≠ v)
    match io with
    | .done => { s with rows := rows, tsIndex := (ts, v) :: s.tsIndex }
    | .failed => s
    | .failedApplied => { s with rows := rows }
  | .reclaim v readable io =>
    let rows := s.rows.filter (·.1 ≠ v)
    match io with
    | .done =>
      { s with rows := rows, tsIndex := s.tsIndex.filter fun e =>
          ¬(e.2 = v ∧ lookupTs s.rows v readable = some e.1) }
    | .failed => s
    | .failedApplied => { s with rows := rows }
  | .ask t broken => (versionAtOrBeforeTs s t broken).1
  | .reopen => { s with tsIndex := [], tsIndexReady := false }

/-- No version with an entry in the index gets a second timestamp, a `transact` that reports a
failure has done nothing, and `lookup_ts` can read a row that goes. -/
def Orderly (s : Store) : Event → Prop
  | .record v ts io => io ≠ .failedApplied ∧ ∀ e ∈ s.tsIndex, e.2 = v → e.1 = ts
  | .reclaim v readable io => io ≠ .failedApplied ∧ (readable = true ∨ ∀ p ∈ s.rows, p.1 ≠ v)
  | _ => True

instance (s : Store) (e : Event) : Decidable (Orderly s e) := by
  cases e <;> unfold Orderly <;> infer_instance

structure Agrees (s : Store) : Prop where
  single : ∀ p ∈ s.rows, ∀ q ∈ s.rows, p.1 = q.1 → p = q
  sound : ∀ e ∈ s.tsIndex, e.swap ∈ s.rows
  complete : s.tsIndexReady = true → ∀ p ∈ s.rows, p.swap ∈ s.tsIndex

variable {s : Store} {p : Nat × Nat} {v ts : Nat}

section

variable (h : Agrees s)
include h

/-- A version is stamped; the index has no other timestamp for it. -/
theorem Agrees.record (hts : ∀ e ∈ s.tsIndex, e.2 = v → e.1 = ts) :
    Agrees (step s (.record v ts .done)) := by
  have hmem : ∀ q, q ∈ (v, ts) :: s.rows.filter (·.1 ≠ v) ↔
      q = (v, ts) ∨ q ∈ s.rows ∧ q.1 ≠ v := by
    simp
  refine ⟨fun p hp q hq heq => ?_, fun e he => ?_, fun hready p hp => ?_⟩
  · rw [step] at hp hq
    have := h.single
    grind
  · rw [step, hmem]
    rcases mem_cons.1 he with rfl | he
    · exact .inl rfl
    · by_cases hv : e.2 = v
      · exact .inl (Prod.ext hv (hts e he hv))
      · exact .inr ⟨h.sound e he, hv⟩
  · rw [step, hmem] at hp
    rcases hp with rfl | ⟨hp, -⟩
    · exact mem_cons_self
    · exact mem_cons_of_mem _ (h.complete hready p hp)

/-- A stored row is found. -/
theorem Agrees.lookupTs (hp : p ∈ s.rows) : lookupTs s.rows p.1 true = some p.2 := by
  obtain ⟨q, hq⟩ : ∃ q, s.rows.find? (·.1 = p.1) = some q :=
    isSome_iff_exists.1 (find?_isSome.2 ⟨p, hp, by simp⟩)
  have hv : q.1 = p.1 := by simpa using find?_some hq
  simp [TimestampIndex.lookupTs, hq, h.single q (mem_of_find?_eq_some hq) p hp hv]

/-- A row is reclaimed. -/
theorem Agrees.reclaim {readable : Bool} (hread : readable = true ∨ ∀ p ∈ s.rows, p.1 ≠ v) :
    Agrees (step s (.reclaim v readable .done)) := by
  refine ⟨fun p hp q hq => ?_, fun e he => ?_, fun hready p hp => ?_⟩
  · exact h.single p (mem_filter.1 hp).1 q (mem_filter.1 hq).1
  · obtain ⟨he, hkept⟩ := mem_filter.1 he
    have hrow := h.sound e he
    refine mem_filter.2 ⟨hrow, decide_eq_true ?_⟩
    rintro rfl
    have hreadable := hread.resolve_right fun hno => hno _ hrow rfl
    exact of_decide_eq_true hkept ⟨rfl, hreadable ▸ h.lookupTs hrow⟩
  · obtain ⟨hrow, hne⟩ := mem_filter.1 hp
    exact mem_filter.2 ⟨h.complete hready p hrow,
      decide_eq_true fun hgone => of_decide_eq_true hne hgone.1⟩

/-- The index is rebuilt. -/
theorem Agrees.rebuild (broken : Option Nat) : Agrees (tsIndexRebuild s broken) := by
  refine ⟨h.single, fun e he => ?_, fun hdone p hp => ?_⟩
  · rcases mem_append.1 he with he | he
    · obtain ⟨p, hp, rfl⟩ := mem_map.1 he
      exact mem_of_mem_take hp
    · exact h.sound e he
  · obtain rfl := isNone_iff_eq_none.1 hdone
    exact mem_append_left _ (mem_map_of_mem (by simpa [tsIndexRebuild] using hp))

/-- A query rebuilds at most. -/
theorem Agrees.ask (t : Nat) (broken : Option Nat) : Agrees (versionAtOrBeforeTs s t broken).1 := by
  dsimp only [versionAtOrBeforeTs]
  split
  · exact h
  · exact h.rebuild broken

/-- Every orderly step. -/
theorem Agrees.step {e : Event} (ho : Orderly s e) : Agrees (step s e) := by
  cases e with
  | record v ts io =>
    cases io with
    | done => exact h.record ho.2
    | failed => exact h
    | failedApplied => exact absurd rfl ho.1
  | reclaim v readable io =>
    cases io with
    | done => exact h.reclaim ho.2
    | failed => exact h
    | failedApplied => exact absurd rfl ho.1
  | ask t broken => exact h.ask t broken
  | reopen => exact ⟨h.single, by simp [TimestampIndex.step], by simp [TimestampIndex.step]⟩

/-- A ready index answers as the scan. -/
theorem Agrees.query (hready : s.tsIndexReady = true) (t : Nat) :
    tsIndexQuery s t = versionAtOrBeforeTsScan s.rows t := by
  have hmem : ∀ v, v ∈ (s.tsIndex.filter (·.1 ≤ t)).map Prod.snd ↔
      v ∈ (s.rows.filter (·.2 ≤ t)).map Prod.fst := by
    intro v
    simp only [List.mem_map, mem_filter]
    constructor
    · rintro ⟨e, ⟨he, ht⟩, rfl⟩
      exact ⟨e.swap, ⟨h.sound e he, ht⟩, rfl⟩
    · rintro ⟨p, ⟨hp, ht⟩, rfl⟩
      exact ⟨p.swap, ⟨h.complete hready p hp, ht⟩, rfl⟩
  refine ext fun v => ?_
  simp only [tsIndexQuery, versionAtOrBeforeTsScan, max?_eq_some_iff, hmem]

end

/-- **Timestamps resolve as a scan resolves them.**  After every sequence of orderly steps,
a question gets an error or the greatest version whose timestamp is not above `t`; if the
timestamps of the rows are in the order of the versions, it has the greatest timestamp up to
`t`. -/
theorem version_at_or_before_ts_eq_scan (es : List Event)
    (hes : Machine.Along step Orderly .empty es) (t : Nat) (broken : Option Nat) :
    let s := run step .empty es
    (versionAtOrBeforeTs s t broken).2 = (if s.tsIndexReady ∨ broken = none then
        some (versionAtOrBeforeTsScan s.rows t) else none) ∧
      ((∀ p ∈ s.rows, ∀ q ∈ s.rows, p.1 ≤ q.1 → p.2 ≤ q.2) →
        ∀ v ∈ versionAtOrBeforeTsScan s.rows t, ∃ ts, (v, ts) ∈ s.rows ∧ ts ≤ t ∧
          ∀ q ∈ s.rows, q.2 ≤ t → q.2 ≤ ts) := by
  intro s
  have h : Agrees s := along_invariant (I := Agrees) (fun _ _ hs ho => hs.step ho)
    ⟨by simp [Store.empty], by simp [Store.empty], by simp [Store.empty]⟩ hes
  constructor
  · cases hready : s.tsIndexReady with
    | true => simp [versionAtOrBeforeTs, hready, h.query hready t]
    | false =>
      cases broken with
      | none => simpa [versionAtOrBeforeTs, hready, tsIndexRebuild] using (h.rebuild none).query rfl t
      | some n => simp [versionAtOrBeforeTs, hready, tsIndexRebuild]
  · intro horder v hv
    obtain ⟨hmem, hmax⟩ := max?_eq_some_iff.1 hv
    simp only [List.mem_map, mem_filter, decide_eq_true_eq] at hmem hmax
    obtain ⟨p, ⟨hp, ht⟩, rfl⟩ := hmem
    exact ⟨p.2, hp, ht, fun q hq hqt => horder q hq p hp (hmax q.1 ⟨q, ⟨hq, hqt⟩, rfl⟩)⟩

/-- Three writes of a key, a question, and the vacuum of the first version; `readable` is
whether its `lookup_ts` succeeds. -/
def vacuumed (readable : Bool) : List Event :=
  [.record 1 5 .done, .ask 5 none, .record 2 9 .done, .record 3 11 .done, .reclaim 1 readable .done]

/-- After the vacuum the index answers 9 with version 2, as a scan of the two rows left. -/
theorem version_at_or_before_ts_eq_scan_vacuumed :
    (versionAtOrBeforeTs (run step .empty (vacuumed true)) 9 none).2 = some (some 2) :=
  (version_at_or_before_ts_eq_scan (vacuumed true) (by decide) 9 none).1

/-- The row of version 1 is gone, but its timestamp could not be read: the index keeps it. -/
theorem version_at_or_before_ts_outlives_row :
    (versionAtOrBeforeTs (run step .empty (vacuumed false)) 5 none).2 = some (some 1) ∧
      versionAtOrBeforeTsScan (run step .empty (vacuumed false)).rows 5 = none := by
  decide

end ShamirDb.TimestampIndex
