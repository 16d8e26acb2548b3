/-
# The segment set under failing system calls

Any write may fail after any prefix of its bytes, any rollback may fail, any fsync may
fail.  `append_batch` answers by poisoning the segment, rotating it out and retrying
once.  A segment that is rotated out is never repaired again: repair runs on the highest
segment only, and sealed segments replay strictly.  So the acknowledged batches survive
a later open as long as every segment that is rotated out ends on a frame boundary; a
failed rollback of a partial write breaks that.
-/
import ShamirDb.SegmentOpen

namespace ShamirDb.SegmentSet

open Function

variable {Body : Type} (crc : Bytes → UInt32) (bincode : Bincode Body)

open WalSegment Machine

/-! ## Runs of appends -/

/-- One `append_batch` call with what its system calls do. -/
structure Append where
  payloads : List Bytes
  maxVersion : UInt64
  faults : AppendFaults
  deriving DecidableEq

/-- The call on a set. -/
def Append.call (a : Append) (set : SegmentSet) : DbResult Nat × SegmentSet :=
  set.appendBatch crc bincode a.faults a.payloads a.maxVersion

def appendStep (set : SegmentSet) (a : Append) : SegmentSet := (a.call crc bincode set).2

/-- The batches whose append returned `Ok`, in order. -/
def acked : SegmentSet → List Append → List (List Bytes)
  | _, [] => []
  | set, a :: as =>
    match (a.call crc bincode set).1 with
    | .ok _ => a.payloads :: acked (appendStep crc bincode set a) as
    | .error _ => acked (appendStep crc bincode set a) as

/-- The set over an empty directory. -/
def fresh (dir : String) (maxBytes : Nat) : SegmentSet :=
  ⟨dir, maxBytes, [], WalSegment.open (segPath dir 0) [], 0, [], fun _ => none⟩

/-- The file ends on a frame boundary: repair would not cut anything off. -/
def Clean (file : Bytes) : Prop := repairLoop crc "" file (file.length + 1) 0 = .ok none

instance (file : Bytes) : Decidable (Clean crc file) :=
  inferInstanceAs (Decidable (_ = _))

/-- The set the first attempt of `append_batch` runs on. -/
def unpoisoned (set : SegmentSet) : SegmentSet :=
  if set.active.poisoned then set.rotateAfterPoison else set

/-- The active segment after the first attempt. -/
def firstAttempt (set : SegmentSet) (a : Append) : WalSegment :=
  (set.unpoisoned.active.appendBatch crc bincode a.faults.write a.payloads a.maxVersion).2

/-- Every poisoned segment this call rotates out ends on a frame boundary. -/
def RotatesClean (set : SegmentSet) (a : Append) : Prop :=
  (set.active.poisoned = true → Clean crc set.active.file) ∧
    ((firstAttempt crc bincode set a).poisoned = true →
      Clean crc (firstAttempt crc bincode set a).file)

instance (set : SegmentSet) (a : Append) : Decidable (RotatesClean crc bincode set a) :=
  inferInstanceAs (Decidable (_ ∧ _))

/-- One batch of one entry whose first write stops after `written` bytes and whose
rollback does what `rollback` says; the retry on the next segment succeeds. -/
def retriedAppend (written : Nat) (rollback : Bool) : Append :=
  ⟨[WalEntryV2.sample 7], 7, ⟨.fails written rollback, true, true, .ok⟩⟩

/-! ## Segments with a torn tail -/

/-- The segment holds the frames of `entries`, and a torn frame only if it is
poisoned. -/
def Sound (seg : WalSegment) (entries : List (WalEntryV2 Body)) : Prop :=
  ∃ payloads torn, seg.file = frames crc payloads ++ torn ∧ EncodesAll bincode payloads entries ∧
    Torn crc torn ∧ (seg.poisoned = false → torn = [] ∧ seg.bytesWritten = seg.file.length)

/-- An empty segment is sound. -/
theorem sound_open_nil (path : String) : Sound crc bincode (WalSegment.open path []) [] :=
  ⟨[], [], rfl, .nil, torn_nil, fun _ => ⟨rfl, rfl⟩⟩

variable {crc bincode}

variable {entries : List (WalEntryV2 Body)} {set : SegmentSet} {seg : WalSegment}

section

variable (h : Sound crc bincode seg entries)
include h

/-- A sound segment without leftovers is whole. -/
theorem Sound.whole (hclean : seg.poisoned = true → Clean crc seg.file) :
    WholeFile crc bincode seg.file entries := by
  obtain ⟨payloads, torn, hfile, henc, htorn, hok⟩ := h
  have hnil : torn = [] := by
    cases hp : seg.poisoned with
    | false => exact (hok hp).1
    | true =>
      -- repair of a torn file cuts it, so a clean file has no torn frame
      have hle := length_le_length_frames crc payloads
      have hrepair := repairLoop_frames "" henc.length_le htorn []
        ((frames crc payloads ++ torn).length + 1) (by simp; omega)
      have hc := hclean hp
      rw [hfile] at hc
      rw [List.nil_append, List.length_nil, hc] at hrepair
      by_contra hne
      simp [hne] at hrepair
  exact ⟨payloads, by simpa [hnil] using hfile, henc⟩

/-- A poisoned segment is still sound. -/
theorem Sound.poison :
    Sound crc bincode { seg with poisoned := true } entries := by
  obtain ⟨payloads, torn, hfile, henc, htorn, -⟩ := h
  exact ⟨payloads, torn, hfile, henc, htorn, by simp⟩

/-- **One write.**  Whatever the write does, the segment keeps its entries and gains some
of the batch; a successful append gains all of it and leaves the segment healthy. -/
theorem Sound.append (hpois : seg.poisoned = false) (write : WriteOutcome) (payloads : List Bytes)
    (maxVersion : UInt64) :
    ∃ kept, Sound crc bincode (seg.appendBatch crc bincode write payloads maxVersion).2
        (entries ++ kept) ∧
      ∀ n, (seg.appendBatch crc bincode write payloads maxVersion).1 = .ok n →
        (seg.appendBatch crc bincode write payloads maxVersion).2.poisoned = false ∧
          EncodesAll bincode payloads kept := by
  by_cases hdec : ∃ more, EncodesAll bincode payloads more
  swap
  · obtain ⟨e, hrej⟩ := appendBatch_rejected crc seg hdec write maxVersion
    exact ⟨[], by simpa [hrej] using h, by simp [hrej]⟩
  obtain ⟨more, hmore⟩ := hdec
  obtain ⟨old, torn, hfile, henc, htorn, hok⟩ := h
  obtain ⟨rfl, hbytes⟩ := hok hpois
  have hwrite : write = .ok ∨ payloads = [] ∨
      (payloads ≠ [] ∧ ∃ written rollback, write = .fails written rollback) := by
    cases write with
    | ok => exact .inl rfl
    | fails written rollback =>
      by_cases hne : payloads = []
      · exact .inr (.inl hne)
      · exact .inr (.inr ⟨hne, written, rollback, rfl⟩)
  have hgood : ∃ kept, Sound crc bincode (seg.appendBatch crc bincode .ok payloads maxVersion).2
      (entries ++ kept) ∧ ∀ n, (seg.appendBatch crc bincode .ok payloads maxVersion).1 = .ok n →
        (seg.appendBatch crc bincode .ok payloads maxVersion).2.poisoned = false ∧
          EncodesAll bincode payloads kept := by
    obtain ⟨n, happend⟩ := appendBatch_ok crc hpois hmore maxVersion
    rw [happend]
    refine ⟨more, ⟨old ++ payloads, [], by simp [hfile], List.rel_append henc hmore, torn_nil,
      fun _ => ⟨rfl, by simp [hbytes]⟩⟩, fun _ _ => ⟨hpois, hmore⟩⟩
  rcases hwrite with rfl | rfl | ⟨hne, written, rollback, rfl⟩
  · exact hgood
  · exact hgood
  rw [appendBatch_fails crc hpois hne hmore]
  obtain ⟨torn, htorn, htake⟩ := take_frames hmore.length_le written
  cases rollback with
  | true =>
    refine ⟨[], ⟨old, [], ?_, by simpa using henc, torn_nil, by simp⟩, by simp⟩
    simp [hbytes, hfile]
  | false =>
    obtain ⟨kept, hkept⟩ := encodesAll_of_prefix ⟨more, hmore⟩
      (framesWithin_isPrefix written payloads)
    refine ⟨kept, ⟨old ++ framesWithin written payloads, torn, ?_, List.rel_append henc hkept,
      htorn, by simp⟩, by simp⟩
    simp [hfile, htake]

end

/-! ## The set -/

variable (crc bincode)

/-- The set holds `entries`: every closed file is whole, the active segment is sound, and
no segment from the active one on has a sidecar. -/
structure Stored (set : SegmentSet) (entries : List (WalEntryV2 Body)) : Prop where
  aligned : set.Aligned
  noMeta : ∀ seq, set.activeSeq ≤ seq → set.metas seq = none
  files : ∃ older last, WholeFiles crc bincode set.closed older ∧
    Sound crc bincode set.active last ∧ entries = older.flatten ++ last

variable {crc bincode}

/-- A fresh set stores nothing. -/
theorem stored_fresh (dir : String) (maxBytes : Nat) : Stored crc bincode (fresh dir maxBytes) [] :=
  ⟨⟨rfl, by simp [fresh]⟩, fun _ _ => rfl, [], [], .nil, sound_open_nil crc bincode _, rfl⟩

section

variable (h : Stored crc bincode set entries)
include h

/-- The active segment gets more entries. -/
theorem Stored.setActive (active : WalSegment)
    (kept : List (WalEntryV2 Body))
    (hactive : ∀ last, Sound crc bincode set.active last → Sound crc bincode active (last ++ kept)) :
    Stored crc bincode { set with active } (entries ++ kept) := by
  obtain ⟨older, last, hfiles, hsound, rfl⟩ := h.files
  exact ⟨⟨h.aligned.seqs, h.aligned.ascending⟩, h.noMeta, older, last ++ kept, hfiles,
    hactive last hsound, by simp⟩

section

variable (hclean : set.active.poisoned = true → Clean crc set.active.file)
include hclean

/-- **Rotation.**  A segment that ends on a frame boundary can be swapped out, under any
record with its number. -/
theorem Stored.swap (sealed : SealedMeta) (hseq : sealed.seq = set.activeSeq) :
    Stored crc bincode (set.swap sealed) entries := by
  obtain ⟨older, last, hfiles, hsound, rfl⟩ := h.files
  exact ⟨h.aligned.swap hseq, fun seq hle => h.noMeta seq (Nat.le_of_succ_le hle), older ++ [last],
    [], List.rel_append hfiles (.cons (hsound.whole hclean) .nil), sound_open_nil crc bincode _,
    by simp⟩

/-- A poisoned segment is sealed. -/
theorem Stored.rotateAfterPoison : Stored crc bincode set.rotateAfterPoison entries := by
  have hcleaned : Stored crc bincode
      { set with metas := update set.metas set.activeSeq none } entries := by
    refine ⟨⟨h.aligned.seqs, h.aligned.ascending⟩, fun seq hle => ?_, h.files⟩
    by_cases hs : seq = set.activeSeq
    · simp [hs]
    · simpa [update_of_ne hs] using h.noMeta seq hle
  exact hcleaned.swap hclean _ rfl

/-- Then the active segment is healthy. -/
theorem Stored.unpoisoned :
    Stored crc bincode set.unpoisoned entries ∧ set.unpoisoned.active.poisoned = false := by
  unfold SegmentSet.unpoisoned
  split
  · exact ⟨h.rotateAfterPoison hclean, rfl⟩
  · exact ⟨h, by simpa using ‹¬set.active.poisoned = true›⟩

end

/-- Sealing a healthy segment keeps the entries, whether its fsync and its sidecar write
succeed or not. -/
theorem Stored.sealAndRotate (hpois : set.active.poisoned = false) (syncOk sidecarOk : Bool) :
    Stored crc bincode (set.sealAndRotate crc syncOk sidecarOk).2 entries := by
  unfold SegmentSet.sealAndRotate
  split
  · exact h
  cases syncOk with
  | false =>
    have := h.setActive { set.active with poisoned := true } []
      fun last hlast => by simpa using hlast.poison
    simpa [WalSegment.sync] using this
  | true =>
    have hswap := h.swap (by simp [hpois]) set.sealRecord rfl
    simp only [WalSegment.sync, if_true]
    split
    · refine ⟨⟨hswap.aligned.seqs, hswap.aligned.ascending⟩, fun seq hle => ?_, hswap.files⟩
      have hne : seq ≠ set.sealRecord.seq := by
        have : set.activeSeq + 1 ≤ seq := hle
        simp only [sealRecord]
        omega
      simpa [writeSidecar, update_of_ne hne] using hswap.noMeta seq hle
    · exact hswap

/-- **One append.**  If the segments it rotates out end on a frame boundary, the set keeps
its entries, and a batch that is acknowledged is stored after them. -/
theorem Stored.append {a : Append} (hclean : RotatesClean crc bincode set a) :
    ∃ extra, Stored crc bincode (appendStep crc bincode set a) (entries ++ extra) ∧
      ∀ n, (a.call crc bincode set).1 = .ok n →
        ∃ more, EncodesAll bincode a.payloads more ∧ more.Sublist extra := by
  obtain ⟨hstored, hpois⟩ := h.unpoisoned hclean.1
  obtain ⟨older, last, hfiles, hsound, rfl⟩ := hstored.files
  obtain ⟨kept, hkept, hfirst⟩ := hsound.append hpois a.faults.write a.payloads a.maxVersion
  have hwritten : Stored crc bincode
      { set.unpoisoned with active := firstAttempt crc bincode set a }
      (older.flatten ++ last ++ kept) :=
    ⟨⟨hstored.aligned.seqs, hstored.aligned.ascending⟩, hstored.noMeta, older, last ++ kept, hfiles,
      hkept, by simp⟩
  have hclean' := hclean.2
  simp only [appendStep, Append.call, SegmentSet.appendBatch]
  rw [← SegmentSet.unpoisoned, appendActive]
  simp only [firstAttempt] at hwritten hclean'
  generalize set.unpoisoned.active.appendBatch crc bincode a.faults.write a.payloads
    a.maxVersion = first at hwritten hclean' hfirst
  obtain ⟨result, active⟩ := first
  cases result with
  | ok n =>
    obtain ⟨hhealthy, henc⟩ := hfirst n rfl
    simp only at hhealthy ⊢
    split
    · have hseal := hwritten.sealAndRotate hhealthy a.faults.syncOk a.faults.sidecarOk
      generalize ({ set.unpoisoned with active } : SegmentSet).sealAndRotate crc
        a.faults.syncOk a.faults.sidecarOk = rotated at hseal
      obtain ⟨result, rotated⟩ := rotated
      refine ⟨kept, ?_, fun _ _ => ⟨kept, henc, List.Sublist.refl _⟩⟩
      cases result <;> exact hseal
    · exact ⟨kept, hwritten, fun _ _ => ⟨kept, henc, List.Sublist.refl _⟩⟩
  | error e =>
    simp only at hclean' ⊢
    split
    · -- the failed segment is rotated out and the whole batch is written again
      have hrot := hwritten.rotateAfterPoison hclean'
      generalize hset : ({ set.unpoisoned with active } : SegmentSet).rotateAfterPoison
        = rotated at hrot
      have hhealthy : rotated.active.poisoned = false := by rw [← hset]; rfl
      obtain ⟨older', last', hfiles', hsound', heq⟩ := hrot.files
      obtain ⟨kept', hkept', hretry⟩ :=
        hsound'.append hhealthy a.faults.retryWrite a.payloads a.maxVersion
      refine ⟨kept ++ kept', ⟨⟨hrot.aligned.seqs, hrot.aligned.ascending⟩, hrot.noMeta, older',
        last' ++ kept', hfiles', hkept', ?_⟩, fun n hn => ⟨kept', (hretry n hn).2, ?_⟩⟩
      · rw [← List.append_assoc, heq, List.append_assoc]
      · exact List.sublist_append_right _ _
    · exact ⟨kept, hwritten, by simp⟩

/-- What a stored set shows after a later open: the directory opens and replays exactly
its entries. -/
theorem Stored.open_image (dir : String) (maxBytes : Nat) :
    ∃ reopened, SegmentSet.open crc bincode dir maxBytes set.image = .ok reopened ∧
      reopened.replay crc bincode = .ok entries := by
  obtain ⟨older, last, hfiles, ⟨payloads, torn, hfile, henc, htorn, -⟩, rfl⟩ := h.files
  have hmeta : readMeta crc set.metas set.activeSeq = none := by
    simp [readMeta, h.noMeta set.activeSeq le_rfl]
  have hopen := open_active_replay dir maxBytes h.aligned.ascending hfiles henc htorn hmeta
  rwa [← hfile] at hopen

/-- The run lemma: acknowledged batches stay stored, in append order. -/
theorem Stored.run {as : List Append}
    (hclean : Along (appendStep crc bincode) (RotatesClean crc bincode) set as) :
    ∃ extra more, Stored crc bincode (run (appendStep crc bincode) set as) (entries ++ extra) ∧
      EncodesAll bincode (acked crc bincode set as).flatten more ∧ more.Sublist extra := by
  induction as generalizing set entries with
  | nil => exact ⟨[], [], by simpa using h, .nil, List.Sublist.refl _⟩
  | cons a as ih =>
    obtain ⟨extra, hstored, hacked⟩ := h.append hclean.1
    obtain ⟨extra', more', hstored', henc', hsub'⟩ := ih hstored hclean.2
    rw [List.append_assoc] at hstored'
    rw [acked]
    cases hcall : (a.call crc bincode set).1 with
    | ok n =>
      obtain ⟨more, henc, hsub⟩ := hacked n hcall
      exact ⟨extra ++ extra', more ++ more', hstored', List.rel_append henc henc', hsub.append hsub'⟩
    | error e =>
      exact ⟨extra ++ extra', more', hstored', henc', hsub'.trans (List.sublist_append_right _ _)⟩

end

variable (crc bincode)

/-- **Acknowledged batches survive faults.**  In every run of appends in which each
poisoned segment that is rotated out ends on a frame boundary, whatever writes, rollbacks
and fsyncs fail: a later open and replay succeed and return every batch whose append
returned `Ok`, in append order. -/
theorem open_returns_acked (dir : String) (maxBytes : Nat) (as : List Append)
    (hclean : Along (appendStep crc bincode) (RotatesClean crc bincode) (fresh dir maxBytes) as) :
    ∃ reopened entries more,
      SegmentSet.open crc bincode dir maxBytes
        (run (appendStep crc bincode) (fresh dir maxBytes) as).image = .ok reopened ∧
      reopened.replay crc bincode = .ok entries ∧
      EncodesAll bincode (acked crc bincode (fresh dir maxBytes) as).flatten more ∧
      more.Sublist entries := by
  obtain ⟨extra, more, hstored, henc, hsub⟩ := (stored_fresh dir maxBytes).run hclean
  obtain ⟨reopened, hopen, hreplay⟩ := hstored.open_image dir maxBytes
  exact ⟨reopened, _, more, hopen, hreplay, henc, by simpa using hsub⟩

/-- A failed write whose rollback succeeds meets the condition. -/
theorem open_returns_acked_retried :
    Along (appendStep crc32 Bincode.entries) (RotatesClean crc32 Bincode.entries) (fresh "wal" 4096)
        [retriedAppend 3 true] ∧
      ∃ reopened entries more,
        SegmentSet.open crc32 Bincode.entries "wal" 4096
          (run (appendStep crc32 Bincode.entries) (fresh "wal" 4096) [retriedAppend 3 true]).image =
            .ok reopened ∧
        reopened.replay crc32 Bincode.entries = .ok entries ∧
        EncodesAll Bincode.entries
          (acked crc32 Bincode.entries (fresh "wal" 4096) [retriedAppend 3 true]).flatten more ∧
        more.Sublist entries :=
  have hclean : Along (appendStep crc32 Bincode.entries) (RotatesClean crc32 Bincode.entries)
      (fresh "wal" 4096) [retriedAppend 3 true] := by decide +kernel
  ⟨hclean, open_returns_acked crc32 Bincode.entries "wal" 4096 _ hclean⟩

/-- When the rollback fails as well, the append still returns `Ok` from its retry, and
the three bytes left in the rotated segment make every later open fail. -/
theorem open_fails_after_failed_rollback :
    ((retriedAppend 3 false).call crc32 Bincode.entries (fresh "wal" 4096)).1 = .ok 0 ∧
      SegmentSet.open crc32 Bincode.entries "wal" 4096
          (appendStep crc32 Bincode.entries (fresh "wal" 4096) (retriedAppend 3 false)).image =
        .error (.storage
          "WalSegment replay (sealed) \"wal/00000000.wal\": incomplete frame header at byte offset 0") := by
  -- whatever the checksum, which is not computed here
  have himage : ∀ crc : Bytes → UInt32,
      (appendStep crc Bincode.entries (fresh "wal" 4096) (retriedAppend 3 false)).image =
        ⟨[(0, [74, 0, 0]), (1, frame crc (WalEntryV2.sample 7))],
          update (fun _ => none) 0 none⟩ := fun crc => rfl
  have hsealed : openOlder crc32 Bincode.entries "wal" (fun _ => none) [(0, [74, 0, 0])] =
      .error (.storage
        "WalSegment replay (sealed) \"wal/00000000.wal\": incomplete frame header at byte offset 0") := by
    decide +kernel
  refine ⟨by decide +kernel, ?_⟩
  rw [himage, SegmentSet.open, mergeSort_ascending (by simp)]
  simp [hsealed]

end ShamirDb.SegmentSet
