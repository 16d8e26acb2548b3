/-
# Opening and replaying a directory of segments

What `SegmentSet::open` and `replay` do on the directories a run can leave: every
segment below the highest holds whole frames, the highest holds whole frames and
possibly a torn one.  Both succeed there and return the entries in sequence order.
A tail of zero bytes is such a torn frame as long as it is shorter than a frame
header and checksum; eight zero bytes already read as an empty frame.
-/
import ShamirDb.SegmentSet
import ShamirDb.WalEntryCodec

namespace ShamirDb

open List Function

variable {Body : Type} (crc : Bytes → UInt32) (bincode : Bincode Body)

open WalSegment

/-! ## Whole files -/

/-- A file of whole frames, holding the given entries. -/
def WholeFile (file : Bytes) (entries : List (WalEntryV2 Body)) : Prop :=
  ∃ payloads, file = frames crc payloads ∧ EncodesAll bincode payloads entries

/-- Segment files of whole frames, with the entries each of them holds. -/
abbrev WholeFiles (files : List (Nat × Bytes)) (entries : List (List (WalEntryV2 Body))) : Prop :=
  List.Forall₂ (fun file es => WholeFile crc bincode file.2 es) files entries

variable {crc bincode} {file : Bytes}

/-- A file of whole frames is replayed. -/
theorem WholeFile.replayInner {entries : List (WalEntryV2 Body)}
    (h : WholeFile crc bincode file entries) (sealed : Bool) (path : String) :
    replayInner crc bincode sealed path file = .ok entries := by
  obtain ⟨payloads, rfl, henc⟩ := h
  simpa using replayInner_frames sealed path henc torn_nil (fun _ => rfl)

/-- A batch is appended to it. -/
theorem WholeFile.append {entries more : List (WalEntryV2 Body)} {payloads : List Bytes}
    (h : WholeFile crc bincode file entries) (hmore : EncodesAll bincode payloads more) :
    WholeFile crc bincode (file ++ frames crc payloads) (entries ++ more) := by
  obtain ⟨old, rfl, henc⟩ := h
  exact ⟨old ++ payloads, by simp, rel_append henc hmore⟩

/-- The empty file. -/
theorem wholeFile_nil : WholeFile crc bincode [] [] := ⟨[], rfl, .nil⟩

/-! ## Open -/

namespace SegmentSet

/-- Segment files listed in strictly ascending order. -/
abbrev Ascending (seqs : List Nat) : Prop := seqs.Pairwise (· < ·)

variable (crc) in
/-- The record `open` makes for a segment of the given entries. -/
def metaOf (metas : Nat → Option Bytes) (seq : Nat) (entries : List (WalEntryV2 Body)) :
    SealedMeta :=
  match readMeta crc metas seq with
  | some (maxVersion, some pinned) => ⟨seq, maxVersion, pinned, false⟩
  | _ => ⟨seq, (retentionSummary entries).1, (retentionSummary entries).2, false⟩

variable (crc) in
/-- The records `open` makes for the segments below the highest. -/
def metasOf (metas : Nat → Option Bytes) (files : List (Nat × Bytes))
    (entries : List (List (WalEntryV2 Body))) : List SealedMeta :=
  zipWith (fun file es => metaOf crc metas file.1 es) files entries

@[simp] theorem seq_metaOf (metas : Nat → Option Bytes) (seq : Nat)
    (entries : List (WalEntryV2 Body)) : (metaOf crc metas seq entries).seq = seq := by
  unfold metaOf; split <;> rfl

variable {files : List (Nat × Bytes)} {entries : List (WalEntryV2 Body)} {payloads : List Bytes}
  {older : List (List (WalEntryV2 Body))} {set : SegmentSet} {metas : Nat → Option Bytes}
  {torn file : Bytes} {seq maxBytes n : Nat} {dir : String} {sealed : List SealedMeta}
  {closed : List (Nat × Bytes)}

/-- The records are those of the files. -/
theorem seqs_metasOf {entries : List (List (WalEntryV2 Body))} (h : files.length = entries.length) :
    (metasOf crc metas files entries).map SealedMeta.seq = files.map Prod.fst := by
  induction files generalizing entries with
  | nil => rfl
  | cons file files ih =>
    cases entries with
    | nil => simp at h
    | cons es entries =>
      simp only [metasOf, zipWith_cons_cons, map_cons, seq_metaOf]
      rw [← metasOf, ih (by simpa using h)]

/-- A sealed file of whole frames is opened. -/
theorem openSealed_whole (h : WholeFile crc bincode file entries) :
    openSealed crc bincode dir metas seq file = .ok (metaOf crc metas seq entries) := by
  rcases hm : readMeta crc metas seq with _ | ⟨maxVersion, _ | pinned⟩ <;>
    simp [openSealed, metaOf, hm, h.replayInner]

/-- So are all older files. -/
theorem openOlder_whole {entries : List (List (WalEntryV2 Body))} (h : WholeFiles crc bincode files entries) :
    openOlder crc bincode dir metas files = .ok (metasOf crc metas files entries) := by
  induction h with
  | nil => rfl
  | cons hfile _ ih =>
    rw [openOlder, openSealed_whole hfile, ih]
    rfl

variable (crc) in
/-- The active segment after `open` found whole frames and possibly a torn one. -/
def openedActive (dir : String) (seq : Nat) (payloads : List Bytes)
    (entries : List (WalEntryV2 Body)) : WalSegment :=
  { WalSegment.open (segPath dir seq) (frames crc payloads) with
    maxCommitted := max 0 (retentionSummary entries).1
    retentionPin := false || (retentionSummary entries).2 }

/-- The torn tail of the newest file is cut off. -/
theorem activate_torn (henc : EncodesAll bincode payloads entries) (htorn : Torn crc torn) :
    activate crc bincode dir maxBytes sealed closed metas seq (frames crc payloads ++ torn) =
      .ok ⟨dir, maxBytes, sealed, openedActive crc dir seq payloads entries, seq, closed,
        update metas seq none⟩ := by
  have hwhole : WholeFile crc bincode (frames crc payloads) entries := ⟨payloads, rfl, henc⟩
  unfold activate
  rw [repairTornTail_frames henc.length_le htorn rfl rfl]
  simp only [WalSegment.replay, hwhole.replayInner]
  rfl

/-- Files in order stay in order. -/
theorem mergeSort_ascending (h : Ascending (files.map Prod.fst)) :
    files.mergeSort (fun a b => a.1 ≤ b.1) = files := by
  refine mergeSort_of_pairwise ?_
  rw [Ascending, pairwise_map] at h
  exact h.imp fun hab => by simpa using hab.le

section

variable (hasc : Ascending (files.map Prod.fst ++ [seq]))
  (hfiles : WholeFiles crc bincode files older)
include hasc hfiles

/-- A highest segment without a valid sidecar is activated, over the records of the whole
segments below it. -/
theorem open_eq_activate (hmeta : readMeta crc metas seq = none) (file : Bytes) :
    SegmentSet.open crc bincode dir maxBytes ⟨files ++ [(seq, file)], metas⟩ =
      activate crc bincode dir maxBytes (metasOf crc metas files older) files metas seq file := by
  have hmap : (files ++ [(seq, file)]).map Prod.fst = files.map Prod.fst ++ [seq] := by simp
  have hnodup : ((files ++ [(seq, file)]).map Prod.fst).Nodup := by
    rw [hmap]
    exact hasc.imp fun hab => hab.ne
  rw [SegmentSet.open]
  simp only [mergeSort_ascending (by rw [hmap]; exact hasc), getLast?_concat,
    dropLast_concat, hmeta, openOlder_whole hfiles]
  rw [if_neg (not_not.2 hnodup)]

/-- **Open with an active highest segment.**  Whole segments below it, whole frames and a
torn one in it, and no valid sidecar on it: `open` succeeds, cuts the torn frame off and
records every other segment. -/
theorem open_active (henc : EncodesAll bincode payloads entries) (htorn : Torn crc torn)
    (hmeta : readMeta crc metas seq = none) :
    SegmentSet.open crc bincode dir maxBytes ⟨files ++ [(seq, frames crc payloads ++ torn)], metas⟩ =
      .ok ⟨dir, maxBytes, metasOf crc metas files older,
        openedActive crc dir seq payloads entries, seq, files, update metas seq none⟩ := by
  rw [open_eq_activate hasc hfiles hmeta, activate_torn henc htorn]

end

/-! ## Replay -/

/-- A file is found by its number. -/
theorem lookup_of_mem (hnodup : (files.map Prod.fst).Nodup) (h : (seq, file) ∈ files) :
    files.lookup seq = some file := by
  obtain ⟨before, after, rfl⟩ := append_of_mem h
  refine lookup_eq_some_iff.2 ⟨before, after, rfl, fun p hp => ?_⟩
  simp only [map_append] at hnodup
  have := (nodup_append.1 hnodup).2.2 p.1 (mem_map_of_mem hp) seq (by simp)
  simpa using this.symm

/-- The sealed records and the closed files of a set name the same segments, in
ascending order below the active one. -/
structure Aligned (set : SegmentSet) : Prop where
  seqs : set.sealed.map SealedMeta.seq = set.closed.map Prod.fst
  ascending : Ascending (set.closed.map Prod.fst ++ [set.activeSeq])

/-- No file number is used twice. -/
theorem Aligned.nodup (h : set.Aligned) : (set.closed.map Prod.fst).Nodup :=
  (pairwise_append.1 h.ascending).1.imp fun hab => hab.ne

/-- The active number is the largest. -/
theorem Aligned.lt (h : set.Aligned) : ∀ seq ∈ set.closed.map Prod.fst, seq < set.activeSeq :=
  fun seq hmem => (pairwise_append.1 h.ascending).2.2 seq hmem _ (by simp)

/-- A rotation keeps the numbers aligned. -/
theorem Aligned.swap (h : set.Aligned) {record : SealedMeta} (hseq : record.seq = set.activeSeq) :
    (set.swap record).Aligned := by
  refine ⟨by simp [SegmentSet.swap, h.seqs, hseq], ?_⟩
  simp only [SegmentSet.swap, map_append]
  refine pairwise_append.2 ⟨h.ascending, pairwise_singleton _ _, fun a ha b hb => ?_⟩
  rw [mem_singleton.1 hb]
  rcases mem_append.1 ha with ha | ha
  · exact (h.lt a ha).trans (Nat.lt_succ_self _)
  · rw [mem_singleton.1 ha]
    omega

/-- All files of a set are replayed. -/
theorem replayAll_whole {records : List SealedMeta} {entries : List (List (WalEntryV2 Body))}
    (hseqs : records.map SealedMeta.seq = files.map Prod.fst)
    (hlookup : ∀ f ∈ files, set.closed.lookup f.1 = some f.2)
    (hfiles : WholeFiles crc bincode files entries) :
    set.replayAll crc bincode records = .ok entries.flatten := by
  induction hfiles generalizing records with
  | nil =>
    rw [map_eq_nil_iff.1 hseqs]
    rfl
  | @cons file es files entries hfile _ ih =>
    cases records with
    | nil => simp at hseqs
    | cons m records =>
      simp only [map_cons, cons.injEq] at hseqs
      have hfound := hlookup file mem_cons_self
      rw [replayAll, replaySealed, hseqs.1, hfound]
      simp only [hfile.replayInner]
      rw [ih hseqs.2 fun f hf => hlookup f (mem_cons_of_mem _ hf), flatten_cons]

/-- **Replay of an aligned set**: the entries of the closed files in sequence order, then
those of the active file. -/
theorem replay_aligned (h : set.Aligned) (hfiles : WholeFiles crc bincode set.closed older)
    (henc : EncodesAll bincode payloads entries) (htorn : Torn crc torn)
    (hactive : set.active.file = frames crc payloads ++ torn) :
    set.replay crc bincode = .ok (older.flatten ++ entries) := by
  have hsorted : set.sealed.mergeSort (fun a b => a.seq ≤ b.seq) = set.sealed := by
    refine mergeSort_of_pairwise ?_
    have hasc := (pairwise_append.1 h.ascending).1
    rw [← h.seqs, pairwise_map] at hasc
    exact hasc.imp fun hab => by simpa using hab.le
  rw [replay, hsorted, replayAll_whole h.seqs (fun f hf => lookup_of_mem h.nodup hf) hfiles]
  simp only [WalSegment.replay, hactive, replayInner_frames false _ henc htorn (by simp)]

/-- An opened set replays what the files hold. -/
theorem open_active_replay (dir : String) (maxBytes : Nat)
    (hasc : Ascending (files.map Prod.fst ++ [seq])) (hfiles : WholeFiles crc bincode files older)
    (henc : EncodesAll bincode payloads entries) (htorn : Torn crc torn)
    (hmeta : readMeta crc metas seq = none) :
    ∃ set, SegmentSet.open crc bincode dir maxBytes
        ⟨files ++ [(seq, frames crc payloads ++ torn)], metas⟩ = .ok set ∧
      set.replay crc bincode = .ok (older.flatten ++ entries) := by
  refine ⟨_, open_active hasc hfiles henc htorn hmeta, ?_⟩
  refine replay_aligned ⟨?_, hasc⟩ hfiles henc torn_nil ?_
  · exact seqs_metasOf hfiles.length_eq
  · simp [openedActive, WalSegment.open]

/-! ## A tail of zero bytes -/

/-- With `crc [] = 0` the empty frame is eight zero bytes. -/
theorem frame_nil (hcrc : crc [] = 0) : frame crc [] = replicate 8 0 := by
  simp only [frame, hcrc]
  decide

/-- Fewer than eight zero bytes are a torn frame. -/
theorem torn_zeros (hcrc : crc [] = 0) (hn : n < 8) : Torn crc (replicate n 0) := by
  refine ⟨[], by decide, ?_, by simpa using hn⟩
  rw [frame_nil hcrc, ← Nat.sub_add_cancel hn.le, Nat.add_comm (8 - n) n, replicate_add]
  exact prefix_append _ _

/-- Eight or more zero bytes start with empty frames. -/
theorem zeros_eq_frames (hcrc : crc [] = 0) (n : Nat) :
    replicate n (0 : UInt8) =
      frames crc (replicate (n / 8) []) ++ replicate (n % 8) 0 := by
  have hframes : ∀ k, frames crc (replicate k []) = replicate (8 * k) 0 := by
    intro k
    induction k with
    | zero => rfl
    | succ k ih =>
      rw [replicate_succ, frames_cons, ih, frame_nil hcrc, Nat.mul_succ, Nat.add_comm,
        replicate_add]
  rw [hframes, ← replicate_add, Nat.div_add_mod]

variable (crc) in
/-- An entry that does not decode ends the replay with its error. -/
theorem replayLoop_undecodable (sealed : Bool) (path : String)
    (henc : EncodesAll bincode payloads entries) (payload : Bytes)
    (hlen : payload.length ≤ maxFrameBytes) {err : DbError}
    (hbad : WalEntryV2.decode bincode payload = .error err) (pre post : Bytes)
    (out : List (WalEntryV2 Body)) (fuel : Nat) (hfuel : payloads.length < fuel) :
    replayLoop crc bincode sealed path
      (pre ++ (frames crc payloads ++ (frame crc payload ++ post))) fuel pre.length out =
        .error err := by
  induction henc generalizing pre out fuel with
  | nil =>
    obtain ⟨fuel, rfl⟩ : ∃ k, fuel = k + 1 := ⟨fuel - 1, by simp at hfuel; omega⟩
    rw [frames_nil, nil_append, replayLoop, FrameReader.next_frame hlen]
    simp only [if_true, hbad]
  | @cons first entry payloads entries hp hps ih =>
    obtain ⟨fuel, rfl⟩ : ∃ k, fuel = k + 1 := ⟨fuel - 1, by simp at hfuel; omega⟩
    have hpre : (pre ++ frame crc first).length = pre.length + first.length + 8 := by
      simp; omega
    rw [replayLoop, frames_cons, append_assoc, FrameReader.next_frame hp.1]
    simp only [hp.2]
    have hrec := ih (pre ++ frame crc first) (out ++ [entry]) fuel (Nat.lt_of_succ_lt_succ hfuel)
    rwa [hpre, append_assoc] at hrec

/-- Opening an active segment whose valid frames are followed by eight or more zero bytes
fails: the zeros read as an empty frame with a good checksum, repair keeps it, and replay
cannot decode it. -/
theorem activate_zeros (hcrc : crc [] = 0) (henc : EncodesAll bincode payloads entries)
    (hn : 8 ≤ n) :
    activate crc bincode dir maxBytes sealed closed metas seq
      (frames crc payloads ++ replicate n 0) =
        .error (.codec "wal_v2 decode: too short") := by
  obtain ⟨k, hk⟩ : ∃ k, n / 8 = k + 1 := ⟨n / 8 - 1, by omega⟩
  have hfile : frames crc payloads ++ replicate n 0 =
      frames crc (payloads ++ replicate (n / 8) []) ++ replicate (n % 8) 0 := by
    rw [zeros_eq_frames hcrc n, frames_append, append_assoc]
  have hlen : ∀ p ∈ payloads ++ replicate (n / 8) [], p.length ≤ maxFrameBytes := by
    intro p hp
    rcases mem_append.1 hp with hp | hp
    · exact henc.length_le p hp
    · rw [eq_of_mem_replicate hp]
      exact Nat.zero_le _
  unfold activate
  rw [hfile, repairTornTail_frames hlen (torn_zeros hcrc (Nat.mod_lt n (by decide))) rfl rfl]
  have hsplit : frames crc (payloads ++ replicate (n / 8) []) =
      frames crc payloads ++ (frame crc [] ++ frames crc (replicate k [])) := by
    rw [frames_append, hk, replicate_succ, frames_cons]
  have hfuel : payloads.length < (frames crc (payloads ++ replicate (n / 8) [])).length + 1 := by
    have := length_le_length_frames crc payloads
    rw [frames_append, length_append]
    omega
  have hreplay := replayLoop_undecodable crc false (segPath dir seq) henc []
    (Nat.zero_le _) (WalEntryV2.decode_nil bincode) [] (frames crc (replicate k [])) [] _ hfuel
  rw [← hsplit] at hreplay
  simp only [WalSegment.replay, WalSegment.replayInner, WalSegment.open]
  rw [show replayLoop crc bincode false (segPath dir seq)
    (frames crc (payloads ++ replicate (n / 8) []))
    ((frames crc (payloads ++ replicate (n / 8) [])).length + 1) 0 [] = _ from hreplay]

variable (crc bincode) in
/-- **Zero-filled tails.**  An active segment whose valid frames are followed by `n` zero
bytes opens, and replays exactly the entries of the valid frames, if and only if
`n < 8`. -/
theorem open_zero_tail_iff (hcrc : crc [] = 0) (dir : String) (maxBytes : Nat)
    {metas : Nat → Option Bytes} {files : List (Nat × Bytes)}
    {older : List (List (WalEntryV2 Body))} {seq : Nat}
    (hasc : Ascending (files.map Prod.fst ++ [seq])) (hfiles : WholeFiles crc bincode files older)
    (hmeta : readMeta crc metas seq = none) {payloads : List Bytes}
    {entries : List (WalEntryV2 Body)} (henc : EncodesAll bincode payloads entries) (n : Nat) :
    (∃ set, SegmentSet.open crc bincode dir maxBytes
        ⟨files ++ [(seq, frames crc payloads ++ replicate n 0)], metas⟩ = .ok set ∧
      set.replay crc bincode = .ok (older.flatten ++ entries)) ↔ n < 8 := by
  constructor
  · rintro ⟨set, hopen, -⟩
    by_contra hn
    rw [open_eq_activate hasc hfiles hmeta, activate_zeros hcrc henc (not_lt.1 hn)] at hopen
    cases hopen
  · exact fun hn =>
      open_active_replay dir maxBytes hasc hfiles henc (torn_zeros hcrc hn) hmeta

/-- The sample payload is admitted. -/
theorem encodesAll_sample :
    EncodesAll Bincode.entries [WalEntryV2.sample 7] [⟨7, WalEntryV2.oneRowMore⟩] :=
  .cons ⟨by decide, by decide +kernel⟩ .nil

/-- A directory with one segment that holds one valid frame and three zero bytes. -/
theorem open_three_zeros :
    crc32 [] = 0 ∧ ∃ set, SegmentSet.open crc32 Bincode.entries "wal" 4096
        ⟨[] ++ [(0, frames crc32 [WalEntryV2.sample 7] ++ replicate 3 0)], fun _ => none⟩
          = .ok set ∧
      set.replay crc32 Bincode.entries = .ok ([].flatten ++ [⟨7, WalEntryV2.oneRowMore⟩]) :=
  ⟨crc32_nil, (open_zero_tail_iff crc32 Bincode.entries crc32_nil "wal" 4096 (by simp) .nil rfl
    encodesAll_sample 3).2 (by decide)⟩

/-- Eight zero bytes after one valid frame make the whole set refuse to open. -/
theorem open_eight_zeros_fails :
    SegmentSet.open crc32 Bincode.entries "wal" 4096
        ⟨[] ++ [(0, frames crc32 [WalEntryV2.sample 7] ++ replicate 8 0)], fun _ => none⟩ =
      .error (.codec "wal_v2 decode: too short") := by
  rw [open_eq_activate (by simp) .nil rfl, activate_zeros crc32_nil encodesAll_sample (by decide)]

end SegmentSet

end ShamirDb
