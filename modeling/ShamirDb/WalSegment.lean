/-
# A log segment

One append-only segment file: `append_batch` frames a batch and writes it with one
write call, `repair_torn_tail` cuts an incomplete tail off after a crash, and
`replay_inner` reads the entries back, leniently for the active segment and strictly
for a sealed one.  Repair and replay are two loops over the same reader with different
error policies; the results below are about both on the files a segment can hold:
whole frames followed by a torn frame.
-/
import Mathlib.Data.List.Forall2
import ShamirDb.Machine
import ShamirDb.WalFrame

namespace ShamirDb

open LittleEndian List Machine

variable {Body : Type} (crc : Bytes → UInt32) (bincode : Bincode Body)

/-! ## The segment -/

/-- A segment file and the handle-local counters over it.  `path` is the debug
rendering of the path, which the error texts quote. -/
structure WalSegment where
  path : String
  file : Bytes
  nextSeq : Nat
  bytesWritten : Nat
  maxCommitted : UInt64
  retentionPin : Bool
  poisoned : Bool
  deriving DecidableEq

/-- What the operating system does with one write call: it writes everything, or fails
after `written` bytes, and then the rollback `set_len` succeeds or fails too. -/
inductive WriteOutcome where
  | ok
  | fails (written : Nat) (rollback : Bool)
  deriving DecidableEq

namespace WalSegment

/-- `WalSegment::open` on a file that holds `file`. -/
def «open» (path : String) (file : Bytes) : WalSegment :=
  ⟨path, file, 0, file.length, 0, false, false⟩

/-- The error of an append to a quarantined segment. -/
def refused (path : String) : DbError :=
  .storage s!"WalSegment append refused: segment {path} is poisoned (prior write/sync failure)"

/-- The admission loop of `append_batch`: every payload must fit a frame, have a known
header and decode; the batch's maximum version and pin are folded along. -/
def admission : List Bytes → UInt64 → Bool → DbResult (UInt64 × Bool)
  | [], payloadMax, pinned => .ok (payloadMax, pinned)
  | payload :: payloads, payloadMax, pinned =>
    if maxFrameBytes < payload.length then
      .error (.storage s!"WalSegment payload exceeds {maxFrameBytes}-byte frame limit")
    else
      match WalEntryV2.validateFrameHeader payload with
      | .error e => .error e
      | .ok () =>
        match WalEntryV2.decode bincode payload with
        | .error e => .error (.storage
            s!"WalSegment append rejected: payload is not a decodable WalEntryV2 body ({e.text})")
        | .ok entry =>
          admission payloads (max payloadMax entry.commitVersion)
            (pinned || entry.commitVersion == 0)

/-- The counters after a batch of `n` payloads was admitted. -/
def count (seg : WalSegment) (n : Nat) (payloadMax : UInt64) (pinned : Bool) : WalSegment :=
  { seg with
    nextSeq := seg.nextSeq + n
    maxCommitted := max seg.maxCommitted payloadMax
    retentionPin := seg.retentionPin || pinned }

/-- `WalSegment::append_batch`; `write` is what the one write call does.  The counters
are published before the write, so they stay raised when it fails. -/
def appendBatch (write : WriteOutcome) (seg : WalSegment) (payloads : List Bytes)
    (maxVersion : UInt64) : DbResult Nat × WalSegment :=
  if seg.poisoned then (.error (refused seg.path), seg)
  else
    match admission bincode payloads maxVersion false with
    | .error e => (.error e, seg)
    | .ok (payloadMax, pinned) =>
      if payloads.isEmpty then
        (.ok seg.nextSeq, { seg with maxCommitted := max seg.maxCommitted maxVersion })
      else
        let counted := seg.count payloads.length payloadMax pinned
        let buf := frames crc payloads
        match write with
        | .ok =>
          (.ok (seg.nextSeq + payloads.length - 1), { counted with
            file := seg.file ++ buf
            bytesWritten := seg.bytesWritten + buf.length })
        | .fails written rollback =>
          let grown := seg.file ++ buf.take written
          (.error (.io s!"WalSegment append to {seg.path}"), { counted with
            file := if rollback then grown.take seg.bytesWritten else grown
            poisoned := true })

/-- `WalSegment::sync`: a failed fsync poisons the segment. -/
def sync (succeeds : Bool) (seg : WalSegment) : DbResult Unit × WalSegment :=
  if succeeds then (.ok (), seg)
  else (.error (.io "WalSegment sync"), { seg with poisoned := true })

/-! ## Repair and replay -/

/-- The loop of `repair_torn_tail`: the offset to truncate to, if any.  A frame takes at
least eight bytes, so the file length bounds the number of rounds. -/
def repairLoop (path : String) (file : Bytes) : Nat → Nat → DbResult (Option Nat)
  | 0, _ => .ok none
  | fuel + 1, offset =>
    match FrameReader.next crc file offset with
    | .error e => .error e
    | .ok .eof => .ok none
    | .ok (.incomplete offset _) => .ok (some offset)
    | .ok (.frame offset e _ crcOk) =>
      if crcOk then repairLoop path file fuel e
      else if e = file.length then .ok (some offset)
      else .error (.storage
        s!"WalSegment repair found complete CRC-bad frame at byte offset {offset} in {path}; refusing to truncate possible valid suffix")

/-- `repair_torn_tail`: cut the file back to the last good frame boundary and
re-synchronise the append offset. -/
def repairTornTail (seg : WalSegment) : DbResult WalSegment :=
  match repairLoop crc seg.path seg.file (seg.file.length + 1) 0 with
  | .error e => .error e
  | .ok none => .ok seg
  | .ok (some pos) => .ok { seg with file := seg.file.take pos, bytesWritten := pos }

/-- The loop of `replay_inner`. -/
def replayLoop (sealed : Bool) (path : String) (file : Bytes) :
    Nat → Nat → List (WalEntryV2 Body) → DbResult (List (WalEntryV2 Body))
  | 0, _, out => .ok out
  | fuel + 1, offset, out =>
    match FrameReader.next crc file offset with
    | .error e => .error e
    | .ok .eof => .ok out
    | .ok (.incomplete offset header) =>
      if sealed then
        let part := if header then "frame header" else "frame"
        .error (.storage
          s!"WalSegment replay (sealed) {path}: incomplete {part} at byte offset {offset}")
      else .ok out
    | .ok (.frame offset e payload crcOk) =>
      if crcOk then
        match WalEntryV2.decode bincode payload with
        | .error err => .error err
        | .ok entry => replayLoop sealed path file fuel e (out ++ [entry])
      else if sealed then
        .error (.storage
          s!"WalSegment replay (sealed) {path}: CRC mismatch at byte offset {offset}")
      else .ok out

/-- `replay_inner` on a file that exists: strict when `sealed`, otherwise ending quietly
at the first incomplete or damaged frame. -/
def replayInner (sealed : Bool) (path : String) (file : Bytes) :
    DbResult (List (WalEntryV2 Body)) :=
  replayLoop crc bincode sealed path file (file.length + 1) 0 []

/-- `replay_at_startup` of the active segment. -/
def replay (seg : WalSegment) : DbResult (List (WalEntryV2 Body)) :=
  replayInner crc bincode false seg.path seg.file

/-! ## Files of whole frames -/

/-- A payload the log can hold: it fits a frame and decodes to `entry`. -/
def Encodes (payload : Bytes) (entry : WalEntryV2 Body) : Prop :=
  payload.length ≤ maxFrameBytes ∧ WalEntryV2.decode bincode payload = .ok entry

/-- The payloads of a file and the entries they decode to, in order. -/
abbrev EncodesAll (payloads : List Bytes) (entries : List (WalEntryV2 Body)) : Prop :=
  List.Forall₂ (Encodes bincode) payloads entries

/-- What a cut or a partial write can leave behind the last whole frame: a proper prefix
of one frame, possibly empty. -/
def Torn (torn : Bytes) : Prop :=
  ∃ payload : Bytes, payload.length ≤ maxFrameBytes ∧ torn <+: frame crc payload ∧
    torn.length < payload.length + 8

variable {crc bincode}

/-- No tail is left. -/
theorem torn_nil : Torn crc [] := ⟨[], by decide, nil_prefix, by simp⟩

/-- The frames lying completely inside the first `n` bytes. -/
def framesWithin : Nat → List Bytes → List Bytes
  | _, [] => []
  | n, payload :: payloads =>
    if payload.length + 8 ≤ n then payload :: framesWithin (n - (payload.length + 8)) payloads
    else []

/-- The whole frames of a cut file are the first ones. -/
theorem framesWithin_isPrefix (n : Nat) (payloads : List Bytes) :
    framesWithin n payloads <+: payloads := by
  induction payloads generalizing n with
  | nil => exact prefix_rfl
  | cons payload payloads ih =>
    rw [framesWithin]
    split
    · exact cons_prefix_cons.2 ⟨rfl, ih _⟩
    · exact nil_prefix

variable {payloads : List Bytes} {entries : List (WalEntryV2 Body)} {torn : Bytes}

/-- **A byte prefix of a file of frames** is its complete frames followed by a torn
one. -/
theorem take_frames (hlen : ∀ payload ∈ payloads, payload.length ≤ maxFrameBytes) (n : Nat) :
    ∃ torn, Torn crc torn ∧
      (frames crc payloads).take n = frames crc (framesWithin n payloads) ++ torn := by
  induction payloads generalizing n with
  | nil => exact ⟨[], torn_nil, by simp [framesWithin]⟩
  | cons payload payloads ih =>
    rw [framesWithin, frames_cons]
    split
    case isTrue hle =>
      obtain ⟨torn, htorn, heq⟩ := ih (fun p hp => hlen p (mem_cons_of_mem _ hp))
        (n - (payload.length + 8))
      refine ⟨torn, htorn, ?_⟩
      rw [take_append, take_of_length_le (by simpa using hle), length_frame, heq,
        frames_cons, append_assoc]
    case isFalse hlt =>
      refine ⟨(frame crc payload).take n, ⟨payload, hlen payload mem_cons_self,
        take_prefix _ _, ?_⟩, ?_⟩
      · simp only [length_take]
        omega
      · rw [take_append_of_le_length (by simp; omega)]
        simp

variable (crc) in
/-- A frame has one byte at least. -/
theorem length_le_length_frames (payloads : List Bytes) :
    payloads.length ≤ (frames crc payloads).length := by
  induction payloads with
  | nil => simp
  | cons payload payloads ih =>
    simp only [frames_cons, length_cons, length_append, length_frame]
    omega

/-! ## The two loops on a torn file -/

/-- The repair stops behind the whole frames. -/
theorem repairLoop_frames (path : String)
    (hlen : ∀ payload ∈ payloads, payload.length ≤ maxFrameBytes) (htorn : Torn crc torn)
    (pre : Bytes) (fuel : Nat) (hfuel : payloads.length < fuel) :
    repairLoop crc path (pre ++ (frames crc payloads ++ torn)) fuel pre.length =
      .ok (if torn = [] then none else some (pre.length + (frames crc payloads).length)) := by
  induction payloads generalizing pre fuel with
  | nil =>
    obtain ⟨fuel, rfl⟩ : ∃ k, fuel = k + 1 := ⟨fuel - 1, by simp at hfuel; omega⟩
    rw [frames_nil, nil_append, repairLoop]
    by_cases hne : torn = []
    · rw [hne, FrameReader.next_eof (by simp), if_pos rfl]
    · obtain ⟨payload, hp, hpre, hshort⟩ := htorn
      obtain ⟨header, hnext⟩ := FrameReader.next_torn hp hpre hne hshort pre
      rw [hnext, if_neg hne]
      simp
  | cons payload payloads ih =>
    obtain ⟨fuel, rfl⟩ : ∃ k, fuel = k + 1 := ⟨fuel - 1, by simp at hfuel; omega⟩
    have hp := hlen payload mem_cons_self
    have hps := fun p hp => hlen p (mem_cons_of_mem _ hp)
    have hpre : (pre ++ frame crc payload).length = pre.length + payload.length + 8 := by
      simp; omega
    rw [repairLoop, frames_cons, append_assoc, FrameReader.next_frame hp]
    simp only [if_true]
    have hrec := ih hps (pre ++ frame crc payload) fuel (Nat.lt_of_succ_lt_succ hfuel)
    rw [hpre, append_assoc] at hrec
    rw [hrec, length_append, length_frame]
    simp only [Nat.add_assoc]

/-- The replay loop returns the entries of the whole frames; a torn frame after them
ends a lenient replay and fails a strict one. -/
theorem replayLoop_frames (sealed : Bool) (path : String)
    (henc : EncodesAll bincode payloads entries) (htorn : Torn crc torn)
    (hsealed : sealed = true → torn = []) (pre : Bytes) (out : List (WalEntryV2 Body)) (fuel : Nat)
    (hfuel : payloads.length < fuel) :
    replayLoop crc bincode sealed path (pre ++ (frames crc payloads ++ torn)) fuel pre.length out =
      .ok (out ++ entries) := by
  induction henc generalizing pre out fuel with
  | nil =>
    obtain ⟨fuel, rfl⟩ : ∃ k, fuel = k + 1 := ⟨fuel - 1, by simp at hfuel; omega⟩
    rw [frames_nil, nil_append, replayLoop, append_nil]
    by_cases hne : torn = []
    · rw [hne, FrameReader.next_eof (by simp)]
    obtain ⟨payload, hp, hpre, hshort⟩ := htorn
    obtain ⟨header, hnext⟩ := FrameReader.next_torn hp hpre hne hshort pre
    have hlenient : sealed = false := by
      by_contra hs
      exact hne (hsealed (by simpa using hs))
    rw [hnext]
    simp [hlenient]
  | @cons payload entry payloads entries hp hps ih =>
    obtain ⟨fuel, rfl⟩ : ∃ k, fuel = k + 1 := ⟨fuel - 1, by simp at hfuel; omega⟩
    have hpre : (pre ++ frame crc payload).length = pre.length + payload.length + 8 := by
      simp; omega
    rw [replayLoop, frames_cons, append_assoc, FrameReader.next_frame hp.1]
    simp only [if_true, hp.2]
    have hrec := ih (pre ++ frame crc payload) (out ++ [entry]) fuel (Nat.lt_of_succ_lt_succ hfuel)
    rw [hpre, append_assoc] at hrec
    rw [hrec, append_assoc, singleton_append]

/-- Admitted payloads fit a frame. -/
theorem EncodesAll.length_le {bincode : Bincode Body} (henc : EncodesAll bincode payloads entries) :
    ∀ payload ∈ payloads, payload.length ≤ maxFrameBytes := by
  induction henc with
  | nil => simp
  | cons hp _ ih => exact forall_mem_cons.2 ⟨hp.1, ih⟩

/-- Whole frames are replayed, and a torn tail is not. -/
theorem replayInner_frames (sealed : Bool) (path : String)
    (henc : EncodesAll bincode payloads entries) (htorn : Torn crc torn)
    (hsealed : sealed = true → torn = []) :
    replayInner crc bincode sealed path (frames crc payloads ++ torn) = .ok entries := by
  have hle := length_le_length_frames crc payloads
  have h := replayLoop_frames sealed path henc htorn hsealed [] []
    ((frames crc payloads ++ torn).length + 1) (by simp; omega)
  simpa [replayInner] using h

/-- The repair cuts the torn tail off. -/
theorem repairTornTail_frames {seg : WalSegment}
    (hlen : ∀ payload ∈ payloads, payload.length ≤ maxFrameBytes) (htorn : Torn crc torn)
    (hfile : seg.file = frames crc payloads ++ torn) (hbytes : seg.bytesWritten = seg.file.length) :
    repairTornTail crc seg = .ok { seg with
      file := frames crc payloads
      bytesWritten := (frames crc payloads).length } := by
  obtain ⟨path, file, nextSeq, bytesWritten, maxCommitted, retentionPin, poisoned⟩ := seg
  simp only at hbytes
  subst hfile hbytes
  have hle := length_le_length_frames crc payloads
  have h := repairLoop_frames path hlen htorn []
    ((frames crc payloads ++ torn).length + 1) (by simp; omega)
  rw [nil_append, length_nil] at h
  rw [repairTornTail, h]
  by_cases hnil : torn = [] <;> simp [hnil]

/-! ## Appending -/

/-- The version and the pin a batch adds to the counters. -/
def summary (entries : List (WalEntryV2 Body)) (maxVersion : UInt64) (pinned : Bool) :
    UInt64 × Bool :=
  (entries.foldl (fun m e => max m e.commitVersion) maxVersion,
    pinned || entries.any (fun e => e.commitVersion == 0))

/-- The admission loop accepts exactly the decodable batches. -/
theorem admission_of_encodesAll (henc : EncodesAll bincode payloads entries) (maxVersion : UInt64)
    (pinned : Bool) :
    admission bincode payloads maxVersion pinned = .ok (summary entries maxVersion pinned) := by
  induction henc generalizing maxVersion pinned with
  | nil => simp [admission, summary]
  | cons hp _ ih =>
    rw [admission, if_neg (by have := hp.1; omega),
      WalEntryV2.validateFrameHeader_of_decode bincode hp.2]
    simp only [hp.2, ih]
    simp [summary, Bool.or_assoc]

/-- An admitted batch is one of entries. -/
theorem encodesAll_of_admission {maxVersion : UInt64} {pinned : Bool} {r : UInt64 × Bool}
    (h : admission bincode payloads maxVersion pinned = .ok r) :
    ∃ entries, EncodesAll bincode payloads entries := by
  induction payloads generalizing maxVersion pinned with
  | nil => exact ⟨[], .nil⟩
  | cons payload payloads ih =>
    rw [admission] at h
    split at h
    · simp at h
    rename_i hlen
    split at h
    · simp at h
    · split at h
      · simp at h
      · rename_i entry hentry
        obtain ⟨entries, hentries⟩ := ih h
        exact ⟨entry :: entries, .cons ⟨not_lt.1 hlen, hentry⟩ hentries⟩

/-- A batch is accepted or it is not, whatever version it comes with. -/
theorem admission_error_of_not (h : ¬∃ entries, EncodesAll bincode payloads entries)
    (maxVersion : UInt64) (pinned : Bool) :
    ∃ e, admission bincode payloads maxVersion pinned = .error e := by
  cases hadm : admission bincode payloads maxVersion pinned with
  | error e => exact ⟨e, rfl⟩
  | ok r => exact absurd (encodesAll_of_admission hadm) h

variable (crc) in
/-- A batch that does not decode leaves the segment. -/
theorem appendBatch_rejected (seg : WalSegment)
    (h : ¬∃ entries, EncodesAll bincode payloads entries) (write : WriteOutcome)
    (maxVersion : UInt64) :
    ∃ e, appendBatch crc bincode write seg payloads maxVersion = (.error e, seg) := by
  obtain ⟨e, he⟩ := admission_error_of_not h maxVersion false
  unfold appendBatch
  split
  · exact ⟨_, rfl⟩
  · exact ⟨e, by rw [he]⟩

/-- The counters after the batch of `entries` was admitted. -/
def countAll (seg : WalSegment) (entries : List (WalEntryV2 Body)) (maxVersion : UInt64) :
    WalSegment :=
  seg.count entries.length (summary entries maxVersion false).1 (summary entries maxVersion false).2

variable (crc) in
/-- **An accepted batch** whose write succeeds extends the file by its frames. -/
theorem appendBatch_ok {seg : WalSegment} (hpois : seg.poisoned = false)
    (henc : EncodesAll bincode payloads entries) (maxVersion : UInt64) :
    ∃ n, appendBatch crc bincode .ok seg payloads maxVersion =
      (.ok n, { seg.countAll entries maxVersion with
        file := seg.file ++ frames crc payloads
        bytesWritten := seg.bytesWritten + (frames crc payloads).length }) := by
  have hlength := henc.length_eq
  rw [appendBatch, admission_of_encodesAll henc, if_neg (by simp [hpois])]
  cases payloads with
  | nil =>
    cases henc
    exact ⟨seg.nextSeq, by simp [countAll, count, summary]⟩
  | cons payload payloads => exact ⟨_, by simp [countAll, hlength]; rfl⟩

variable (crc) in
/-- **A failed write** of an accepted batch leaves a prefix of its frames behind, or
nothing if the rollback succeeds, and poisons the segment. -/
theorem appendBatch_fails {seg : WalSegment} (hpois : seg.poisoned = false) (hne : payloads ≠ [])
    (henc : EncodesAll bincode payloads entries) (maxVersion : UInt64) (written : Nat)
    (rollback : Bool) :
    appendBatch crc bincode (.fails written rollback) seg payloads maxVersion =
      (.error (.io s!"WalSegment append to {seg.path}"), { seg.countAll entries maxVersion with
        file := if rollback then (seg.file ++ (frames crc payloads).take written).take seg.bytesWritten
          else seg.file ++ (frames crc payloads).take written
        poisoned := true }) := by
  have hlength := henc.length_eq
  rw [appendBatch, admission_of_encodesAll henc, if_neg (by simp [hpois])]
  simp [hne, countAll, hlength]

variable (crc bincode)

/-! ## Crashes and repairs -/

/-- What happens to a segment: a batch is appended, or the process crashes, keeping the
first `kept` bytes of the file, and the segment is opened and repaired. -/
inductive Event where
  | append (payloads : List Bytes) (maxVersion : UInt64)
  | crash (kept : Nat)
  deriving DecidableEq

/-- Open what a crash kept of the file. -/
def reopen (seg : WalSegment) (kept : Nat) : WalSegment :=
  «open» seg.path (seg.file.take kept)

def step (seg : WalSegment) : Event → WalSegment
  | .append payloads maxVersion => (appendBatch crc bincode .ok seg payloads maxVersion).2
  | .crash kept =>
    match repairTornTail crc (seg.reopen kept) with
    | .ok repaired => repaired
    | .error _ => seg.reopen kept

/-- The abstract log: the payloads of the whole frames.  An accepted batch goes to its
end, a crash keeps the frames that lie completely inside the kept bytes. -/
def logStep (log : List Bytes) : Event → List Bytes
  | .append payloads maxVersion =>
    match admission bincode payloads maxVersion false with
    | .ok _ => log ++ payloads
    | .error _ => log
  | .crash kept => framesWithin kept log

/-- The segment holds exactly the abstract log, and its append offset is the end of the
file. -/
structure Holds (seg : WalSegment) (log : List Bytes) : Prop where
  file_eq : seg.file = frames crc log
  bytesWritten_eq : seg.bytesWritten = seg.file.length
  not_poisoned : seg.poisoned = false
  decodable : ∃ entries, EncodesAll bincode log entries

/-- An empty segment holds nothing. -/
theorem holds_open_nil (path : String) : Holds crc bincode («open» path []) [] :=
  ⟨rfl, rfl, rfl, [], .nil⟩

variable {crc bincode}

/-- The first payloads of an admitted batch are admitted. -/
theorem encodesAll_of_prefix {log kept : List Bytes} (h : ∃ entries, EncodesAll bincode log entries)
    (hpre : kept <+: log) : ∃ entries, EncodesAll bincode kept entries := by
  obtain ⟨entries, hentries⟩ := h
  rw [prefix_iff_eq_take.1 hpre]
  exact ⟨entries.take kept.length, forall₂_take _ hentries⟩

variable {seg : WalSegment} {log : List Bytes}

section

variable (h : Holds crc bincode seg log)
include h

/-- A cut file is repaired to its whole frames. -/
theorem Holds.reopen (kept : Nat) :
    ∃ repaired, repairTornTail crc (seg.reopen kept) = .ok repaired ∧
      Holds crc bincode repaired (framesWithin kept log) := by
  obtain ⟨entries, hentries⟩ := h.decodable
  obtain ⟨torn, htorn, htake⟩ := take_frames hentries.length_le kept
  have hpre := framesWithin_isPrefix kept log
  have hfile : (seg.reopen kept).file = frames crc (framesWithin kept log) ++ torn := by
    rw [WalSegment.reopen, WalSegment.open, h.file_eq, htake]
  refine ⟨_, repairTornTail_frames (fun p hp => hentries.length_le p (hpre.subset hp)) htorn
    hfile rfl, rfl, rfl, rfl, encodesAll_of_prefix h.decodable hpre⟩

/-- An append is an append to the log. -/
theorem Holds.append (payloads : List Bytes) (maxVersion : UInt64) :
    Holds crc bincode (appendBatch crc bincode .ok seg payloads maxVersion).2
      (logStep bincode log (.append payloads maxVersion)) := by
  by_cases hp : ∃ entries, EncodesAll bincode payloads entries
  · obtain ⟨entries, hentries⟩ := hp
    obtain ⟨n, happend⟩ := appendBatch_ok crc h.not_poisoned hentries maxVersion
    rw [happend, logStep, admission_of_encodesAll hentries]
    obtain ⟨old, hold⟩ := h.decodable
    exact ⟨by simp [h.file_eq], by simp [h.bytesWritten_eq], h.not_poisoned, old ++ entries,
      rel_append hold hentries⟩
  · obtain ⟨e, happend⟩ := appendBatch_rejected crc seg hp .ok maxVersion
    obtain ⟨e', hadm⟩ := admission_error_of_not hp maxVersion false
    rw [happend, logStep, hadm]
    exact h

/-- **Refinement.**  Every step of the segment is a step of the abstract log. -/
theorem Holds.step (e : Event) :
    Holds crc bincode (step crc bincode seg e) (logStep bincode log e) := by
  cases e with
  | append payloads maxVersion => exact h.append payloads maxVersion
  | crash kept =>
    obtain ⟨repaired, hrepair, hholds⟩ := h.reopen kept
    rw [WalSegment.step, hrepair]
    exact hholds

/-- A run on the segment is a run on the log. -/
theorem holds_run (es : List Event) :
    Holds crc bincode (run (step crc bincode) seg es)
      (run (logStep bincode) log es) := by
  induction es generalizing seg log with
  | nil => exact h
  | cons e es ih => exact ih (h.step e)

/-- A replay returns the log. -/
theorem Holds.replay_eq {entries : List (WalEntryV2 Body)}
    (henc : EncodesAll bincode log entries) : replay crc bincode seg = .ok entries := by
  have := replayInner_frames false seg.path henc (torn_nil : Torn crc []) (by simp)
  rwa [append_nil, ← h.file_eq] at this

/-- A segment without a torn tail needs no repair. -/
theorem Holds.repair_eq : repairTornTail crc seg = .ok seg := by
  obtain ⟨entries, hentries⟩ := h.decodable
  rw [repairTornTail_frames hentries.length_le torn_nil (by simp [h.file_eq]) h.bytesWritten_eq]
  obtain ⟨path, file, nextSeq, bytesWritten, maxCommitted, retentionPin, poisoned⟩ := seg
  have hfile := h.file_eq
  have hbytes := h.bytesWritten_eq
  simp only at hfile hbytes
  simp [hbytes, hfile]

end

variable (crc bincode) in
/-- **Torn-tail recovery.**  After any sequence of appended batches (and earlier crashes)
on a fresh segment, and any crash that keeps a byte prefix of the file: opening and
repairing succeeds; replay returns exactly the entries of the frames lying completely
inside the kept prefix, in order; a batch appended after the repair replays after them;
and repairing again changes nothing. -/
theorem torn_tail_recovery (path : String) (es : List Event) (kept : Nat) :
    ∃ seg entries,
      repairTornTail crc
        ((run (step crc bincode) («open» path []) es).reopen kept) = .ok seg ∧
      EncodesAll bincode (framesWithin kept (run (logStep bincode) [] es)) entries ∧
      replay crc bincode seg = .ok entries ∧
      (∀ payloads more maxVersion, EncodesAll bincode payloads more →
        replay crc bincode (appendBatch crc bincode .ok seg payloads maxVersion).2 =
          .ok (entries ++ more)) ∧
      repairTornTail crc seg = .ok seg := by
  have hrun := holds_run (holds_open_nil crc bincode path) es
  obtain ⟨seg, hrepair, hseg⟩ := hrun.reopen kept
  obtain ⟨entries, hentries⟩ := hseg.decodable
  refine ⟨seg, entries, hrepair, hentries, hseg.replay_eq hentries,
    fun payloads more maxVersion hmore => ?_, hseg.repair_eq⟩
  have happend := hseg.append payloads maxVersion
  rw [logStep, admission_of_encodesAll hmore] at happend
  exact happend.replay_eq (rel_append hentries hmore)

end WalSegment

end ShamirDb
