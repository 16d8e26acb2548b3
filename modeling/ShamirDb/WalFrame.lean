/-
# Log frames

The framing of a log segment: `[u32 len LE][payload][u32 crc LE]`, frames back to back.
`FrameReader.next` reads one frame at an offset of a file and tells the end of the
file, an incomplete tail and a complete frame apart.  The checksum is a parameter
`crc`; `crc32` is the CRC-32 the code uses, for concrete files.
-/
import Mathlib.Tactic.Linarith
import ShamirDb.LittleEndian
import ShamirDb.WalEntry

namespace ShamirDb

open LittleEndian List

/-! ## Checksum -/

/-- One bit of the reflected CRC-32 register. -/
def crcBit (c : UInt32) : UInt32 :=
  if c &&& 1 = 1 then (c >>> 1) ^^^ 0xEDB88320 else c >>> 1

/-- CRC-32 (reflected polynomial `0xEDB88320`), the function `crc32fast::hash`
computes. -/
def crc32 (bytes : Bytes) : UInt32 :=
  bytes.foldl (fun c b => (range 8).foldl (fun c _ => crcBit c) (c ^^^ b.toUInt32))
    0xFFFFFFFF ^^^ 0xFFFFFFFF

theorem crc32_nil : crc32 [] = 0 := by decide

/-! ## Frames -/

/-- `MAX_FRAME_BYTES`: maximum encoded payload, excluding the length and checksum. -/
def maxFrameBytes : Nat := 64 * 1024 * 1024

variable (crc : Bytes → UInt32)

/-- One frame as `append_batch` writes it. -/
def frame (payload : Bytes) : Bytes :=
  toBytes 4 payload.length ++ payload ++ toBytes 4 (crc payload).toNat

/-- The buffer of a batch: its frames back to back. -/
def frames (payloads : List Bytes) : Bytes := payloads.flatMap (frame crc)

@[simp] theorem length_frame (payload : Bytes) :
    (frame crc payload).length = payload.length + 8 := by
  simp [frame]; omega

@[simp] theorem frames_nil : frames crc [] = [] := rfl

@[simp] theorem frames_cons (payload : Bytes) (payloads : List Bytes) :
    frames crc (payload :: payloads) = frame crc payload ++ frames crc payloads := rfl

@[simp] theorem frames_append (ps qs : List Bytes) :
    frames crc (ps ++ qs) = frames crc ps ++ frames crc qs := by
  simp [frames]

/-! ## The reader -/

/-- What `FrameReader::next` reads. -/
inductive FrameRead where
  | eof
  | incomplete (offset : Nat) (header : Bool)
  | frame (offset endOffset : Nat) (payload : Bytes) (crcOk : Bool)
  deriving DecidableEq

/-- `FrameReader::next` on a file with the given bytes, `offset` being the position of
the reader; a complete frame moves the reader to `endOffset`. -/
def FrameReader.next (file : Bytes) (offset : Nat) : DbResult FrameRead :=
  let remaining := file.length - offset
  let rest := file.drop offset
  if remaining = 0 then .ok .eof
  else if remaining < 4 then .ok (.incomplete offset true)
  else
    let len := ofBytes (rest.take 4)
    if maxFrameBytes < len then
      .error (.storage s!"WAL frame at offset {offset} exceeds {maxFrameBytes}-byte payload limit")
    else if remaining < len + 8 then .ok (.incomplete offset false)
    else
      let payload := (rest.drop 4).take len
      let stored := ofBytes ((rest.drop (4 + len)).take 4)
      .ok (.frame offset (offset + len + 8) payload ((crc payload).toNat == stored))

namespace FrameReader

variable {crc} {payload : Bytes}

/-- The reader at the end of the file. -/
theorem next_eof {file : Bytes} {offset : Nat} (h : file.length ≤ offset) :
    next crc file offset = .ok .eof := by
  simp [next, Nat.sub_eq_zero_of_le h]

/-- The reader at a frame it finds whole. -/
theorem next_frame (hlen : payload.length ≤ maxFrameBytes) (pre post : Bytes) :
    next crc (pre ++ (frame crc payload ++ post)) pre.length =
      .ok (.frame pre.length (pre.length + payload.length + 8) payload true) := by
  have hlt : payload.length < 256 ^ 4 := lt_of_le_of_lt hlen (by decide)
  have hrest : (pre ++ (frame crc payload ++ post)).drop pre.length =
      toBytes 4 payload.length ++ (payload ++ (toBytes 4 (crc payload).toNat ++ post)) := by
    simp [frame]
  have hrem : (pre ++ (frame crc payload ++ post)).length - pre.length =
      payload.length + 8 + post.length := by
    simp
  have hhead : ofBytes ((toBytes 4 payload.length ++
      (payload ++ (toBytes 4 (crc payload).toNat ++ post))).take 4) = payload.length := by
    rw [take_left' (by simp), ofBytes_toBytes_of_lt hlt]
  have hcrc : ofBytes (((toBytes 4 payload.length ++
      (payload ++ (toBytes 4 (crc payload).toNat ++ post))).drop (4 + payload.length)).take 4)
        = (crc payload).toNat := by
    rw [← drop_drop, drop_left' (by simp), drop_left' rfl,
      take_left' (by simp), ofBytes_toBytes_of_lt (by simpa using (crc payload).toNat_lt)]
  unfold next
  simp only [hrest, hhead, hcrc]
  rw [if_neg (by omega), if_neg (by omega), if_neg (by omega)]
  simp

/-- The reader at a frame cut short: a proper, nonempty prefix of a frame at the end of
the file. -/
theorem next_torn {torn : Bytes} (hlen : payload.length ≤ maxFrameBytes)
    (hpre : torn <+: frame crc payload) (hne : torn ≠ [])
    (hshort : torn.length < payload.length + 8) (pre : Bytes) :
    ∃ header, next crc (pre ++ torn) pre.length = .ok (.incomplete pre.length header) := by
  have hlt : payload.length < 256 ^ 4 := lt_of_le_of_lt hlen (by decide)
  have hpos : torn.length ≠ 0 := by simpa using hne
  have hrem : (pre ++ torn).length - pre.length = torn.length := by simp
  have hrest : (pre ++ torn).drop pre.length = torn := drop_left' rfl
  unfold next
  simp only [hrem, hrest, if_neg hpos]
  by_cases hfour : torn.length < 4
  · exact ⟨true, by rw [if_pos hfour]⟩
  -- the length word is whole, so it is the one the frame was written with
  have hhead : ofBytes (torn.take 4) = payload.length := by
    obtain ⟨rest, hrest⟩ := hpre
    have : torn.take 4 = (frame crc payload).take 4 := by
      rw [← hrest, take_append_of_le_length (by omega)]
    rw [this, frame, append_assoc, take_left' (by simp), ofBytes_toBytes_of_lt hlt]
  rw [if_neg hfour, if_neg (by omega), if_pos (by omega)]
  exact ⟨false, rfl⟩

end FrameReader

end ShamirDb
