/-
# The bodies of log entries

The layouts of `WalEntryV2` that the log can hold, read as bincode reads them: integers of
fixed width and little endian, a length of eight bytes before a text, a byte string or a
vector, a variant index of four bytes before an enumeration and one byte before an option.
The two layouts of format version 1 must fill their bytes; those of versions 2 and 3 may be
followed by anything.

bincode says why it rejects a body; here the reason is always the same text.
-/
import ShamirDb.LittleEndian
import ShamirDb.SelfDelimiting
import ShamirDb.WalEntry

namespace ShamirDb

open SelfDelimiting

/-! ## What an entry holds -/

/-- The bytes of a `RecordId`. -/
abbrev RecordIdBytes := { bytes : Bytes // bytes.length = 16 }

/-- `WalOpV2`. -/
inductive WalOpV2 where
  | put (tableIdInterned : UInt64) (rid : RecordIdBytes) (body : Bytes)
  | delete (tableIdInterned : UInt64) (rid : RecordIdBytes)
  | indexPut (tableIdInterned : UInt64) (idxId : UInt32) (key value : Bytes)
  | indexDel (tableIdInterned : UInt64) (idxId : UInt32) (key : Bytes)
  | internerOverlayMerge (entries : List (UInt64 × String))
  | counterDelta (tableIdInterned : UInt64) (delta : Int64)
  deriving DecidableEq

/-- `Actor`. -/
inductive Actor where
  | system
  | admin (id : UInt64)
  | user (id : UInt64)
  deriving DecidableEq

/-- `WalExtraChange`. -/
structure WalExtraChange where
  tableIdInterned : UInt64
  changeIndex : UInt32
  key : Bytes
  value : Option Bytes
  deriving DecidableEq

/-- `WalEventHeader`. -/
structure WalEventHeader where
  repo : String
  actor : Actor
  txId : UInt64
  timestampNs : UInt64
  tableNames : List (UInt64 × String)
  extraChanges : List WalExtraChange
  deriving DecidableEq

/-- The fields of an entry beside its commit version. -/
structure EntryBody where
  txnId : UInt64
  repoIdInterned : UInt64
  startedAtNs : UInt64
  ops : List WalOpV2
  internerDelta : List (UInt64 × String × UInt64)
  event : Option WalEventHeader
  deriving DecidableEq

/-! ## The readers -/

namespace Bincode

abbrev Decoder := Reader UInt8

/-- An integer of `k` bytes. -/
def fixint (k : Nat) : Decoder Nat := do
  let bytes ← SelfDelimiting.take k
  pure (LittleEndian.ofBytes bytes)

def u32 : Decoder UInt32 := do
  let n ← fixint 4
  pure (UInt32.ofNat n)

def u64 : Decoder UInt64 := do
  let n ← fixint 8
  pure (UInt64.ofNat n)

def i64 : Decoder Int64 := do
  let n ← u64
  pure n.toInt64

def byteString : Decoder Bytes := do
  let n ← fixint 8
  SelfDelimiting.take n

/-- A text is valid UTF-8. -/
def text : Decoder String := do
  let bytes ← byteString
  match String.fromUTF8? ⟨bytes.toArray⟩ with
  | some s => pure s
  | none => failure

def vec {α : Type} (item : Decoder α) : Decoder (List α) := do
  let n ← fixint 8
  many item n

def opt {α : Type} (item : Decoder α) : Decoder (Option α) := do
  let tag ← next
  if tag = 0 then pure none
  else if tag = 1 then do
    let a ← item
    pure (some a)
  else failure

def recordId : Decoder RecordIdBytes := do
  let bytes ← byteString
  if h : bytes.length = 16 then pure ⟨bytes, h⟩ else failure

def walOp : Decoder WalOpV2 := do
  let variant ← fixint 4
  match variant with
  | 0 => return .put (← u64) (← recordId) (← byteString)
  | 1 => return .delete (← u64) (← recordId)
  | 2 => return .indexPut (← u64) (← u32) (← byteString) (← byteString)
  | 3 => return .indexDel (← u64) (← u32) (← byteString)
  | 4 => return .internerOverlayMerge (← vec do return (← u64, ← text))
  | 5 => return .counterDelta (← u64) (← i64)
  | _ => failure

def actor : Decoder Actor := do
  let variant ← fixint 4
  match variant with
  | 0 => pure .system
  | 1 => return .admin (← u64)
  | 2 => return .user (← u64)
  | _ => failure

def extraChange : Decoder WalExtraChange := do
  return ⟨← u64, ← u32, ← byteString, ← opt byteString⟩

def eventHeader : Decoder WalEventHeader := do
  return ⟨← text, ← actor, ← u64, ← u64, ← vec do return (← u64, ← text), ← vec extraChange⟩

/-- `WalEntryV2LegacyPreHigh5`. -/
def preHigh5 : Decoder EntryBody := do
  return ⟨← u64, ← u64, ← u64, ← vec walOp, [], none⟩

/-- `WalEntryV2LegacyPostHigh5`. -/
def postHigh5 : Decoder (WalEntryV2 EntryBody) := do
  let txnId ← u64
  let repoIdInterned ← u64
  let startedAtNs ← u64
  let commitVersion ← u64
  let ops ← vec walOp
  return ⟨commitVersion, txnId, repoIdInterned, startedAtNs, ops, [], none⟩

/-- `WalEntryV2PreEvent`: the interner delta follows. -/
def withDelta : Decoder (WalEntryV2 EntryBody) := do
  let entry ← postHigh5
  let delta ← vec do return (← u64, ← text, ← u64)
  return { entry with body := { entry.body with internerDelta := delta } }

/-- The current layout: the event header follows. -/
def withEvent : Decoder (WalEntryV2 EntryBody) := do
  let entry ← withDelta
  let event ← opt eventHeader
  return { entry with body := { entry.body with event := event } }

/-- The outcome of a reader that must have used all bytes if `whole`. -/
def finish {α : Type} (whole : Bool) (r : Decoder α) (bytes : Bytes) : Except String α :=
  match r bytes with
  | some (a, rest) => if whole && !rest.isEmpty then .error "malformed body" else .ok a
  | none => .error "malformed body"

/-- The deserializers of the entries' bodies. -/
def entries : Bincode EntryBody where
  legacyPreHigh5 := finish true preHigh5
  legacyPostHigh5 := finish true postHigh5
  preEvent := finish false withDelta
  current := finish false withEvent

end Bincode

/-! ## An entry -/

namespace WalEntryV2

/-- The body of an entry that counts one row more in table 1. -/
def oneRowMore : EntryBody := ⟨1, 2, 3, [.counterDelta 1 1], [], none⟩

/-- Its bytes with a commit version, as `encode` writes them. -/
def sample (commitVersion : UInt64) : Bytes :=
  magic ++ version :: ([1, 2, 3, commitVersion.toNat, 1].flatMap (LittleEndian.toBytes 8) ++
    LittleEndian.toBytes 4 5 ++ [1, 1, 0].flatMap (LittleEndian.toBytes 8) ++ [0])

example : decode Bincode.entries (sample 7) = .ok ⟨7, oneRowMore⟩ := by decide +kernel

end WalEntryV2

end ShamirDb
