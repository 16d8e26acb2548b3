/-
# Log entries

The part of `WalEntryV2` the log itself reads: the `[magic][version]` header, the choice
of body layout by version byte, and the commit version.  The bodies are bincode, whose
deserializers are parameters here; everything else an entry holds (transaction id,
operations, interner delta, event) is the opaque `Body`.
-/
import Mathlib.Tactic.Common

namespace ShamirDb

abbrev Bytes := List UInt8

instance : LawfulBEq Bytes := inferInstance

/-- The errors the log code builds, with their texts; an operating-system error keeps
only the context it is reported under. -/
inductive DbError where
  | storage (message : String)
  | io (context : String)
  | codec (message : String)
  | internal (message : String)
  deriving DecidableEq

/-- The `Display` text of an error. -/
def DbError.text : DbError → String
  | .storage message => s!"Storage backend error: {message}"
  | .io context => s!"I/O error: {context}"
  | .codec message => s!"Codec error: {message}"
  | .internal message => s!"Internal error: {message}"

abbrev DbResult := Except DbError

instance {α : Type*} [DecidableEq α] : DecidableEq (DbResult α)
  | .ok a, .ok b => if h : a = b then isTrue (h ▸ rfl) else isFalse (by simp [h])
  | .error a, .error b => if h : a = b then isTrue (h ▸ rfl) else isFalse (by simp [h])
  | .ok _, .error _ | .error _, .ok _ => isFalse (by simp)

/-- A log entry, as far as the log looks into it. -/
structure WalEntryV2 (Body : Type) where
  commitVersion : UInt64
  body : Body
  deriving DecidableEq

/-- The bincode deserializers of the body layouts, one a format version, with the text
bincode reports when a body does not parse.  The pre-`commit_version` layout of version
1 has no version to return. -/
structure Bincode (Body : Type) where
  legacyPreHigh5 : Bytes → Except String Body
  legacyPostHigh5 : Bytes → Except String (WalEntryV2 Body)
  preEvent : Bytes → Except String (WalEntryV2 Body)
  current : Bytes → Except String (WalEntryV2 Body)

namespace WalEntryV2

variable {Body : Type} (bincode : Bincode Body)

/-- `WAL_V2_MAGIC`, the bytes of `WAL2`. -/
def magic : Bytes := [87, 65, 76, 50]

def versionLegacy : UInt8 := 1

def versionPreEvent : UInt8 := 2

/-- `WAL_V2_VERSION`. -/
def version : UInt8 := 3

/-- `decode_legacy_v1`: version 1 had two layouts, told apart by which of them parses. -/
def decodeLegacyV1 (bytes : Bytes) : DbResult (WalEntryV2 Body) :=
  match bincode.legacyPreHigh5 bytes, bincode.legacyPostHigh5 bytes with
  | .ok old, .error _ => .ok ⟨0, old⟩
  | .error _, .ok new => .ok new
  | .ok _, .ok _ => .error (.codec "wal_v2 decode v1: ambiguous legacy shape")
  | .error old, .error new => .error (.codec s!"wal_v2 decode v1: {old}; {new}")

/-- The error of a body that bincode rejects. -/
def bodyOr (context : String) :
    Except String (WalEntryV2 Body) → DbResult (WalEntryV2 Body)
  | .ok entry => .ok entry
  | .error text => .error (.codec s!"wal_v2 decode {context}: {text}")

/-- Decode from `[magic][version][bincode body]`. -/
def decode (bytes : Bytes) : DbResult (WalEntryV2 Body) :=
  if bytes.length < 5 then .error (.codec "wal_v2 decode: too short")
  else if bytes.take 4 ≠ magic then
    .error (.codec s!"wal_v2 decode: bad magic {repr (bytes.take 4)}")
  else
    let v := bytes.getD 4 0
    let body := bytes.drop 5
    if v = versionLegacy then decodeLegacyV1 bincode body
    else if v = versionPreEvent then bodyOr "v2" (bincode.preEvent body)
    else if v = version then bodyOr "v3" (bincode.current body)
    else .error (.codec s!"wal_v2 decode: unsupported version {v}")

/-- Validate only `[magic][version]`; the body is not inspected. -/
def validateFrameHeader (bytes : Bytes) : DbResult Unit :=
  if bytes.length < 5 then .error (.internal "wal_v2 header: too short")
  else if bytes.take 4 ≠ magic then
    .error (.internal s!"wal_v2 header: bad magic {repr (bytes.take 4)}")
  else
    let v := bytes.getD 4 0
    if v = versionLegacy ∨ v = versionPreEvent ∨ v = version then .ok ()
    else .error (.internal s!"wal_v2 header: unsupported version {v}")

/-- An empty payload is too short. -/
theorem decode_nil : decode bincode [] = .error (.codec "wal_v2 decode: too short") := rfl

/-- A decodable payload passes the header check: the append path's two checks agree. -/
theorem validateFrameHeader_of_decode {bytes : Bytes} {entry : WalEntryV2 Body}
    (h : decode bincode bytes = .ok entry) : validateFrameHeader bytes = .ok () := by
  simp only [decode] at h
  simp only [validateFrameHeader]
  split_ifs at h with h1 h2 h4 h5 <;> rw [if_neg h1, if_neg h2, if_pos (by tauto)]

end WalEntryV2

end ShamirDb
