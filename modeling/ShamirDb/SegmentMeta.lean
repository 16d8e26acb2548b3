/-
# The sidecar of a sealed segment

`NNNNNNNN.meta` caches what a sealed segment holds: its maximum commit version and
whether it is pinned by an unversioned entry.  A sidecar that does not parse counts as
absent; a legacy `WMT2` sidecar only says that the segment is sealed.
-/
import ShamirDb.WalFrame

namespace ShamirDb.SegmentMeta

open LittleEndian List

variable (crc : Bytes → UInt32)

/-- `META_MAGIC`, the bytes of `WMT3`. -/
def metaMagic : Bytes := [87, 77, 84, 51]

/-- `LEGACY_MAGIC`, the bytes of `WMT2`. -/
def legacyMagic : Bytes := [87, 77, 84, 50]

def metaVersion : UInt8 := 3

/-- `META_BODY_LEN`: magic, version, maximum version, pin. -/
def metaBodyLen : Nat := 4 + 1 + 8 + 1

/-- `META_TOTAL_LEN`: the body and its checksum. -/
def metaTotalLen : Nat := metaBodyLen + 4

/-- The checksummed part of a sidecar. -/
def body (maxVersion : UInt64) (pinned : Bool) : Bytes :=
  metaMagic ++ metaVersion :: (toBytes 8 maxVersion.toNat ++ [if pinned then 1 else 0])

def encode (maxVersion : UInt64) (pinned : Bool) : Bytes :=
  body maxVersion pinned ++ toBytes 4 (crc (body maxVersion pinned)).toNat

/-- `decode`: `none` for anything that is not a valid sidecar, `some (v, none)` for a
legacy one. -/
def decode (buf : Bytes) : Option (UInt64 × Option Bool) :=
  if buf.length = 17 ∧ buf.take 4 = legacyMagic ∧ buf.getD 4 0 = 2 then
    if (crc (buf.take 13)).toNat ≠ ofBytes (buf.drop 13) then none
    else some (UInt64.ofNat (ofBytes ((buf.drop 5).take 8)), none)
  else if buf.length ≠ metaTotalLen ∨ buf.take 4 ≠ metaMagic ∨ buf.getD 4 0 ≠ metaVersion then
    none
  else
    let pinned : Option Bool :=
      if buf.getD 13 0 = 0 then some false else if buf.getD 13 0 = 1 then some true else none
    match pinned with
    | none => none
    | some pin =>
      if (crc (buf.take metaBodyLen)).toNat ≠ ofBytes (buf.drop metaBodyLen) then none
      else some (UInt64.ofNat (ofBytes ((buf.drop 5).take 8)), some pin)

@[simp] theorem length_body (maxVersion : UInt64) (pinned : Bool) :
    (body maxVersion pinned).length = metaBodyLen := by
  simp [body, metaMagic, metaBodyLen]

/-- A written sidecar reads back what it was written with. -/
theorem decode_encode (maxVersion : UInt64) (pinned : Bool) :
    decode crc (encode crc maxVersion pinned) = some (maxVersion, some pinned) := by
  have hlen : (encode crc maxVersion pinned).length = metaTotalLen := by
    simp [encode, metaTotalLen]
  have hmagic : (encode crc maxVersion pinned).take 4 = metaMagic := by
    simp [encode, body, metaMagic]
  have hversion : (encode crc maxVersion pinned).getD 4 0 = metaVersion := by
    simp [encode, body, metaMagic]
  have hbody : (encode crc maxVersion pinned).take metaBodyLen = body maxVersion pinned := by
    rw [encode, take_left' (length_body _ _)]
  have hcrc : ofBytes ((encode crc maxVersion pinned).drop metaBodyLen)
      = (crc (body maxVersion pinned)).toNat := by
    rw [encode, drop_left' (length_body _ _),
      ofBytes_toBytes_of_lt (by simpa using (crc _).toNat_lt)]
  have hmax : ofBytes (((encode crc maxVersion pinned).drop 5).take 8) = maxVersion.toNat := by
    have : (encode crc maxVersion pinned).drop 5 = toBytes 8 maxVersion.toNat ++
        ([if pinned then 1 else 0] ++ toBytes 4 (crc (body maxVersion pinned)).toNat) := by
      simp [encode, body, metaMagic]
    rw [this, take_left' (length_toBytes _ _),
      ofBytes_toBytes_of_lt (by simpa using maxVersion.toNat_lt)]
  have hpin : (encode crc maxVersion pinned).getD 13 0 = if pinned then 1 else 0 := by
    have : (encode crc maxVersion pinned).drop 13 =
        [if pinned then 1 else 0] ++ toBytes 4 (crc (body maxVersion pinned)).toNat := by
      simp [encode, body, metaMagic]
    rw [getD_eq_getElem?_getD, ← Nat.add_zero 13, ← getElem?_drop, this]
    simp
  unfold decode
  rw [if_neg (by rw [hlen]; exact fun h => absurd h.1 (by decide)), hlen, hmagic, hversion, hpin, hbody, hcrc, hmax]
  cases pinned <;> simp

end ShamirDb.SegmentMeta
