/-
# The audit chain

Each entry of the audit log carries an HMAC over its canonical bytes, and these end with the
HMAC of the entry before it.  The HMAC under the chain's key is a function `mac`; it cannot be
injective on all messages, so freedom from collisions is stated for the messages that were
signed.  Someone without the key can present only messages that were signed
(`Unforged`).  Then a log that the verifier accepts is a prefix of what was recorded, and one
that also agrees with a checkpoint reaches it (`tampering_is_detected`).
-/
import Mathlib.Data.Vector.Basic
import ShamirDb.VersionCodec

namespace ShamirDb.Audit

open List

open VersionCodec (bigEndian length_bigEndian bigEndian_inj)

abbrev Digest := List.Vector UInt8 32

def zeros : Digest := List.Vector.replicate 32 0

/-- What a caller records; texts are their UTF-8 bytes. -/
structure AuditEvent where
  ts : UInt64
  event : Bytes
  transport : Bytes
  user : Bytes
  ipSubnet : Bytes
  sessionIdPrefix : List.Vector UInt8 8
  result : Bytes
  details : Bytes
  deriving DecidableEq

structure AuditEntry extends AuditEvent where
  seq : UInt64
  prevHmac : Digest
  hmac : Digest
  deriving DecidableEq

inductive AuditError where
  | sequenceGap (idx : Nat) (expected found : UInt64)
  | chainBroken (idx : Nat)
  | fieldTooLong (field : String)
  | hmacMismatch (idx : Nat)
  | truncationDetected (checkpointSeq finalSeq : UInt64)
  deriving DecidableEq

/-! ## Canonical bytes -/

/-- The fields with a length before them, with the width of that length. -/
def AuditEvent.fields (e : AuditEvent) : List (String × Nat × Bytes) :=
  [("event", 2, e.event), ("transport", 1, e.transport), ("user", 1, e.user),
    ("ip_subnet", 1, e.ipSubnet), ("result", 1, e.result), ("details", 4, e.details)]

def framed (width : Nat) (bytes : Bytes) : Bytes := bigEndian width bytes.length ++ bytes

/-- The bytes between the sequence number and the previous HMAC. -/
def AuditEvent.middle (e : AuditEvent) : Bytes :=
  bigEndian 8 e.ts.toNat ++ (framed 2 e.event ++ (framed 1 e.transport ++ (framed 1 e.user ++
    (framed 1 e.ipSubnet ++ (e.sessionIdPrefix.toList ++ (framed 1 e.result ++
      framed 4 e.details))))))

def layout (e : AuditEntry) : Bytes :=
  bigEndian 8 e.seq.toNat ++ (e.middle ++ e.prevHmac.toList)

/-- `canonical_bytes`: refused if a length does not fit its width. -/
def canonicalBytes (e : AuditEntry) : Except AuditError Bytes :=
  match e.fields.find? fun field => 256 ^ field.2.1 ≤ field.2.2.length with
  | some field => .error (.fieldTooLong field.1)
  | none => .ok (layout e)

/-! ## Recording -/

/-- `saturating_add(1)`. -/
def next (seq : UInt64) : UInt64 := if seq = 0xFFFFFFFFFFFFFFFF then seq else seq + 1

structure AuditChain where
  nextSeq : UInt64
  prevHmac : Digest
  deriving DecidableEq

def AuditChain.new : AuditChain := ⟨1, zeros⟩

/-- The canonical bytes with the first eight and the last 32 written anew. -/
def stamp (canonical : Bytes) (seq : UInt64) (prevHmac : Digest) : Bytes :=
  bigEndian 8 seq.toNat ++ ((canonical.drop 8).take (canonical.length - 40) ++ prevHmac.toList)

variable (mac : Bytes → Digest)

/-- `append`: the bytes are laid out without the link, which is stamped in under the lock. -/
def append (c : AuditChain) (event : AuditEvent) : Except AuditError (AuditEntry × AuditChain) :=
  match canonicalBytes { event with seq := 0, prevHmac := zeros, hmac := zeros } with
  | .error error => .error error
  | .ok canonical =>
    let hmac := mac (stamp canonical c.nextSeq c.prevHmac)
    .ok ({ event with seq := c.nextSeq, prevHmac := c.prevHmac, hmac }, ⟨next c.nextSeq, hmac⟩)

/-- The entries that a run of `append` calls records, and the chain it leaves. -/
def record (c : AuditChain) : List AuditEvent → List AuditEntry × AuditChain
  | [] => ([], c)
  | event :: events => match append mac c event with
    | .error _ => record c events
    | .ok (entry, c') => (entry :: (record c' events).1, (record c' events).2)

/-! ## Verification -/

/-- The loop of `verify_chain`. -/
def verifyFrom (idx : Nat) (expectedSeq : UInt64) (expectedPrev : Digest) :
    List AuditEntry → Except AuditError Unit
  | [] => .ok ()
  | e :: es =>
    if e.seq ≠ expectedSeq then .error (.sequenceGap idx expectedSeq e.seq)
    else if e.prevHmac ≠ expectedPrev then .error (.chainBroken idx)
    else match canonicalBytes e with
      | .error error => .error error
      | .ok bytes =>
        if e.hmac ≠ mac bytes then .error (.hmacMismatch idx)
        else verifyFrom (idx + 1) (next expectedSeq) e.hmac es

def verifyChain (entries : List AuditEntry) : Except AuditError Unit :=
  verifyFrom mac 0 1 zeros entries

/-- `verify_against_checkpoint`: the checkpoint's HMAC is that of the entry before its
sequence number. -/
def verifyAgainstCheckpoint (entries : List AuditEntry) (seq : UInt64) (hmac : Digest) :
    Except AuditError Unit :=
  match entries.getLast? with
  | none => if seq = 1 ∧ hmac = zeros then .ok () else .error (.truncationDetected seq 0)
  | some last =>
    if seq = 0 then .error (.truncationDetected seq last.seq)
    else if (if seq = 1 then some zeros else (entries[seq.toNat - 2]?).map AuditEntry.hmac) =
        some hmac then .ok ()
    else .error (.truncationDetected seq last.seq)

/-! ## The bytes say what the entry is -/

/-- Every length fits its width. -/
def AuditEntry.Fits (e : AuditEntry) : Prop :=
  ∀ field ∈ e.fields, field.2.2.length < 256 ^ field.2.1

variable {e : AuditEntry} {k n i : Nat} {u v : Bytes} {seq : UInt64}

/-- An event that fits has its layout as canonical bytes. -/
theorem canonicalBytes_eq_ok_iff {bytes : Bytes} :
    canonicalBytes e = .ok bytes ↔ e.Fits ∧ bytes = layout e := by
  unfold canonicalBytes
  cases hfind : e.fields.find? fun field => 256 ^ field.2.1 ≤ field.2.2.length with
  | some field =>
    have hlong := find?_some hfind
    have hmem := mem_of_find?_eq_some hfind
    simp only [decide_eq_true_eq] at hlong
    constructor
    · nofun
    · rintro ⟨hfits, -⟩
      exact absurd (hfits field hmem) (by omega)
  | none =>
    have hfits : e.Fits := by
      intro field hmem
      have hshort := find?_eq_none.1 hfind field hmem
      simp only [decide_eq_true_eq] at hshort
      omega
    simp [hfits, eq_comm]

theorem bigEndian_append_inj {m : Nat} (hm : m < 256 ^ k) (hn : n < 256 ^ k)
    (h : bigEndian k m ++ u = bigEndian k n ++ v) : m = n ∧ u = v := by
  obtain ⟨hword, hrest⟩ := append_inj h (by rw [length_bigEndian, length_bigEndian])
  exact ⟨bigEndian_inj hm hn hword, hrest⟩

/-- Framed bytes are delimited. -/
theorem framed_append_inj {a b : Bytes} (ha : a.length < 256 ^ k) (hb : b.length < 256 ^ k)
    (h : framed k a ++ u = framed k b ++ v) : a = b ∧ u = v := by
  rw [framed, framed, append_assoc, append_assoc] at h
  obtain ⟨hlength, hrest⟩ := bigEndian_append_inj ha hb h
  exact append_inj hrest hlength

theorem u64_append_inj {m n : UInt64} (h : bigEndian 8 m.toNat ++ u = bigEndian 8 n.toNat ++ v) :
    m = n ∧ u = v := by
  obtain ⟨hword, hrest⟩ := bigEndian_append_inj m.toNat_lt n.toNat_lt h
  exact ⟨UInt64.toNat_inj.1 hword, hrest⟩

/-- **The canonical bytes determine every field but the HMAC.** -/
theorem layout_inj {e e' : AuditEntry} (he : e.Fits) (he' : e'.Fits) (h : layout e = layout e') :
    e.seq = e'.seq ∧ e.prevHmac = e'.prevHmac ∧ e.toAuditEvent = e'.toAuditEvent := by
  simp only [AuditEntry.Fits, AuditEvent.fields, forall_mem_cons] at he he'
  obtain ⟨hevent, htransport, huser, hip, hresult, hdetails, -⟩ := he
  obtain ⟨hevent', htransport', huser', hip', hresult', hdetails', -⟩ := he'
  simp only [layout, AuditEvent.middle, append_assoc] at h
  obtain ⟨hseq, h⟩ := u64_append_inj h
  obtain ⟨hts, h⟩ := u64_append_inj h
  obtain ⟨h₁, h⟩ := framed_append_inj hevent hevent' h
  obtain ⟨h₂, h⟩ := framed_append_inj htransport htransport' h
  obtain ⟨h₃, h⟩ := framed_append_inj huser huser' h
  obtain ⟨h₄, h⟩ := framed_append_inj hip hip' h
  obtain ⟨h₅, h⟩ := append_inj h (by simp)
  replace h₅ := List.Vector.eq _ _ h₅
  obtain ⟨h₆, h⟩ := framed_append_inj hresult hresult' h
  obtain ⟨h₇, h⟩ := framed_append_inj hdetails hdetails' h
  refine ⟨hseq, List.Vector.eq _ _ h, ?_⟩
  cases e with | mk ev => cases e' with | mk ev' =>
  cases ev
  simp_all

/-! ## Chains -/

/-- The entries are numbered from `seq`, each linked to the one before it and signed. -/
def Linked (seq : UInt64) (prevHmac : Digest) : List AuditEntry → Prop
  | [] => True
  | e :: es => e.seq = seq ∧ e.prevHmac = prevHmac ∧ e.Fits ∧ e.hmac = mac (layout e) ∧
      Linked (next seq) e.hmac es

/-- A log is verified when it is linked. -/
theorem verifyFrom_eq_ok_iff (idx : Nat) (seq : UInt64) (prevHmac : Digest)
    (entries : List AuditEntry) :
    verifyFrom mac idx seq prevHmac entries = .ok () ↔ Linked mac seq prevHmac entries := by
  induction entries generalizing idx seq prevHmac with
  | nil => simp [verifyFrom, Linked]
  | cons e es ih =>
    rw [verifyFrom, Linked]
    split
    case isTrue hseq => simp [hseq]
    split
    case isTrue hprev => simp [hprev]
    case isFalse hseq hprev =>
      rw [not_not] at hseq hprev
      cases hbytes : canonicalBytes e with
      | error error =>
        have hlong : ¬ e.Fits := fun hfits => by
          rw [canonicalBytes_eq_ok_iff.2 ⟨hfits, rfl⟩] at hbytes
          cases hbytes
        simp [hlong]
      | ok bytes =>
        obtain ⟨hfits, rfl⟩ := canonicalBytes_eq_ok_iff.1 hbytes
        by_cases hmac : e.hmac = mac (layout e)
        · simp only [hmac, ne_eq, not_true_eq_false, if_false]
          rw [ih]
          simp [hseq, hprev, hfits]
        · simp [hmac]

/-- A stamp replaces the two fields of the chain. -/
theorem stamp_layout (event : AuditEvent) (seq seq' : UInt64)
    (prevHmac prevHmac' hmac hmac' : Digest) :
    stamp (layout { event with seq, prevHmac, hmac }) seq' prevHmac' =
      layout { event with seq := seq', prevHmac := prevHmac', hmac := hmac' } := by
  have hlength : (layout { event with seq, prevHmac, hmac }).length - 40 = event.middle.length := by
    simp [layout]
    omega
  have hdrop : (layout { event with seq, prevHmac, hmac }).drop 8 =
      event.middle ++ prevHmac.toList :=
    drop_left' (length_bigEndian 8 _)
  rw [stamp, hlength, hdrop, take_left]
  rfl

/-- What `append` returns, and the chain it leaves. -/
theorem append_eq_ok {c c' : AuditChain} {event : AuditEvent}
    (h : append mac c event = .ok (e, c')) :
    e.seq = c.nextSeq ∧ e.prevHmac = c.prevHmac ∧ e.Fits ∧ e.hmac = mac (layout e) ∧
      c' = ⟨next e.seq, e.hmac⟩ := by
  unfold append at h
  split at h
  · cases h
  case _ canonical hcanonical =>
    obtain ⟨hfits, rfl⟩ := canonicalBytes_eq_ok_iff.1 hcanonical
    cases h
    exact ⟨rfl, rfl, hfits, congrArg mac (stamp_layout ..), rfl⟩

/-- Recorded entries are linked. -/
theorem linked_record (c : AuditChain) (events : List AuditEvent) :
    Linked mac c.nextSeq c.prevHmac (record mac c events).1 := by
  induction events generalizing c with
  | nil => exact True.intro
  | cons event events ih =>
    rw [record]
    split
    · exact ih c
    case _ e c' happend =>
      obtain ⟨hseq, hprev, hfits, hmac, rfl⟩ := append_eq_ok mac happend
      refine ⟨hseq, hprev, hfits, hmac, ?_⟩
      rw [← hseq]
      exact ih ⟨next e.seq, e.hmac⟩

/-- The chain after a run has the number after its last entry, and that entry's HMAC. -/
theorem record_snd (c : AuditChain) (events : List AuditEvent) :
    (record mac c events).2 =
      (record mac c events).1.foldl (fun _ e => ⟨next e.seq, e.hmac⟩) c := by
  induction events generalizing c with
  | nil => rfl
  | cons event events ih =>
    rw [record]
    split
    · exact ih c
    case _ e c' happend =>
      obtain ⟨-, -, -, -, rfl⟩ := append_eq_ok mac happend
      exact ih _

/-- Two parts of a record. -/
theorem record_append (c : AuditChain) (events later : List AuditEvent) :
    (record mac c (events ++ later)).1 =
      (record mac c events).1 ++ (record mac (record mac c events).2 later).1 := by
  induction events generalizing c with
  | nil => rfl
  | cons event events ih =>
    rw [cons_append, record, record]
    split
    · exact ih c
    · exact congrArg (cons _) (ih _)

/-! ## Positions -/

/-- The sequence never returns to zero. -/
theorem next_ne_zero (seq : UInt64) : next seq ≠ 0 := by
  unfold next
  split
  case isTrue h => rw [h]; decide
  case isFalse h =>
    intro hzero
    apply h
    calc seq = seq + 1 - 1 := by simp
      _ = 0xFFFFFFFFFFFFFFFF := by rw [hzero]; rfl

theorem next_ne_one (h : seq ≠ 0) : next seq ≠ 1 := by
  unfold next
  split
  case isTrue h => rw [h]; decide
  case isFalse =>
    intro hone
    apply h
    calc seq = seq + 1 - 1 := by simp
      _ = 0 := by rw [hone]; rfl

/-- The number of the entry at a position. -/
def seqAt (i : Nat) : UInt64 := next^[i] 1

theorem seqAt_succ (i : Nat) : seqAt (i + 1) = next (seqAt i) := Function.iterate_succ_apply' ..

/-- No entry has sequence zero. -/
theorem seqAt_ne_zero (i : Nat) : seqAt i ≠ 0 := by
  cases i with
  | zero => decide
  | succ i => rw [seqAt_succ]; exact next_ne_zero _

/-- One is the first sequence only. -/
theorem seqAt_eq_one_iff : seqAt i = 1 ↔ i = 0 := by
  cases i with
  | zero => exact ⟨fun _ => rfl, fun _ => rfl⟩
  | succ i => simp [seqAt_succ, next_ne_one (seqAt_ne_zero i)]

variable {mac}

/-- An entry of a linked log. -/
theorem Linked.get {prevHmac : Digest} {es : List AuditEntry} (h : Linked mac seq prevHmac es)
    (he : es[i]? = some e) :
    e.seq = next^[i] seq ∧ e.Fits ∧ e.hmac = mac (layout e) ∧
      ∀ j, i = j + 1 → ∃ d, es[j]? = some d ∧ e.prevHmac = d.hmac := by
  induction es generalizing seq prevHmac i with
  | nil => cases he
  | cons d es ih =>
    obtain ⟨hseq, hprev, hfits, hmac, htail⟩ := h
    cases i with
    | zero =>
      cases he
      exact ⟨hseq, hfits, hmac, by simp⟩
    | succ i =>
      obtain ⟨hseq', hfits', hmac', hlink⟩ := ih htail he
      refine ⟨hseq', hfits', hmac', fun j hj => ?_⟩
      cases hj
      cases i with
      | zero =>
        cases es with
        | nil => cases he
        | cons e' es =>
          cases he
          exact ⟨d, rfl, htail.2.1⟩
      | succ i => exact hlink i rfl

/-- The chain when `count` entries of the history have been recorded. -/
def chainAt (history : List AuditEntry) (count : Nat) : AuditChain :=
  (history.take count).foldl (fun _ e => ⟨next e.seq, e.hmac⟩) .new

theorem chainAt_succ {history : List AuditEntry} (hlinked : Linked mac 1 zeros history)
    (he : history[n]? = some e) : chainAt history (n + 1) = ⟨seqAt (n + 1), e.hmac⟩ := by
  rw [chainAt, take_add_one, he, Option.toList_some, foldl_concat, seqAt_succ, (hlinked.get he).1]
  rfl

/-- No two messages signed in the history share an HMAC. -/
def CollisionFree (mac : Bytes → Digest) (history : List AuditEntry) : Prop :=
  ∀ a ∈ history, ∀ b ∈ history, mac (layout a) = mac (layout b) → layout a = layout b

/-- A valid HMAC of the log is on a message that was signed in the history. -/
def Unforged (mac : Bytes → Digest) (history log : List AuditEntry) : Prop :=
  ∀ e ∈ log, e.hmac = mac (layout e) → ∃ h ∈ history, layout h = layout e

section History

variable {history : List AuditEntry} (hlinked : Linked mac 1 zeros history)
  (hfree : CollisionFree mac history) {i : Nat} {e : AuditEntry}

include hlinked in
/-- Only the first entry of a chain has number 1. -/
theorem pos_of_seq_ne_one (he : history[i]? = some e) (h : e.seq ≠ 1) :
    ∃ j d, i = j + 1 ∧ history[j]? = some d ∧ e.prevHmac = d.hmac := by
  obtain ⟨hseq, -, -, hlink⟩ := hlinked.get he
  cases i with
  | zero => exact absurd hseq h
  | succ j =>
    obtain ⟨d, hd, hprev⟩ := hlink j rfl
    exact ⟨j, d, rfl, hd, hprev⟩

include hlinked hfree

/-- **An HMAC stands at one position only**: the links are followed down to the first entry,
since the numbers saturate and do not tell late positions apart. -/
theorem position_unique {j : Nat} {a b : AuditEntry} (ha : history[i]? = some a)
    (hb : history[j]? = some b) (h : a.hmac = b.hmac) : i = j := by
  induction i generalizing j a b with
  | zero =>
    obtain ⟨hseq, hfits, hmac, -⟩ := hlinked.get ha
    obtain ⟨hseq', hfits', hmac', -⟩ := hlinked.get hb
    have hlayout := hfree a (mem_of_getElem? ha) b (mem_of_getElem? hb) (by rw [← hmac, ← hmac', h])
    have hone : seqAt j = 1 :=
      (hseq'.symm.trans (layout_inj hfits hfits' hlayout).1.symm).trans hseq
    exact (seqAt_eq_one_iff.1 hone).symm
  | succ i ih =>
    obtain ⟨hseq, hfits, hmac, hlink⟩ := hlinked.get ha
    obtain ⟨-, hfits', hmac', -⟩ := hlinked.get hb
    have hlayout := hfree a (mem_of_getElem? ha) b (mem_of_getElem? hb) (by rw [← hmac, ← hmac', h])
    obtain ⟨hseqs, hprevs, -⟩ := layout_inj hfits hfits' hlayout
    obtain ⟨d, hd, hprev⟩ := hlink i rfl
    have hne : b.seq ≠ 1 := by
      rw [← hseqs, hseq]
      exact fun hone => absurd (seqAt_eq_one_iff.1 hone) (by omega)
    obtain ⟨k, d', rfl, hd', hprev'⟩ := pos_of_seq_ne_one hlinked hb hne
    rw [ih hd hd' (by rw [← hprev, ← hprev', hprevs])]

variable {log : List AuditEntry}

omit hfree in
/-- A signed entry of an unforged log is one of the history. -/
theorem signed_of_unforged (hkey : Unforged mac history log) {e : AuditEntry} (he : e ∈ log)
    (hfits : e.Fits) (hmac : e.hmac = mac (layout e)) : ∃ i : Nat, history[i]? = some e := by
  obtain ⟨d, hd, hlayout⟩ := hkey e he hmac
  obtain ⟨i, hi⟩ := getElem?_of_mem hd
  obtain ⟨-, hfits', hmac', -⟩ := hlinked.get hi
  obtain ⟨hseq, hprev, hevent⟩ := layout_inj hfits' hfits hlayout
  rw [hlayout, ← hmac] at hmac'
  have heq : d = e := by
    cases d
    cases e
    cases hevent
    cases hseq
    cases hprev
    cases hmac'
    rfl
  exact ⟨i, heq ▸ hi⟩

/-- **A chain of signed messages runs along the history.** -/
theorem getElem?_of_linked (hlog : Linked mac 1 zeros log) (hkey : Unforged mac history log)
    (he : log[i]? = some e) : history[i]? = some e := by
  induction i generalizing e with
  | zero =>
    obtain ⟨hseq, hfits, hmac, -⟩ := hlog.get he
    obtain ⟨j, hj⟩ := signed_of_unforged hlinked hkey (mem_of_getElem? he) hfits hmac
    have hzero : j = 0 := seqAt_eq_one_iff.1 ((hlinked.get hj).1.symm.trans hseq)
    rwa [hzero] at hj
  | succ i ih =>
    obtain ⟨hseq, hfits, hmac, hlink⟩ := hlog.get he
    obtain ⟨d, hd, hprev⟩ := hlink i rfl
    obtain ⟨j, hj⟩ := signed_of_unforged hlinked hkey (mem_of_getElem? he) hfits hmac
    have hne : e.seq ≠ 1 := by
      rw [hseq]
      exact fun hone => absurd (seqAt_eq_one_iff.1 hone) (by omega)
    obtain ⟨k, d', rfl, hd', hprev'⟩ := pos_of_seq_ne_one hlinked hj hne
    have hk : k = i := position_unique hlinked hfree hd' (ih hd) (by rw [← hprev', hprev])
    rwa [hk] at hj

/-- **A log that agrees with the checkpoint after `count` entries has that many.** -/
theorem checkpoint_reached {count : Nat}
    (hlog : ∀ {i : Nat} {e}, log[i]? = some e → history[i]? = some e)
    (hcount : count ≤ history.length)
    (h : verifyAgainstCheckpoint log (chainAt history count).nextSeq
      (chainAt history count).prevHmac = .ok ()) : count ≤ log.length := by
  cases count with
  | zero => omega
  | succ n =>
    obtain ⟨e, he⟩ : ∃ e, history[n]? = some e := ⟨_, getElem?_eq_getElem hcount⟩
    have hne : seqAt (n + 1) ≠ 1 := fun hone => absurd (seqAt_eq_one_iff.1 hone) (by omega)
    rw [chainAt_succ hlinked he, verifyAgainstCheckpoint] at h
    split at h
    · simp [hne] at h
    case _ last hlast =>
      rw [if_neg (seqAt_ne_zero _), if_neg hne] at h
      split at h
      case isFalse => cases h
      case isTrue hfound =>
        obtain ⟨d, hd, hmac⟩ := Option.map_eq_some_iff.1 hfound
        have hn := position_unique hlinked hfree (hlog hd) he hmac
        rw [hn] at hd
        exact (List.getElem?_eq_some_iff.1 hd).1

end History

/-- **Tampering is detected**: a log that the verifier accepts is a prefix of what was recorded,
and it reaches every checkpoint that it agrees with. -/
theorem tampering_is_detected (mac : Bytes → Digest) (events : List AuditEvent) (k : Nat)
    (log : List AuditEntry) (hfree : CollisionFree mac (record mac .new events).1)
    (hkey : Unforged mac (record mac .new events).1 log) (hchain : verifyChain mac log = .ok ()) :
    log <+: (record mac .new events).1 ∧
      (verifyAgainstCheckpoint log (record mac .new (events.take k)).2.nextSeq
          (record mac .new (events.take k)).2.prevHmac = .ok () →
        (record mac .new (events.take k)).1.length ≤ log.length) := by
  have hlinked : Linked mac 1 zeros (record mac .new events).1 := linked_record mac .new events
  have hlog := (verifyFrom_eq_ok_iff mac 0 1 zeros log).1 hchain
  have hget : ∀ {i : Nat} {e}, log[i]? = some e → (record mac .new events).1[i]? = some e :=
    fun he => getElem?_of_linked hlinked hfree hlog hkey he
  have hprefix : (record mac .new (events.take k)).1 <+: (record mac .new events).1 := by
    refine ⟨_, (record_append mac .new (events.take k) (events.drop k)).symm.trans ?_⟩
    rw [take_append_drop]
  have hchainAt : (record mac .new (events.take k)).2 =
      chainAt (record mac .new events).1 (record mac .new (events.take k)).1.length := by
    rw [chainAt, ← prefix_iff_eq_take.1 hprefix]
    exact record_snd mac .new _
  refine ⟨?_, fun h => ?_⟩
  · rw [prefix_iff_getElem?]
    intro i hi
    exact hget (getElem?_eq_getElem hi)
  · rw [hchainAt] at h
    exact checkpoint_reached hlinked hfree hget hprefix.length_le h

/-- A digest that keeps the last byte of the number, for the runs below. -/
def toyMac (bytes : Bytes) : Digest := List.Vector.replicate 32 (bytes.getD 7 0)

def toyEvent : AuditEvent :=
  ⟨0, [1], [], [], [], List.Vector.replicate 8 0, [], []⟩

/-- Of three entries the first two are accepted as a log, against the checkpoint after two. -/
theorem tampering_is_detected_of_two :
    2 ≤ ((record toyMac .new [toyEvent, toyEvent, toyEvent]).1.take 2).length :=
  (tampering_is_detected toyMac [toyEvent, toyEvent, toyEvent] 2
    ((record toyMac .new [toyEvent, toyEvent, toyEvent]).1.take 2)
    (by unfold CollisionFree; decide +kernel) (by unfold Unforged; decide +kernel)
    (by decide +kernel)).2 (by decide +kernel)

end ShamirDb.Audit
