/-
# Truncation keeps what history does not hold

The steps of a process on a segment set keep the retention invariant: whatever was
appended, rotated, cancelled, crashed and reopened in between, the cached metadata bounds
the files.  So in every run truncation drops only entries in the range it was given, and
what is left replays in append order.
-/
import ShamirDb.SegmentRetention

namespace ShamirDb

open WalSegment SegmentSet Machine List

variable {Body : Type} {crc : Bytes → UInt32} {bincode : Bincode Body} {set : SegmentSet}
  {content : Nat → List (WalEntryV2 Body)}

/-! ## The steps of the process -/

namespace SegmentProcess

/-- An attempt to append extends what is stored. -/
theorem extends_attempt (h : Stores crc bincode set content) (hpois : set.active.poisoned = false)
    (write : Option Nat) (payloads : List Bytes) (maxVersion : UInt64) :
    ∃ content', Extends crc bincode set content
      (attempt crc bincode write set payloads maxVersion).2 content' (gained bincode write payloads) :=
  h.setActive (h.active.attempt hpois write payloads maxVersion).1

/-- **An append** stores its batch after everything else if the first write or the retry
succeeds, and nothing otherwise; a record it captures covers the full segment. -/
theorem extends_append (h : Stores crc bincode set content) (write retry : Option Nat)
    (payloads : List Bytes) (maxVersion : UInt64) :
    let q := append crc bincode write retry payloads maxVersion set
    ∃ content', Extends crc bincode set content q.1 content'
        (if write = none ∨ retry = none then entriesOf bincode payloads else []) ∧
      ∀ r, q.2.record? = some r → r.seq = q.1.activeSeq ∧
        Bounds r.maxVersion r.pinned (content' q.1.activeSeq) := by
  obtain ⟨hunpois, hhealthy⟩ := h.unpoisoned
  obtain ⟨content₁, hfirst⟩ :=
    extends_attempt hunpois.stores hhealthy write payloads maxVersion
  obtain ⟨-, hok, herror⟩ := hunpois.stores.active.attempt hhealthy write payloads maxVersion
  have hfirst' := hunpois.trans hfirst
  simp only [append]
  cases hresult : (attempt crc bincode write set.unpoisoned payloads maxVersion).1 with
  | ok n =>
    have hgained := hok n hresult
    rw [hgained] at hfirst'
    have hwhole : (if write = none ∨ retry = none then entriesOf bincode payloads else []) =
        entriesOf bincode payloads := by
      by_cases hw : write = none
      · simp [hw]
      · have hnil : entriesOf bincode payloads = [] := by
          rw [← hgained]
          simp [gained, hw]
        simp [hnil]
    refine ⟨content₁, by rw [hwhole]; exact hfirst', ?_⟩
    intro r hr
    dsimp only at hr
    split at hr
    · cases hr
      exact ⟨rfl, hfirst'.stores.active.bounds⟩
    · cases hr
  | error e =>
    have hpoison := herror e hresult
    have hpoisoned : (attempt crc bincode write set.unpoisoned payloads maxVersion).2.active.poisoned
        = (set.unpoisoned.active.appendBatch crc bincode (outcome write) payloads
            maxVersion).2.poisoned := rfl
    dsimp only
    rw [hpoisoned]
    split
    case isTrue hp =>
      -- the first attempt wrote nothing, so the batch is stored if the retry writes it
      rw [if_pos hp] at hpoison
      have hrotated := hfirst'.trans hfirst'.stores.rotateAfterPoison
      obtain ⟨content₂, hretry⟩ := extends_attempt hrotated.stores rfl retry payloads maxVersion
      have hall := hrotated.trans hretry
      refine ⟨content₂, ?_, ?_⟩
      · simpa [gained, hpoison] using hall
      · rintro _ ⟨⟩
    case isFalse hp =>
      rw [if_neg hp] at hpoison
      refine ⟨content₁, ?_, ?_⟩
      · simpa [gained, hpoison] using hfirst'
      · rintro _ ⟨⟩

section

variable (p : SegmentProcess) (h : Stores crc bincode set content)
include h

/-- **A crash** outside of a write: the directory opens and stores the same entries,
whether or not the next segment's file was already created. -/
theorem restart_set (nextCreated : Bool) :
    ∃ opened, restart crc bincode set nextCreated p = ⟨opened, .idle, [], 0, [], none⟩ ∧
      Extends crc bincode set content opened content [] := by
  cases nextCreated with
  | false =>
    obtain ⟨payloads, hfile, henc⟩ := h.active.whole
    obtain ⟨opened, hopen, hext⟩ := h.reopen set.dir set.maxBytes henc torn_nil
    refine ⟨opened, ?_, hext⟩
    rw [append_nil, ← hfile] at hopen
    simp [restart, image, hopen]
  | true =>
    -- the directory is the one after a swap, before anything was written
    have hswap := h.swap (show set.sealRecord.seq = set.activeSeq from rfl) h.active.bounds
    have hnext : EncodesAll bincode [] (content (set.activeSeq + 1)) := by
      rw [h.ahead _ (Nat.lt_succ_self _)]
      exact .nil
    obtain ⟨opened, hopen, hext⟩ := hswap.stores.reopen set.dir set.maxBytes hnext torn_nil
    refine ⟨opened, ?_, hswap.trans hext⟩
    simp only [SegmentSet.swap, frames_nil, append_nil] at hopen
    simp only [restart, image, if_true, hopen]

/-- **A crash during a write** keeps exactly the frames that were written completely. -/
theorem restart_tear {batch : List Bytes} {entries : List (WalEntryV2 Body)}
    (hbatch : EncodesAll bincode batch entries) (written : Nat) :
    ∃ opened content', restart crc bincode (tear crc written batch set) false p =
        ⟨opened, .idle, [], 0, [], none⟩ ∧
      Extends crc bincode set content opened content'
        (entriesOf bincode (framesWithin written batch)) := by
  obtain ⟨payloads, hfile, henc⟩ := h.active.whole
  obtain ⟨torn, htorn, htake⟩ := take_frames hbatch.length_le written
  obtain ⟨kept, hkept⟩ :=
    encodesAll_of_prefix ⟨entries, hbatch⟩ (framesWithin_isPrefix written batch)
  have hall : EncodesAll bincode (payloads ++ framesWithin written batch)
      (content set.activeSeq ++ kept) := rel_append henc hkept
  -- the segment that open will activate, holding the kept frames
  have hintact : Intact crc bincode (openedActive crc set.dir set.activeSeq
      (payloads ++ framesWithin written batch) (content set.activeSeq ++ kept))
      (content set.activeSeq ++ kept) := by
    refine ⟨⟨_, rfl, hall⟩, rfl, ?_⟩
    refine (bounds_summary _ 0 false).mono (le_max_right_u64 _ _) ?_
    intro hpin
    simp [openedActive, retentionSummary, hpin]
  obtain ⟨content', hext⟩ := h.setActive hintact
  have hcontent : content' set.activeSeq = content set.activeSeq ++ kept := by
    have hstored := hext.stored
    have hclosed : (set.closed.flatMap fun f => content' f.1) =
        set.closed.flatMap fun f => content f.1 :=
      flatMap_congr fun f hf => hext.below f.1 (h.closed_lt f hf)
    simp only [stored] at hstored
    rw [hclosed, append_assoc] at hstored
    exact append_cancel_left hstored
  obtain ⟨opened, hopen, hreopen⟩ :=
    hext.stores.reopen set.dir set.maxBytes (hcontent.symm ▸ hall) htorn
  refine ⟨opened, content', ?_, ?_⟩
  · have himage : (tear crc written batch set).image.wal = set.closed ++ [(set.activeSeq,
        frames crc (payloads ++ framesWithin written batch) ++ torn)] := by
      simp [tear, image, hfile, htake]
    simp only [restart, Bool.false_eq_true, if_false, himage]
    rw [show (tear crc written batch set).dir = set.dir from rfl,
      show (tear crc written batch set).maxBytes = set.maxBytes from rfl,
      show (tear crc written batch set).metas = set.metas from rfl, hopen]
  · rw [entriesOf_encodesAll bincode hkept]
    simpa using hext.trans hreopen

end

/-! ## Whole runs -/

/-- A record of a segment below the active one, covering what it holds. -/
def Covers (activeSeq : Nat) (content : Nat → List (WalEntryV2 Body)) (m : SealedMeta) : Prop :=
  m.seq < activeSeq ∧ Bounds m.maxVersion m.pinned (content m.seq)

variable {p : SegmentProcess} {content content' : Nat → List (WalEntryV2 Body)}
  {durables : List UInt64} {sealing : Sealing}

/-- A record stays right while its segment is. -/
theorem Covers.mono {activeSeq activeSeq' : Nat} {m : SealedMeta} (h : Covers activeSeq content m)
    (hle : activeSeq ≤ activeSeq') (hbelow : ∀ n, n < activeSeq → content' n = content n) :
    Covers activeSeq' content' m := by
  refine ⟨Nat.lt_of_lt_of_le h.1 hle, ?_⟩
  rw [hbelow m.seq h.1]
  exact h.2

variable (crc bincode) in
/-- The invariant of a process: the set is in order, and so is every record a call in
flight still holds. -/
structure Inv (p : SegmentProcess) (content : Nat → List (WalEntryV2 Body)) : Prop where
  stores : Stores crc bincode p.set content
  sealing : ∀ r, p.sealing.record? = some r → r.seq = p.set.activeSeq ∧
    Bounds r.maxVersion r.pinned (content p.set.activeSeq)
  sidecars : ∀ m ∈ p.sidecars, Covers p.set.activeSeq content m
  cleanup : ∀ m ∈ p.cleanup, truncatable p.durable m = true ∧ Covers p.set.activeSeq content m
  failed : p.failed = none

/-- A fresh process. -/
theorem inv_start (dir : String) (maxBytes : Nat) :
    Inv crc bincode (start dir maxBytes) fun _ => [] where
  stores := stores_fresh crc bincode dir maxBytes
  sealing := nofun
  sidecars := nofun
  cleanup := nofun
  failed := rfl

variable {content : Nat → List (WalEntryV2 Body)}

/-- A process that has opened its files. -/
theorem inv_restarted {opened : SegmentSet} (h : Stores crc bincode opened content) :
    Inv crc bincode ⟨opened, .idle, [], 0, [], none⟩ content where
  stores := h
  sealing := nofun
  sidecars := nofun
  cleanup := nofun
  failed := rfl

/-- A step that extends the set and leaves the records in flight alone. -/
theorem Inv.of_extends (h : Inv crc bincode p content) {set' : SegmentSet}
    {more : List (WalEntryV2 Body)} (hext : Extends crc bincode p.set content set' content' more)
    (hsealing : ∀ r, sealing.record? = some r → r.seq = set'.activeSeq ∧
      Bounds r.maxVersion r.pinned (content' set'.activeSeq)) :
    Inv crc bincode { p with set := set', sealing } content' where
  stores := hext.stores
  sealing := hsealing
  sidecars := fun m hm => (h.sidecars m hm).mono hext.seq_le hext.below
  cleanup := fun m hm => ⟨(h.cleanup m hm).1, (h.cleanup m hm).2.mono hext.seq_le hext.below⟩
  failed := h.failed

/-- A failed fsync poisons the active segment and changes nothing else. -/
theorem Inv.sync (h : Inv crc bincode p content) (succeeds : Bool)
    (hsealing : ∀ r, sealing.record? = some r → p.sealing.record? = some r) :
    Inv crc bincode { p with set := (p.set.sync succeeds).2, sealing } content ∧
      stored (p.set.sync succeeds).2 content = stored p.set content := by
  have hactive : Intact crc bincode (p.set.active.sync succeeds).2 (content p.set.activeSeq) := by
    cases succeeds with
    | false => exact ⟨h.stores.active.whole, h.stores.active.length, h.stores.active.bounds⟩
    | true => exact h.stores.active
  have hstores : Stores crc bincode (p.set.sync succeeds).2 content :=
    ⟨⟨h.stores.aligned.seqs, h.stores.aligned.ascending⟩, h.stores.noMeta, h.stores.closed, hactive,
      h.stores.ahead, h.stores.sealed, h.stores.metas⟩
  have hext : Extends crc bincode p.set content (p.set.sync succeeds).2 content [] :=
    ⟨hstores, (append_nil _).symm, le_rfl, fun _ _ => rfl⟩
  exact ⟨h.of_extends hext fun r hr => h.sealing r (hsealing r hr), rfl⟩

variable (bincode) in
/-- The entries whose frames a step writes completely. -/
def writes (p : SegmentProcess) : Event → List (WalEntryV2 Body)
  | .append write retry payloads _ =>
    if p.sealing = .idle ∧ (write = none ∨ retry = none) then entriesOf bincode payloads else []
  | .crashInAppend _ written payloads maxVersion =>
    if p.sealing = .idle ∧ (admission bincode payloads maxVersion false).isOk then
      entriesOf bincode (framesWithin written payloads)
    else []
  | _ => []

/-- The versions up to which a step may drop entries. -/
def drops (p : SegmentProcess) : Event → List UInt64
  | .unlink _ => if p.cleanup = [] then [] else [p.durable]
  | _ => []

variable (crc bincode) in
/-- What one step does to the stored entries: it adds what it writes at the end and drops
only what it may drop. -/
def Advances (p : SegmentProcess) (content : Nat → List (WalEntryV2 Body)) (e : Event) : Prop :=
  ∃ content', Inv crc bincode (step crc bincode p e) content' ∧
    Survives (drops p e) (stored p.set content ++ writes bincode p e)
      (stored (step crc bincode p e).set content')

section Steps

variable {p : SegmentProcess}

/-- A step whose effect on the log is known. -/
theorem Inv.advances {e : Event} {q : SegmentProcess} (hstep : step crc bincode p e = q)
    (h : Inv crc bincode q content')
    (hstored : stored q.set content' = stored p.set content ++ writes bincode p e) :
    Advances crc bincode p content e := by
  subst hstep
  exact ⟨content', h, hstored ▸ Survives.refl _ _⟩

section

variable (h : Inv crc bincode p content)
include h

/-- A step that does nothing. -/
theorem Inv.advances_stay {e : Event} (hstay : step crc bincode p e = p)
    (hwrites : writes bincode p e = []) : Advances crc bincode p content e :=
  h.advances hstay (by rw [hwrites, append_nil])

/-- An append, with its second attempt. -/
theorem Inv.step_append (write retry : Option Nat) (payloads : List Bytes) (maxVersion : UInt64) :
    Advances crc bincode p content (.append write retry payloads maxVersion) := by
  by_cases hidle : p.sealing = .idle
  · obtain ⟨content', hext, hsealing⟩ :=
      extends_append h.stores write retry payloads maxVersion
    have hstep : step crc bincode p (.append write retry payloads maxVersion) = { p with
        set := (append crc bincode write retry payloads maxVersion p.set).1
        sealing := (append crc bincode write retry payloads maxVersion p.set).2 } := by
      simp [step, hidle]
    refine (h.of_extends hext hsealing).advances hstep ?_
    rw [hext.stored]
    simp [writes, hidle]
  · exact h.advances_stay (by simp [step, hidle]) (by simp [writes, hidle])

/-- The sync of a rotation. -/
theorem Inv.step_fsync (succeeds : Bool) : Advances crc bincode p content (.fsync succeeds) := by
  cases hsealing : p.sealing with
  | idle | synced r | abandoned => exact h.advances_stay (by simp [step, hsealing]) rfl
  | captured record =>
    obtain ⟨hinv, hstored⟩ := h.sync succeeds
      (show ∀ r, (if succeeds then Sealing.synced record else .idle).record? = some r →
        p.sealing.record? = some r by
          intro r hr
          rw [hsealing]
          cases succeeds with
          | false => cases hr
          | true => exact hr)
    have hstep : step crc bincode p (.fsync succeeds) = { p with
        set := (p.set.sync succeeds).2
        sealing := if succeeds then .synced record else .idle } := by
      simp [step, hsealing]
    exact hinv.advances hstep (hstored.trans (append_nil _).symm)

/-- The swap of a rotation. -/
theorem Inv.step_swap : Advances crc bincode p content .swap := by
  cases hsealing : p.sealing with
  | idle | captured r | abandoned => exact h.advances_stay (by simp [step, hsealing]) rfl
  | synced record =>
    obtain ⟨hseq, hbounds⟩ := h.sealing record (by rw [hsealing]; rfl)
    have hext := h.stores.swap hseq hbounds
    have hswapped : Inv crc bincode { p with set := p.set.swap record, sealing := .idle } content :=
      h.of_extends hext (by rintro _ ⟨⟩)
    have hstep : step crc bincode p .swap = { p with
        set := p.set.swap record, sealing := .idle, sidecars := p.sidecars ++ [record] } := by
      simp [step, hsealing, hseq]
    refine Inv.advances hstep { hswapped with sidecars := fun m hm => ?_ } hext.stored
    rcases mem_append.1 hm with hm | hm
    · exact hswapped.sidecars m hm
    · rw [mem_singleton.1 hm]
      refine ⟨?_, hseq ▸ hbounds⟩
      rw [hseq]
      exact Nat.lt_succ_self _

/-- A rotation is dropped. -/
theorem Inv.step_cancel : Advances crc bincode p content .cancel := by
  by_cases hidle : p.sealing = .idle
  · exact h.advances_stay (by simp [step, hidle]) rfl
  · have hstep : step crc bincode p .cancel = { p with sealing := .abandoned } := by
      simp [step, hidle]
    exact Inv.advances hstep (h.of_extends h.stores.extends_self (by rintro _ ⟨⟩))
      (append_nil _).symm

/-- A sidecar is written. -/
theorem Inv.step_sidecar (i : Nat) (succeeds : Bool) :
    Advances crc bincode p content (.sidecar i succeeds) := by
  cases hrecord : p.sidecars[i]? with
  | none => exact h.advances_stay (by simp [step, hrecord]) rfl
  | some record =>
    obtain ⟨hlt, hbounds⟩ := h.sidecars record (mem_of_getElem? hrecord)
    have hext : Extends crc bincode p.set content
        (if succeeds then p.set.writeSidecar crc record else p.set) content [] := by
      split
      · exact h.stores.writeSidecar hlt hbounds
      · exact h.stores.extends_self
    have hstep : step crc bincode p (.sidecar i succeeds) = { p with
        set := if succeeds then p.set.writeSidecar crc record else p.set
        sidecars := p.sidecars.eraseIdx i } := by
      simp [step, hrecord]
    have hseq : (if succeeds then p.set.writeSidecar crc record else p.set).activeSeq =
        p.set.activeSeq := by
      split <;> rfl
    have hinv := h.of_extends hext (show ∀ r, p.sealing.record? = some r →
      r.seq = (if succeeds then p.set.writeSidecar crc record else p.set).activeSeq ∧ _ by
        rw [hseq]
        exact h.sealing)
    refine Inv.advances hstep { hinv with sidecars := fun m hm => ?_ } hext.stored
    exact hinv.sidecars m (mem_of_mem_eraseIdx hm)

/-- A sync. -/
theorem Inv.step_sync (succeeds : Bool) : Advances crc bincode p content (.sync succeeds) := by
  obtain ⟨hinv, hstored⟩ := h.sync succeeds (fun _ => id)
  exact hinv.advances rfl (hstored.trans (append_nil _).symm)

/-- A truncation begins. -/
theorem Inv.step_truncate (durable : UInt64) :
    Advances crc bincode p content (.truncate durable) := by
  by_cases hgate : p.cleanup = []
  · have hstep : step crc bincode p (.truncate durable) =
        { p with durable, cleanup := p.set.candidates durable } := by
      simp [step, hgate]
    refine Inv.advances hstep { h with cleanup := fun m hm => ?_ } (append_nil _).symm
    obtain ⟨hmem, htrunc⟩ := mem_filter.1 hm
    exact ⟨htrunc, h.stores.sealed_lt m hmem, h.stores.sealed m hmem⟩
  · exact h.advances_stay (by simp [step, hgate]) rfl

/-- Visiting a candidate, with what the visit leaves alone. -/
theorem Inv.unlink (removal : Unlink) :
    Inv crc bincode (step crc bincode p (.unlink removal)) content ∧
      Survives (drops p (.unlink removal)) (stored p.set content)
        (stored (step crc bincode p (.unlink removal)).set content) ∧
      (step crc bincode p (.unlink removal)).set.active = p.set.active ∧
      (step crc bincode p (.unlink removal)).set.activeSeq = p.set.activeSeq := by
  cases hcleanup : p.cleanup with
  | nil =>
    have hstep : step crc bincode p (.unlink removal) = p := by simp [step, hcleanup]
    rw [hstep]
    exact ⟨h, Survives.refl _ _, rfl, rfl⟩
  | cons m ms =>
    obtain ⟨htrunc, hcovers⟩ := h.cleanup m (by simp [hcleanup])
    obtain ⟨hstores, hsurvives, hactive, hseq⟩ :=
      h.stores.truncateOne htrunc hcovers.2 removal.fileOk removal.sidecarOk
    have hstep : step crc bincode p (.unlink removal) = { p with
        set := p.set.truncateOne removal.fileOk removal.sidecarOk m, cleanup := ms } := by
      simp [step, hcleanup]
    rw [hstep]
    refine ⟨⟨hstores, ?_, ?_, ?_, h.failed⟩, ?_, hactive, hseq⟩
    · rw [hseq]
      exact h.sealing
    · rw [hseq]
      exact h.sidecars
    · rw [hseq]
      exact fun r hr => h.cleanup r (by simp [hcleanup, hr])
    · simpa [drops, hcleanup] using hsurvives

/-- A crash between the calls, and the restart. -/
theorem Inv.step_crash (nextCreated : Bool) :
    Advances crc bincode p content (.crash nextCreated) := by
  obtain ⟨opened, hrestart, hext⟩ := restart_set p h.stores nextCreated
  exact (inv_restarted hext.stores).advances hrestart hext.stored

end

/-- A first attempt that fails adds nothing. -/
theorem extends_writingTo (h : Stores crc bincode set content) (failedFirst : Option Nat)
    (payloads : List Bytes) (maxVersion : UInt64) :
    ∃ content', Extends crc bincode set content
      (writingTo crc bincode failedFirst payloads maxVersion set) content' [] := by
  obtain ⟨hunpois, hhealthy⟩ := h.unpoisoned
  cases failedFirst with
  | none => exact ⟨content, hunpois⟩
  | some written =>
    obtain ⟨content', hext⟩ :=
      extends_attempt hunpois.stores hhealthy (some written) payloads maxVersion
    exact ⟨content', (hunpois.trans hext).trans hext.stores.unpoisoned.1⟩

/-- A crash inside an append, and the restart. -/
theorem Inv.step_crashInAppend (h : Inv crc bincode p content) (failedFirst : Option Nat)
    (written : Nat) (payloads : List Bytes) (maxVersion : UInt64) :
    Advances crc bincode p content (.crashInAppend failedFirst written payloads maxVersion) := by
  by_cases hidle : p.sealing = .idle
  swap
  · exact h.advances_stay (by simp [step, hidle]) (by simp [writes, hidle])
  cases hadm : admission bincode payloads maxVersion false with
  | error e =>
    exact h.advances_stay (by simp [step, hadm]) (by simp [writes, hadm, Except.toBool])
  | ok r =>
    obtain ⟨entries, hentries⟩ := encodesAll_of_admission hadm
    obtain ⟨content₁, hwriting⟩ := extends_writingTo h.stores failedFirst payloads maxVersion
    obtain ⟨opened, content₂, hrestart, hext⟩ := restart_tear p hwriting.stores hentries written
    have hstep : step crc bincode p (.crashInAppend failedFirst written payloads maxVersion) =
        ⟨opened, .idle, [], 0, [], none⟩ := by
      simp [step, hidle, hadm, hrestart]
    refine (inv_restarted hext.stores).advances hstep ?_
    rw [(hwriting.trans hext).stored]
    simp [writes, hidle, hadm, Except.toBool]

/-- **The step lemma.** -/
theorem Inv.step (h : Inv crc bincode p content) (e : Event) : Advances crc bincode p content e := by
  cases e with
  | append write retry payloads maxVersion => exact h.step_append write retry payloads maxVersion
  | fsync succeeds => exact h.step_fsync succeeds
  | swap => exact h.step_swap
  | cancel => exact h.step_cancel
  | sidecar i succeeds => exact h.step_sidecar i succeeds
  | sync succeeds => exact h.step_sync succeeds
  | truncate durable => exact h.step_truncate durable
  | unlink removal =>
    obtain ⟨hinv, hsurvives, -⟩ := h.unlink removal
    exact ⟨content, hinv, (append_nil (stored p.set content)).symm ▸ hsurvives⟩
  | crash nextCreated => exact h.step_crash nextCreated
  | crashInAppend failedFirst written payloads maxVersion =>
    exact h.step_crashInAppend failedFirst written payloads maxVersion

end Steps

variable (crc bincode) in
/-- Every entry written in a run, in append order. -/
def appended : SegmentProcess → List Event → List (WalEntryV2 Body)
  | _, [] => []
  | p, e :: es => writes bincode p e ++ appended (step crc bincode p e) es

/-- The version a step starts a truncation with. -/
def Event.truncation? : Event → Option UInt64
  | .truncate durable => some durable
  | _ => none

/-- The versions the truncations of a run were started with. -/
def truncations (es : List Event) : List UInt64 := es.filterMap Event.truncation?

/-- The truncation under way is the same after a step, or over. -/
def SameCleanup (p q : SegmentProcess) : Prop :=
  q.cleanup = [] ∨ q.cleanup = p.cleanup ∧ q.durable = p.durable

/-- A restart forgets the cleanup; one that fails leaves it. -/
theorem sameCleanup_restart (set : SegmentSet) (nextCreated : Bool) (p : SegmentProcess) :
    SameCleanup p (restart crc bincode set nextCreated p) := by
  unfold restart
  dsimp only
  split
  · exact .inl rfl
  · exact .inr ⟨rfl, rfl⟩

/-- Only `truncate` starts a truncation, and only `unlink` moves it on. -/
theorem sameCleanup_step (p : SegmentProcess) (e : Event) (htruncate : e.truncation? = none)
    (hunlink : ∀ removal, e ≠ .unlink removal) : SameCleanup p (step crc bincode p e) := by
  cases e with
  | truncate durable => cases htruncate
  | unlink removal => exact absurd rfl (hunlink removal)
  | crash nextCreated => exact sameCleanup_restart p.set nextCreated p
  | crashInAppend failedFirst written payloads maxVersion =>
    rw [step]
    split
    · split
      · exact .inr ⟨rfl, rfl⟩
      · exact sameCleanup_restart _ false p
    · exact .inr ⟨rfl, rfl⟩
  | append write retry payloads maxVersion | fsync succeeds | cancel | sidecar i succeeds =>
    rw [step]
    split <;> exact .inr ⟨rfl, rfl⟩
  | swap =>
    rw [step]
    split
    · split <;> exact .inr ⟨rfl, rfl⟩
    · exact .inr ⟨rfl, rfl⟩
  | sync succeeds => exact .inr ⟨rfl, rfl⟩

section

variable (h : p.cleanup ≠ [] → p.durable ∈ durables) (e : Event)
include h

/-- A truncation under way after a step was started by it or was under way before. -/
theorem durable_step (hne : (step crc bincode p e).cleanup ≠ []) :
    (step crc bincode p e).durable ∈ durables ++ truncations [e] := by
  by_cases hother : e.truncation? = none ∧ ∀ removal, e ≠ .unlink removal
  · rcases sameCleanup_step p e hother.1 hother.2 with hnil | ⟨hsame, hdurable⟩
    · exact absurd hnil hne
    · rw [hdurable]
      exact mem_append_left _ (h (hsame ▸ hne))
  cases e with
  | truncate durable =>
    by_cases hgate : p.cleanup = []
    · simp [step, hgate, truncations, Event.truncation?]
    · simpa [step, hgate] using .inl (h hgate)
  | unlink removal =>
    cases hcleanup : p.cleanup with
    | nil => simp [step, hcleanup] at hne
    | cons m ms =>
      simpa [step, hcleanup, truncations, Event.truncation?] using h (by simp [hcleanup])
  | _ => exact absurd ⟨rfl, by simp⟩ hother

/-- What a step drops is among the durable versions. -/
theorem drops_subset : drops p e ⊆ durables := by
  cases e with
  | unlink removal =>
    by_cases hnil : p.cleanup = []
    · simp [drops, hnil]
    · simpa [drops, hnil] using h hnil
  | _ => exact nil_subset _

end

/-- **The run lemma.**  What a run stores is what was stored and written, in that order,
without some entries that a truncation was allowed to drop. -/
theorem inv_run (h : Inv crc bincode p content) (durables : List UInt64)
    (hdurable : p.cleanup ≠ [] → p.durable ∈ durables) (es : List Event) :
    ∃ content', Inv crc bincode (run (step crc bincode) p es) content' ∧
      Survives (durables ++ truncations es) (stored p.set content ++ appended crc bincode p es)
        (stored (run (step crc bincode) p es).set content') := by
  induction es generalizing p content durables with
  | nil =>
    refine ⟨content, h, ?_⟩
    rw [appended, append_nil]
    exact Survives.refl _ _
  | cons e es ih =>
    obtain ⟨content₁, hinv, hstep⟩ := h.step e
    obtain ⟨content₂, hinv', hrun⟩ := ih hinv _ (durable_step hdurable e)
    have hall : durables ++ truncations (e :: es) = durables ++ truncations [e] ++ truncations es := by
      rw [truncations, filterMap_cons, truncations, filterMap_cons, truncations]
      cases e.truncation? <;> simp
    refine ⟨content₂, hinv', ?_⟩
    rw [hall, appended, ← append_assoc]
    refine Survives.trans ?_ hrun
    refine (hstep.mono ?_).append (Survives.refl _ _)
    intro d hd
    exact mem_append_left _ (mem_append_left _ (drops_subset hdurable e hd))

variable (crc bincode)

/-- **Truncation safety.**  After every run of appends, rotations, crashes, reopens and
truncations on a segment set, in which failed writes are rolled back, the last open succeeded and the set replays the entries that
were written, in append order, without some of those in `1..d` for a `d` that a
truncation was given; every entry with version 0 or above all of them is there.  A
further visit of the truncation under way leaves the active segment as it is and drops
only entries in `1..p.durable`. -/
theorem truncation_safety (dir : String) (maxBytes : Nat) (es : List Event) :
    let p := run (step crc bincode) (start dir maxBytes) es
    p.failed = none ∧ ∃ entries, p.set.replay crc bincode = .ok entries ∧
      Survives (truncations es) (appended crc bincode (start dir maxBytes) es) entries ∧
      ∀ removal,
        let q := step crc bincode p (.unlink removal)
        q.set.active = p.set.active ∧ q.set.activeSeq = p.set.activeSeq ∧
          ∃ entries', q.set.replay crc bincode = .ok entries' ∧
            Survives [p.durable] entries entries' := by
  intro p
  obtain ⟨content, hinv, hsurvives⟩ :=
    inv_run (inv_start dir maxBytes : Inv crc bincode (start dir maxBytes) fun _ => []) []
      (fun hne => absurd rfl hne) es
  refine ⟨hinv.failed, stored p.set content, hinv.stores.replay, ?_, ?_⟩
  · exact hsurvives
  intro removal q
  obtain ⟨hinv', hdrop, hactive, hseq⟩ := hinv.unlink removal
  refine ⟨hactive, hseq, stored q.set content, hinv'.stores.replay, hdrop.mono ?_⟩
  intro d hd
  by_cases hnil : p.cleanup = []
  · simp [drops, p, hnil] at hd
  · simpa [drops, p, hnil] using hd

/-- A segment of one entry with version 7 goes with a truncation up to 7 and stays with
one up to 6. -/
example : [6, 7].map (fun d => (run (step crc32 Bincode.entries) (start "wal" 10)
    (appendRun none none true true [WalEntryV2.sample 7] 7 ++
      [.truncate d, .unlink ⟨true, true⟩])).set.closed.map Prod.fst) = [[0], []] := by
  decide +kernel

end SegmentProcess

end ShamirDb
