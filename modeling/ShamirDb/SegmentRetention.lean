/-
# What the cached retention metadata of a segment set bounds

`truncate_below` decides from a sealed segment's cached maximum version and pin.  These
come from three places: the live counters of the segment when it was sealed, its sidecar
file, or a replay at open.  The invariant of this file (`Stores`) says that every cached
pair bounds the entries really in the file.

Sequence numbers are never reused, so the entries a segment holds are a function of its
number (`content`), which only changes at the active number.
-/
import ShamirDb.SegmentProcess

namespace ShamirDb

open List Function

variable {Body : Type} (crc : Bytes → UInt32) (bincode : Bincode Body)

open WalSegment SegmentSet Machine

/-! ## Cached bounds -/

/-- A cached maximum version and pin that cover the entries. -/
def Bounds (maxVersion : UInt64) (pinned : Bool) (entries : List (WalEntryV2 Body)) : Prop :=
  ∀ e ∈ entries, e.commitVersion ≤ maxVersion ∧ (e.commitVersion = 0 → pinned = true)

/-- No entries, no demands on the record. -/
theorem bounds_nil (maxVersion : UInt64) (pinned : Bool) :
    Bounds maxVersion pinned ([] : List (WalEntryV2 Body)) := by
  intro e he
  simp at he

theorem le_max_left_u64 (a b : UInt64) : a ≤ max a b := by
  show a ≤ if a ≤ b then b else a
  split
  · assumption
  · exact UInt64.le_refl a

theorem le_max_right_u64 (a b : UInt64) : b ≤ max a b := by
  show b ≤ if a ≤ b then b else a
  split
  · exact UInt64.le_refl b
  · rename_i h
    exact (UInt64.le_total a b).resolve_left h

variable {entries more before after : List (WalEntryV2 Body)} {durables : List UInt64}
  {payloads : List Bytes} {maxVersion : UInt64} {pinned : Bool}

/-- Raised counters still cover. -/
theorem Bounds.mono {maxVersion' : UInt64} {pinned' : Bool} (h : Bounds maxVersion pinned entries)
    (hmax : maxVersion ≤ maxVersion') (hpin : pinned = true → pinned' = true) :
    Bounds maxVersion' pinned' entries := by
  intro e he
  exact ⟨UInt64.le_trans (h e he).1 hmax, fun h0 => hpin ((h e he).2 h0)⟩

/-- The bounds of two batches. -/
theorem Bounds.append {entries : List (WalEntryV2 Body)} (h : Bounds maxVersion pinned entries)
    (h' : Bounds maxVersion pinned more) : Bounds maxVersion pinned (entries ++ more) :=
  forall_mem_append.2 ⟨h, h'⟩

/-- The running maximum of a batch is above its start and above every entry. -/
theorem foldl_max_le (entries : List (WalEntryV2 Body)) (start : UInt64) :
    start ≤ entries.foldl (fun m e => max m e.commitVersion) start ∧
      ∀ e ∈ entries, e.commitVersion ≤ entries.foldl (fun m e => max m e.commitVersion) start := by
  induction entries generalizing start with
  | nil => exact ⟨UInt64.le_refl start, by simp⟩
  | cons entry entries ih =>
    obtain ⟨hstart, hmem⟩ := ih (max start entry.commitVersion)
    refine ⟨UInt64.le_trans (le_max_left_u64 _ _) hstart, ?_⟩
    exact forall_mem_cons.2 ⟨UInt64.le_trans (le_max_right_u64 _ _) hstart, hmem⟩

/-- What admission and replay fold over a batch covers the batch. -/
theorem bounds_summary (entries : List (WalEntryV2 Body)) (maxVersion : UInt64) (pinned : Bool) :
    Bounds (summary entries maxVersion pinned).1 (summary entries maxVersion pinned).2 entries := by
  intro e he
  refine ⟨(foldl_max_le entries maxVersion).2 e he, fun h0 => ?_⟩
  rw [summary, Bool.or_eq_true]
  exact .inr (any_eq_true.2 ⟨e, he, by simp [h0]⟩)

/-- What `truncate_below` may drop: versioned entries up to one of the given versions. -/
def Reclaimable (durables : List UInt64) (e : WalEntryV2 Body) : Bool :=
  durables.any fun d => 0 < e.commitVersion && e.commitVersion ≤ d

/-- What a truncation may take is durable and not pinned. -/
theorem Bounds.reclaimable {m : SealedMeta} {durable : UInt64}
    (h : Bounds m.maxVersion m.pinned entries) (htrunc : truncatable durable m = true) :
    ∀ e ∈ entries, Reclaimable [durable] e = true := by
  simp only [truncatable, Bool.and_eq_true, decide_eq_true_eq] at htrunc
  obtain ⟨⟨hpin, -⟩, hle⟩ := htrunc
  intro e he
  obtain ⟨hmax, hzero⟩ := h e he
  have hpos : 0 < e.commitVersion := by
    rw [UInt64.pos_iff_ne_zero]
    intro h0
    rw [hzero h0] at hpin
    cases hpin
  simp [Reclaimable, hpos, UInt64.le_trans hmax hle]

/-! ## Dropping reclaimable entries -/

/-- `after` is `before` without some reclaimable entries: nothing is reordered, nothing is
added, and everything else is still there. -/
def Survives (durables : List UInt64) (before after : List (WalEntryV2 Body)) : Prop :=
  after.Sublist before ∧
    after.filter (fun e => !Reclaimable durables e) = before.filter (fun e => !Reclaimable durables e)

/-- Nothing is lost. -/
theorem Survives.refl (durables : List UInt64) (entries : List (WalEntryV2 Body)) :
    Survives durables entries entries :=
  ⟨List.Sublist.refl _, rfl⟩

/-- Two losses in a row. -/
theorem Survives.trans {middle : List (WalEntryV2 Body)} (h : Survives durables before middle)
    (h' : Survives durables middle after) : Survives durables before after :=
  ⟨h'.1.trans h.1, h'.2.trans h.2⟩

/-- Losses in two parts. -/
theorem Survives.append {before' after' : List (WalEntryV2 Body)}
    (h : Survives durables before after) (h' : Survives durables before' after') :
    Survives durables (before ++ before') (after ++ after') :=
  ⟨h.1.append h'.1, by rw [filter_append, filter_append, h.2, h'.2]⟩

/-- Reclaimable entries may all go. -/
theorem survives_nil (h : ∀ e ∈ entries, Reclaimable durables e = true) :
    Survives durables entries [] := by
  refine ⟨nil_sublist _, ?_⟩
  rw [filter_nil, eq_comm, filter_eq_nil_iff]
  intro e he
  simp [h e he]

/-- More durable versions allow more losses. -/
theorem Survives.mono {durables durables' : List UInt64} (hsub : durables ⊆ durables')
    (h : Survives durables before after) : Survives durables' before after := by
  -- what the larger list spares, the smaller one spares too
  have hspare : ∀ es : List (WalEntryV2 Body), es.filter (fun e => !Reclaimable durables' e) =
      (es.filter fun e => !Reclaimable durables e).filter fun e => !Reclaimable durables' e := by
    intro es
    rw [filter_filter]
    refine filter_congr fun e _ => ?_
    cases hr : Reclaimable durables e with
    | false => simp
    | true =>
      obtain ⟨d, hd, he⟩ := any_eq_true.1 hr
      have : Reclaimable durables' e = true := any_eq_true.2 ⟨d, hsub hd, he⟩
      simp [this]
  exact ⟨h.1, by rw [hspare, h.2, ← hspare]⟩

/-- Unlinking the file of a covered record. -/
theorem survives_unlink {content : Nat → List (WalEntryV2 Body)} {seq : Nat}
    (h : ∀ e ∈ content seq, Reclaimable durables e = true) (files : List (Nat × Bytes)) :
    Survives durables (files.flatMap fun f => content f.1)
      ((files.filter fun f => f.1 ≠ seq).flatMap fun f => content f.1) := by
  induction files with
  | nil => exact Survives.refl _ _
  | cons f files ih =>
    rw [flatMap_cons]
    by_cases hseq : f.1 = seq
    · rw [filter_cons_of_neg (by simp [hseq])]
      exact (survives_nil (hseq ▸ h)).append ih
    · rw [filter_cons_of_pos (by simp [hseq])]
      exact (Survives.refl _ _).append ih

/-! ## The active segment -/

/-- The entries of a batch, if `append_batch` admits it. -/
def entriesOf (payloads : List Bytes) : List (WalEntryV2 Body) :=
  match admission bincode payloads 0 false with
  | .ok _ => payloads.filterMap fun payload => (WalEntryV2.decode bincode payload).toOption
  | .error _ => []

/-- The entries of a batch that is admitted. -/
theorem entriesOf_encodesAll (h : EncodesAll bincode payloads entries) :
    entriesOf bincode payloads = entries := by
  rw [entriesOf, admission_of_encodesAll h]
  dsimp only
  induction h with
  | nil => rfl
  | cons hp _ ih =>
    rw [filterMap_cons, hp.2, ih]
    rfl

/-- A rejected batch has none. -/
theorem entriesOf_rejected (h : ¬∃ entries, EncodesAll bincode payloads entries) :
    entriesOf bincode payloads = [] := by
  obtain ⟨e, he⟩ := admission_error_of_not h 0 false
  rw [entriesOf, he]

/-- What one attempt adds to the file. -/
def gained (write : Option Nat) (payloads : List Bytes) : List (WalEntryV2 Body) :=
  if write = none then entriesOf bincode payloads else []

/-- A segment of whole frames whose counters cover them. -/
structure Intact (seg : WalSegment) (entries : List (WalEntryV2 Body)) : Prop where
  whole : WholeFile crc bincode seg.file entries
  length : seg.bytesWritten = seg.file.length
  bounds : Bounds seg.maxCommitted seg.retentionPin entries

/-- An empty segment. -/
theorem intact_open_nil (path : String) : Intact crc bincode (WalSegment.open path []) [] :=
  ⟨wholeFile_nil, rfl, bounds_nil _ _⟩

variable {crc bincode} {seg : WalSegment}

/-- The counters cover the old entries and the admitted batch before it is written. -/
theorem Intact.countAll (h : Intact crc bincode seg entries) (more : List (WalEntryV2 Body))
    (maxVersion : UInt64) :
    Bounds (seg.countAll more maxVersion).maxCommitted (seg.countAll more maxVersion).retentionPin
      (entries ++ more) := by
  refine Bounds.append (h.bounds.mono (le_max_left_u64 _ _) ?_)
    ((bounds_summary more maxVersion false).mono (le_max_right_u64 _ _) ?_)
  · intro hpin
    simp [WalSegment.countAll, WalSegment.count, hpin]
  · intro hpin
    simp [WalSegment.countAll, WalSegment.count, hpin]

/-- **One attempt.**  The segment keeps its entries and gains the batch exactly when the
write succeeds.  An attempt that fails without poisoning the segment rejected the
batch. -/
theorem Intact.attempt (h : Intact crc bincode seg entries) (hpois : seg.poisoned = false)
    (write : Option Nat) (payloads : List Bytes) (maxVersion : UInt64) :
    let r := seg.appendBatch crc bincode (SegmentProcess.outcome write) payloads maxVersion
    Intact crc bincode r.2 (entries ++ gained bincode write payloads) ∧
      (∀ n, r.1 = .ok n → gained bincode write payloads = entriesOf bincode payloads) ∧
      ∀ e, r.1 = .error e →
        if r.2.poisoned then write ≠ none else entriesOf bincode payloads = [] := by
  by_cases hdec : ∃ more, EncodesAll bincode payloads more
  swap
  · obtain ⟨e, hrej⟩ := appendBatch_rejected crc seg hdec (SegmentProcess.outcome write) maxVersion
    have hnone := entriesOf_rejected bincode hdec
    rw [hrej]
    simp [gained, hnone, hpois, h]
  obtain ⟨more, hmore⟩ := hdec
  have hentries := entriesOf_encodesAll bincode hmore
  -- a batch that is written: the write succeeds, or there is nothing to write
  have hwritten : write = none ∨ payloads = [] →
      ∃ n, seg.appendBatch crc bincode (SegmentProcess.outcome write) payloads maxVersion =
        (.ok n, { seg.countAll more maxVersion with
          file := seg.file ++ frames crc payloads
          bytesWritten := seg.bytesWritten + (frames crc payloads).length }) := by
    rintro (rfl | rfl)
    · exact appendBatch_ok crc hpois hmore maxVersion
    · exact appendBatch_ok crc hpois hmore maxVersion
  by_cases hok : write = none ∨ payloads = []
  · obtain ⟨n, happend⟩ := hwritten hok
    have hgained : gained bincode write payloads = more := by
      rcases hok with rfl | rfl
      · simp [gained, hentries]
      · cases hmore
        simp [gained, hentries]
    rw [happend, hgained, hentries]
    refine ⟨⟨h.whole.append hmore, ?_, h.countAll more maxVersion⟩, fun _ _ => rfl, ?_⟩
    · simp [h.length]
    · simp
  · obtain ⟨written, rfl⟩ : ∃ written, write = some written :=
      Option.ne_none_iff_exists'.1 fun hn => hok (.inl hn)
    have hne : payloads ≠ [] := fun hn => hok (.inr hn)
    have happend := appendBatch_fails crc hpois hne hmore maxVersion written true
    rw [SegmentProcess.outcome, happend]
    have hgained : gained bincode (some written) payloads = [] := by simp [gained]
    rw [hgained, append_nil]
    refine ⟨⟨?_, ?_, ?_⟩, ?_, ?_⟩
    · simpa [h.length] using h.whole
    · simp [WalSegment.countAll, WalSegment.count, h.length]
    · exact fun e he => h.countAll more maxVersion e (mem_append_left _ he)
    · simp
    · simp

/-! ## The set -/

variable (crc bincode)

/-- The invariant of a set: every file holds the whole frames of its `content`, and every
cached pair covers the content of its segment. -/
structure Stores (set : SegmentSet) (content : Nat → List (WalEntryV2 Body)) : Prop where
  aligned : set.Aligned
  noMeta : ∀ n, set.activeSeq ≤ n → set.metas n = none
  closed : ∀ f ∈ set.closed, WholeFile crc bincode f.2 (content f.1)
  active : Intact crc bincode set.active (content set.activeSeq)
  ahead : ∀ n, set.activeSeq < n → content n = []
  sealed : ∀ m ∈ set.sealed, Bounds m.maxVersion m.pinned (content m.seq)
  metas : ∀ n maxVersion pinned, readMeta crc set.metas n = some (maxVersion, some pinned) →
    Bounds maxVersion pinned (content n)

/-- The entries of a set in append order. -/
def stored (set : SegmentSet) (content : Nat → List (WalEntryV2 Body)) :
    List (WalEntryV2 Body) :=
  (set.closed.flatMap fun f => content f.1) ++ content set.activeSeq

/-- A fresh set stores nothing. -/
theorem stores_fresh (dir : String) (maxBytes : Nat) :
    Stores crc bincode (fresh dir maxBytes) fun _ => [] where
  aligned := ⟨rfl, by simp [fresh]⟩
  noMeta := fun _ _ => rfl
  closed := by simp [fresh]
  active := intact_open_nil crc bincode _
  ahead := fun _ _ => rfl
  sealed := by simp [fresh]
  metas := fun _ _ _ _ => bounds_nil _ _

variable {crc bincode} {set : SegmentSet} {content : Nat → List (WalEntryV2 Body)}

section

variable (h : Stores crc bincode set content)
include h

/-- The closed files hold whole frames. -/
theorem Stores.wholeFiles :
    WholeFiles crc bincode set.closed (set.closed.map fun f => content f.1) := by
  rw [WholeFiles, forall₂_map_right_iff, forall₂_same]
  exact h.closed

/-- Closed files come before the active one. -/
theorem Stores.closed_lt : ∀ f ∈ set.closed, f.1 < set.activeSeq := by
  intro f hf
  exact h.aligned.lt f.1 (mem_map_of_mem hf)

/-- So do the sealed records. -/
theorem Stores.sealed_lt : ∀ m ∈ set.sealed, m.seq < set.activeSeq := by
  intro m hm
  exact h.aligned.lt m.seq (h.aligned.seqs ▸ mem_map_of_mem hm)

/-- A replay returns what is stored. -/
theorem Stores.replay : set.replay crc bincode = .ok (stored set content) := by
  obtain ⟨payloads, hfile, henc⟩ := h.active.whole
  rw [replay_aligned h.aligned h.wholeFiles henc torn_nil (by simpa using hfile)]
  rw [stored, flatMap_def]

end

variable (crc bincode) in
/-- A set that went on from another one: it stores `more` in addition, and the segments
below the old active one hold what they held. -/
structure Extends (set : SegmentSet) (content : Nat → List (WalEntryV2 Body)) (set' : SegmentSet)
    (content' : Nat → List (WalEntryV2 Body)) (more : List (WalEntryV2 Body)) : Prop where
  stores : Stores crc bincode set' content'
  stored : stored set' content' = stored set content ++ more
  seq_le : set.activeSeq ≤ set'.activeSeq
  below : ∀ n, n < set.activeSeq → content' n = content n

/-- Nothing is appended. -/
theorem Stores.extends_self (h : Stores crc bincode set content) :
    Extends crc bincode set content set content [] :=
  ⟨h, by simp, le_rfl, fun _ _ => rfl⟩

/-- Two extensions in a row. -/
theorem Extends.trans {set₁ set₂ set₃ : SegmentSet}
    {content₁ content₂ content₃ : Nat → List (WalEntryV2 Body)} {more' : List (WalEntryV2 Body)}
    (h : Extends crc bincode set₁ content₁ set₂ content₂ more)
    (h' : Extends crc bincode set₂ content₂ set₃ content₃ more') :
    Extends crc bincode set₁ content₁ set₃ content₃ (more ++ more') := by
  refine ⟨h'.stores, ?_, h.seq_le.trans h'.seq_le, ?_⟩
  · rw [h'.stored, h.stored, append_assoc]
  · intro n hn
    rw [h'.below n (Nat.lt_of_lt_of_le hn h.seq_le), h.below n hn]

section

variable (h : Stores crc bincode set content) {record : SealedMeta}
include h

/-- The active segment gains `more`; nothing else moves. -/
theorem Stores.setActive {active : WalSegment} {more : List (WalEntryV2 Body)}
    (hactive : Intact crc bincode active (content set.activeSeq ++ more)) :
    ∃ content', Extends crc bincode set content { set with active } content' more := by
  have hbelow : ∀ n, n < set.activeSeq → update content set.activeSeq
      (content set.activeSeq ++ more) n = content n := by
    intro n hn
    exact update_of_ne hn.ne _ _
  refine ⟨update content set.activeSeq (content set.activeSeq ++ more), ?_, ?_, le_rfl, hbelow⟩
  · refine ⟨⟨h.aligned.seqs, h.aligned.ascending⟩, h.noMeta, ?_, ?_, ?_, ?_, ?_⟩
    · intro f hf
      rw [hbelow f.1 (h.closed_lt f hf)]
      exact h.closed f hf
    · rw [update_self]
      exact hactive
    · intro n hn
      rw [update_of_ne (Nat.ne_of_gt hn)]
      exact h.ahead n hn
    · intro m hm
      rw [hbelow m.seq (h.sealed_lt m hm)]
      exact h.sealed m hm
    · intro n maxVersion pinned hread
      have hlt : n < set.activeSeq := by
        by_contra hge
        simp [readMeta, h.noMeta n (not_lt.1 hge)] at hread
      rw [hbelow n hlt]
      exact h.metas n maxVersion pinned hread
  · have hclosed : (set.closed.flatMap fun f => update content set.activeSeq
        (content set.activeSeq ++ more) f.1) = set.closed.flatMap fun f => content f.1 := by
      refine flatMap_congr fun f hf => ?_
      exact hbelow f.1 (h.closed_lt f hf)
    simp only [stored]
    rw [hclosed, update_self, append_assoc]

/-- The active segment is sealed. -/
theorem Stores.swap (hseq : record.seq = set.activeSeq)
    (hbounds : Bounds record.maxVersion record.pinned (content set.activeSeq)) :
    Extends crc bincode set content (set.swap record) content [] := by
  have hnext : content (set.activeSeq + 1) = [] := h.ahead _ (Nat.lt_succ_self _)
  refine ⟨⟨h.aligned.swap hseq, ?_, ?_, ?_, ?_, ?_, ?_⟩, ?_, Nat.le_succ _, fun _ _ => rfl⟩
  · intro n hn
    exact h.noMeta n (Nat.le_of_succ_le hn)
  · exact forall_mem_append.2 ⟨h.closed, forall_mem_singleton.2 h.active.whole⟩
  · simp only [SegmentSet.swap]
    rw [hnext]
    exact intact_open_nil crc bincode _
  · intro n hn
    exact h.ahead n (Nat.lt_of_succ_lt hn)
  · refine forall_mem_append.2 ⟨h.sealed, forall_mem_singleton.2 ?_⟩
    rw [hseq]
    exact hbounds
  · exact h.metas
  · simp [SegmentSet.swap, stored, hnext]

/-- A poisoned segment is sealed. -/
theorem Stores.rotateAfterPoison :
    Extends crc bincode set content set.rotateAfterPoison content [] := by
  -- there is no sidecar at the active number, so shedding it changes nothing
  have hshed : update set.metas set.activeSeq none = set.metas := by
    rw [update_eq_self_iff]
    exact (h.noMeta set.activeSeq le_rfl).symm
  rw [SegmentSet.rotateAfterPoison, hshed]
  exact h.swap rfl h.active.bounds

/-- Then the active segment is healthy. -/
theorem Stores.unpoisoned :
    Extends crc bincode set content set.unpoisoned content [] ∧
      set.unpoisoned.active.poisoned = false := by
  unfold SegmentSet.unpoisoned
  split
  · exact ⟨h.rotateAfterPoison, rfl⟩
  · exact ⟨h.extends_self, by simpa using ‹¬set.active.poisoned = true›⟩

/-- The sidecar of a sealed segment is written. -/
theorem Stores.writeSidecar (hseq : record.seq < set.activeSeq)
    (hbounds : Bounds record.maxVersion record.pinned (content record.seq)) :
    Extends crc bincode set content (set.writeSidecar crc record) content [] := by
  refine ⟨⟨⟨h.aligned.seqs, h.aligned.ascending⟩, ?_, h.closed, h.active, h.ahead, h.sealed, ?_⟩,
    (append_nil _).symm, le_rfl, fun _ _ => rfl⟩
  · intro n hn
    have hne : n ≠ record.seq := by
      have : set.activeSeq ≤ n := hn
      omega
    exact (update_of_ne hne _ _).trans (h.noMeta n hn)
  · intro n maxVersion pinned hread
    by_cases hn : n = record.seq
    · subst hn
      simp only [SegmentSet.writeSidecar, readMeta, update_self, Option.bind_some,
        SegmentMeta.decode_encode, Option.some.injEq, Prod.mk.injEq] at hread
      rw [← hread.1, ← hread.2]
      exact hbounds
    · simp only [SegmentSet.writeSidecar, readMeta, update_of_ne hn] at hread
      exact h.metas n maxVersion pinned hread

/-- **Unlinking one candidate** drops reclaimable entries only and leaves the active
segment alone. -/
theorem Stores.truncateOne {durable : UInt64}
    {m : SealedMeta} (htrunc : truncatable durable m = true)
    (hbounds : Bounds m.maxVersion m.pinned (content m.seq)) (fileOk sidecarOk : Bool) :
    Stores crc bincode (set.truncateOne fileOk sidecarOk m) content ∧
      Survives [durable] (stored set content) (stored (set.truncateOne fileOk sidecarOk m) content) ∧
      (set.truncateOne fileOk sidecarOk m).active = set.active ∧
      (set.truncateOne fileOk sidecarOk m).activeSeq = set.activeSeq := by
  unfold SegmentSet.truncateOne
  split
  · exact ⟨h, Survives.refl _ _, rfl, rfl⟩
  refine ⟨⟨⟨?_, ?_⟩, ?_, ?_, h.active, h.ahead, ?_, ?_⟩, ?_, rfl, rfl⟩
  · -- the same numbers go from the records and from the files
    have hrecords := filter_map (f := SealedMeta.seq) (p := fun n => n ≠ m.seq) (l := set.sealed)
    have hfiles := filter_map (f := Prod.fst) (p := fun n => n ≠ m.seq) (l := set.closed)
    rw [h.aligned.seqs] at hrecords
    exact hrecords.symm.trans hfiles
  · exact h.aligned.ascending.sublist ((filter_sublist.map _).append (List.Sublist.refl _))
  · intro n hn
    show (if sidecarOk then update set.metas m.seq none else set.metas) n = none
    split
    · by_cases hnm : n = m.seq
      · rw [hnm, update_self]
      · rw [update_of_ne hnm]
        exact h.noMeta n hn
    · exact h.noMeta n hn
  · intro f hf
    exact h.closed f (mem_filter.1 hf).1
  · intro r hr
    exact h.sealed r (mem_filter.1 hr).1
  · intro n maxVersion pinned hread
    by_cases hn : n = m.seq ∧ sidecarOk = true
    · simp [readMeta, hn.1, hn.2] at hread
    refine h.metas n maxVersion pinned ?_
    rw [← hread]
    cases sidecarOk with
    | false => rfl
    | true =>
      have hne : n ≠ m.seq := fun heq => hn ⟨heq, rfl⟩
      simp [readMeta, update_of_ne hne]
  · exact (survives_unlink (hbounds.reclaimable htrunc) set.closed).append (Survives.refl _ _)

/-- The record `open` makes for a closed segment covers it, from its sidecar or from a
replay. -/
theorem Stores.metaOf (n : Nat) :
    Bounds (metaOf crc set.metas n (content n)).maxVersion
      (metaOf crc set.metas n (content n)).pinned (content n) := by
  unfold SegmentSet.metaOf
  split
  case h_1 maxVersion pinned hread => exact h.metas n maxVersion pinned hread
  case h_2 => exact bounds_summary (content n) 0 false

/-- **Reopening**: over the files of the set, with a torn frame at the end of the active
one, `open` succeeds and the new set stores the same entries. -/
theorem Stores.reopen (dir : String) (maxBytes : Nat)
    (henc : EncodesAll bincode payloads (content set.activeSeq)) {torn : Bytes}
    (htorn : Torn crc torn) :
    ∃ opened, SegmentSet.open crc bincode dir maxBytes
        ⟨set.closed ++ [(set.activeSeq, frames crc payloads ++ torn)], set.metas⟩ = .ok opened ∧
      Extends crc bincode set content opened content [] := by
  have hmeta : readMeta crc set.metas set.activeSeq = none := by
    simp [readMeta, h.noMeta set.activeSeq le_rfl]
  refine ⟨_, open_active h.aligned.ascending h.wholeFiles henc htorn hmeta,
    ⟨⟨?_, h.aligned.ascending⟩, ?_, h.closed, ?_, h.ahead, ?_, ?_⟩, (append_nil _).symm,
    le_rfl, fun _ _ => rfl⟩
  · exact seqs_metasOf h.wholeFiles.length_eq
  · intro n hn
    show update set.metas set.activeSeq none n = none
    by_cases hact : n = set.activeSeq
    · rw [hact, update_self]
    · rw [update_of_ne hact]
      exact h.noMeta n hn
  · refine ⟨⟨payloads, rfl, henc⟩, rfl, ?_⟩
    refine (bounds_summary (content set.activeSeq) 0 false).mono (le_max_right_u64 _ _) ?_
    intro hpin
    simp [openedActive, retentionSummary, hpin]
  · intro m hm
    obtain ⟨f, -, rfl⟩ : ∃ f ∈ set.closed, SegmentSet.metaOf crc set.metas f.1 (content f.1) = m := by
      simpa [metasOf, zipWith_map_right] using hm
    rw [seq_metaOf]
    exact h.metaOf f.1
  · intro n maxVersion pinned hread
    refine h.metas n maxVersion pinned ?_
    by_cases hact : n = set.activeSeq
    · simp [readMeta, hact] at hread
    · simpa [readMeta, update_of_ne hact] using hread

end

end ShamirDb
