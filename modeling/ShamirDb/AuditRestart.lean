/-
# The audit log over restarts

The server takes the start of its audit chain from the server metadata, which only the offline
tool writes; its own checkpoints go to a database that a launch does not read.  So a server that
is launched again starts with number 1 (`audit_log_restarts`).  If nothing is appended after such
a launch and the clock gives rotated files ascending names, the log on disk is a prefix of one
unbroken chain that reaches every checkpoint (`audit_log_continues`).

Appends and checkpoints run under one gate, and a flush is one step: entries that are appended
while it writes stay in the buffer either way.
-/
import ShamirDb.AuditChain
import ShamirDb.Machine

namespace ShamirDb.Audit

open Machine List Option

/-! ## The server and its files -/

/-- A log file: its complete lines, `none` where a line is not an entry, and whether a part of
a line follows. -/
structure File where
  lines : List (Option AuditEntry) := []
  torn : Bool := false
  deriving DecidableEq

/-- Lines written to the end of the file.  The first one continues a torn line. -/
def File.write (f : File) (torn : Bool) : List AuditEntry → File
  | [] => { f with torn := f.torn || torn }
  | e :: es => ⟨f.lines ++ (if f.torn then none else some e) :: es.map some, torn⟩

/-- A running server.  `stale` says that entries had been issued before its launch. -/
structure Process where
  chain : AuditChain
  buffer : List AuditEntry
  failed : Bool
  persistenceFailed : Bool
  stale : Bool
  deriving DecidableEq

/-- `current` is the file the appender writes to; `renamed` is its name if it was rotated out
and no new file could be opened.  `issued` and `persisted` list what was issued and
checkpointed so far; the database has the last of the checkpoints. -/
structure Server where
  metaCheckpoint : Option AuditChain
  rotated : List (UInt64 × File)
  current : File
  renamed : Option UInt64
  process : Option Process
  issued : List AuditEntry
  persisted : List AuditChain
  deriving DecidableEq

def Server.init : Server := ⟨none, [], {}, none, none, [], []⟩

/-- The outcome of a flush: an error after some lines, or a rotation under a timestamp, after
which the new file may fail to open. -/
structure FlushIo where
  error : Option (Nat × Bool) := none
  rotate : Option (UInt64 × Bool) := none
  deriving DecidableEq

/-- `write` is an error of the checkpoint database, which may have taken the checkpoint. -/
structure CheckpointIo where
  flush : FlushIo := {}
  write : Option Bool := none
  deriving DecidableEq

/-! ## Steps -/

/-- The files under their rotated names. -/
def Server.files (s : Server) : List (UInt64 × File) :=
  s.rotated ++ (s.renamed.map fun ts => (ts, s.current)).toList

/-- `rotate_locked`: a rename replaces a file of that name. -/
def Server.rotate (s : Server) (ts : UInt64) (reopened : Bool) : Server :=
  if s.renamed.isSome then s
  else
    let rotated := s.rotated.filter fun f => f.1 ≠ ts
    if reopened then { s with rotated := rotated ++ [(ts, s.current)], current := {} }
    else { s with rotated, renamed := some ts }

/-- The first lines of the buffer reach the file, and maybe a part of the next one. -/
def Server.writeLines (s : Server) (p : Process) (kept : Nat) (torn : Bool) : Server :=
  { s with current := s.current.write (torn && kept < p.buffer.length) (p.buffer.take kept) }

/-- `flush_buffer_locked`, and whether it succeeded. -/
def Server.flush (s : Server) (p : Process) (io : FlushIo) : Server × Process × Bool :=
  if p.failed then (s, p, false)
  else if p.buffer = [] then (s, p, true)
  else match io.error with
    | some (kept, torn) => (s.writeLines p kept torn, { p with buffer := [], failed := true }, false)
    | none =>
      let written := s.writeLines p p.buffer.length false
      (io.rotate.elim written fun r => written.rotate r.1 r.2, { p with buffer := [] }, true)

/-- `checkpoint_with_appender`, also inside `append`. -/
def Server.checkpoint (s : Server) (p : Process) (io : CheckpointIo) : Server :=
  if p.persistenceFailed then { s with process := some p }
  else
    let (s, p, flushed) := s.flush p io.flush
    if flushed then
      match io.write with
      | none => { s with persisted := s.persisted ++ [p.chain], process := some p }
      | some applied => { s with
          persisted := if applied then s.persisted ++ [p.chain] else s.persisted
          process := some { p with failed := true, persistenceFailed := true } }
    else { s with process := some { p with persistenceFailed := true } }

variable (mac : Bytes → Digest)

/-- `append` of the chain writer. -/
def Server.append (s : Server) (p : Process) (event : AuditEvent) (io : CheckpointIo) : Server :=
  if p.persistenceFailed then s
  else match Audit.append mac p.chain event with
    | .error _ => s
    | .ok (entry, chain) =>
      let s := { s with issued := s.issued ++ [entry] }
      if p.failed then { s with process := some { p with chain, persistenceFailed := true } }
      else
        let p := { p with chain, buffer := p.buffer ++ [entry] }
        if entry.seq.toNat % 1000 = 0 then s.checkpoint p io else { s with process := some p }

/-- The chain of the new process, its appender opens the log under its own name. -/
def Server.launch (s : Server) : Server :=
  let s := { s with
    rotated := s.files, current := if s.renamed.isSome then {} else s.current, renamed := none }
  { s with process := some ⟨s.metaCheckpoint.getD .new, [], false, false, s.issued ≠ []⟩ }

inductive Event where
  | launch
  | append (event : AuditEvent) (io : CheckpointIo)
  | checkpoint (io : CheckpointIo)
  | flush (io : FlushIo)
  | shutdown (io : FlushIo)
  | crash (kept : Nat) (torn : Bool)

def Server.step (s : Server) (e : Event) : Server :=
  match s.process, e with
  | none, .launch => s.launch
  | none, _ => s
  | some _, .launch => s
  | some p, .append event io => s.append mac p event io
  | some p, .checkpoint io => s.checkpoint p io
  | some p, .flush io => { (s.flush p io).1 with process := some (s.flush p io).2.1 }
  | some p, .shutdown io => { (s.flush p io).1 with process := none }
  | some p, .crash kept torn =>
    { (if p.failed then s else s.writeLines p kept torn) with process := none }

/-- The log on disk, complete lines only: the rotated files by name, then the active one. -/
def Server.log (s : Server) : List (Option AuditEntry) :=
  (s.files.mergeSort fun a b => a.1 ≤ b.1).flatMap (fun f => f.2.lines) ++
    if s.renamed.isSome then [] else s.current.lines

/-- The flush a step makes. -/
def Event.flushIo : Event → Option FlushIo
  | .append _ io | .checkpoint io => some io.flush
  | .flush io | .shutdown io => some io
  | .launch | .crash _ _ => none

/-- A rotated file gets a name after all others; nothing is appended by a process launched
after the first entry, nor when the numbers have run out. -/
def Orderly (s : Server) (e : Event) : Prop :=
  (∀ io ∈ e.flushIo, ∀ r ∈ io.rotate, ∀ f ∈ s.files, f.1 < r.1) ∧
    match s.process, e with
    | some p, .append _ _ => p.stale = false ∧ p.chain.nextSeq ≠ 0xFFFFFFFFFFFFFFFF
    | _, _ => True

instance (s : Server) (e : Event) : Decidable (Orderly s e) :=
  -- the timestamps are looked up, not enumerated
  have : DecidablePred fun io : FlushIo => ∀ r ∈ io.rotate, ∀ f ∈ s.files, f.1 < r.1 :=
    fun io => decidableForallMem io.rotate
  have : Decidable (match s.process, e with
      | some p, .append _ _ => p.stale = false ∧ p.chain.nextSeq ≠ 0xFFFFFFFFFFFFFFFF
      | _, _ => True) := by split <;> infer_instance
  @instDecidableAnd _ _ (decidableForallMem e.flushIo) this

/-! ## Chains that grow -/

/-- Sequences count from one until they wrap. -/
theorem seqAt_toNat {i : Nat} (h : i < 2 ^ 64 - 1) : (seqAt i).toNat = i + 1 := by
  induction i with
  | zero => rfl
  | succ i ih =>
    have hi := ih (by omega)
    rw [seqAt_succ, next, if_neg]
    · rw [UInt64.toNat_add, hi]
      show (i + 1 + 1) % 2 ^ 64 = _
      omega
    · intro hmax
      rw [hmax] at hi
      change 2 ^ 64 - 1 = i + 1 at hi
      omega

section

variable {mac : Bytes → Digest}

theorem linked_concat_iff {e : AuditEntry} (es : List AuditEntry) (c : AuditChain) :
    Linked mac c.nextSeq c.prevHmac (es ++ [e]) ↔ Linked mac c.nextSeq c.prevHmac es ∧
      e.seq = (es.foldl (fun _ e => ⟨next e.seq, e.hmac⟩) c).nextSeq ∧
      e.prevHmac = (es.foldl (fun _ e => ⟨next e.seq, e.hmac⟩) c).prevHmac ∧ e.Fits ∧
      e.hmac = mac (layout e) := by
  induction es generalizing c with
  | nil => simp [Linked]
  | cons d es ih =>
    constructor
    · rintro ⟨hseq, hprev, hfits, hmac, hrest⟩
      rw [← hseq] at hrest
      obtain ⟨hlinked, hlast⟩ := (ih ⟨next d.seq, d.hmac⟩).1 hrest
      exact ⟨⟨hseq, hprev, hfits, hmac, hseq ▸ hlinked⟩, hlast⟩
    · rintro ⟨⟨hseq, hprev, hfits, hmac, hlinked⟩, hlast⟩
      refine ⟨hseq, hprev, hfits, hmac, ?_⟩
      rw [← hseq] at hlinked ⊢
      exact (ih ⟨next d.seq, d.hmac⟩).2 ⟨hlinked, hlast⟩

/-- The first entries of a linked log are linked. -/
theorem linked_of_append {seq : UInt64} {prevHmac : Digest} {es ds : List AuditEntry}
    (h : Linked mac seq prevHmac (es ++ ds)) : Linked mac seq prevHmac es := by
  induction es generalizing seq prevHmac with
  | nil => exact True.intro
  | cons e es ih =>
    obtain ⟨hseq, hprev, hfits, hmac, hrest⟩ := h
    exact ⟨hseq, hprev, hfits, hmac, ih hrest⟩

/-- A log agrees with the checkpoints up to its end. -/
theorem verifyAgainstCheckpoint_chainAt {history log : List AuditEntry}
    (hlinked : Linked mac 1 zeros history) (hshort : history.length < 2 ^ 64 - 1)
    (hlog : log <+: history) {n : Nat} (hn : n ≤ log.length) :
    verifyAgainstCheckpoint log (chainAt history n).nextSeq (chainAt history n).prevHmac = .ok () := by
  unfold verifyAgainstCheckpoint
  cases n with
  | zero => split <;> rfl
  | succ n =>
    have he := getElem?_eq_getElem hn
    have he' : history[n]? = some log[n] := by
      obtain ⟨rest, rfl⟩ := hlog
      rw [getElem?_append_left hn, he]
    have hlength := hlog.length_le
    have hseq : (seqAt (n + 1)).toNat - 2 = n := by
      rw [seqAt_toNat (by omega)]
      omega
    have hone : seqAt (n + 1) ≠ 1 := fun h => absurd (seqAt_eq_one_iff.1 h) (by omega)
    rw [chainAt_succ hlinked he']
    split
    case h_1 hnone => simp [getLast?_eq_none_iff.1 hnone] at hn
    case h_2 =>
      simp only [hseq, he, if_neg (seqAt_ne_zero _), if_neg hone, map_some, if_true]

end

/-! ## The invariant -/

variable {mac}

/-- What is on disk are the first of the issued entries. -/
structure Disk (mac : Bytes → Digest) (s : Server) (entries : List AuditEntry) : Prop where
  lines : s.rotated.flatMap (fun f => f.2.lines) ++ s.current.lines = entries.map some
  written : entries <+: s.issued
  sorted : s.files.Pairwise fun f g => f.1 < g.1
  persisted : ∀ c ∈ s.persisted, ∃ n ≤ entries.length, c = chainAt s.issued n
  linked : Linked mac 1 zeros s.issued
  short : s.issued.length < 2 ^ 64 - 1
  unset : s.metaCheckpoint = none
  untorn : s.issued = [] → s.current.torn = false

/-- A process that has issued all entries has those in its buffer that are not on disk. -/
structure ProcessOk (s : Server) (entries : List AuditEntry) (p : Process) : Prop where
  buffer : p.failed = false → if p.stale then p.buffer = [] else
    entries ++ p.buffer = s.issued ∧ s.current.torn = false
  chain : p.persistenceFailed = false →
    p.chain = if p.stale then .new else chainAt s.issued s.issued.length

def Inv (mac : Bytes → Digest) (s : Server) : Prop :=
  ∃ entries, Disk mac s entries ∧ ∀ p, s.process = some p → ProcessOk s entries p

/-- A file without a torn line takes all lines. -/
theorem File.write_of_not_torn {f : File} (h : f.torn = false) (torn : Bool)
    (es : List AuditEntry) :
    (f.write torn es).lines = f.lines ++ es.map some ∧ (f.write torn es).torn = torn := by
  cases es with
  | nil => simp [File.write, h]
  | cons e es => simp [File.write, h]

section

variable {s : Server} {p : Process} {entries : List AuditEntry}

/-- The names do not depend on what the file has. -/
theorem files_writeLines (p : Process) (kept : Nat) (torn : Bool) :
    (s.writeLines p kept torn).files.map Prod.fst = s.files.map Prod.fst := by
  cases hr : s.renamed <;> simp [Server.files, Server.writeLines, hr]

/-- Lines of the buffer are written. -/
theorem Disk.writeLines (h : Disk mac s entries) (hbuffer : entries ++ p.buffer = s.issued)
    (htorn : s.current.torn = false) (kept : Nat) (torn : Bool) :
    Disk mac (s.writeLines p kept torn) (entries ++ p.buffer.take kept) := by
  obtain ⟨hlines, htorn'⟩ :=
    File.write_of_not_torn htorn (torn && kept < p.buffer.length) (p.buffer.take kept)
  refine { h with
    lines := ?_, written := ?_, sorted := ?_, persisted := ?_, untorn := ?_ }
  · show s.rotated.flatMap _ ++ (s.current.write _ _).lines = _
    rw [hlines, ← append_assoc, h.lines, map_append]
  · show _ <+: s.issued
    rw [← hbuffer, prefix_append_right_inj]
    exact take_prefix _ _
  · have hsorted := pairwise_map.2 h.sorted
    rw [← files_writeLines p kept torn] at hsorted
    exact pairwise_map.1 hsorted
  · intro c hc
    obtain ⟨n, hn, hchain⟩ := h.persisted c hc
    exact ⟨n, by rw [length_append]; omega, hchain⟩
  · intro hnone
    have hnil : p.buffer = [] := (append_eq_nil_iff.1 (hbuffer.trans hnone)).2
    show (s.current.write _ _).torn = false
    rw [htorn', hnil]
    simp

/-- The current file is rotated. -/
theorem Disk.rotate (h : Disk mac s entries) {ts : UInt64} (hts : ∀ f ∈ s.files, f.1 < ts)
    (reopened : Bool) : Disk mac (s.rotate ts reopened) entries := by
  unfold Server.rotate
  cases hr : s.renamed with
  | some name => exact h
  | none =>
    have hfiles : s.files = s.rotated := by simp [Server.files, hr]
    have hfilter : s.rotated.filter (fun f => f.1 ≠ ts) = s.rotated := by
      rw [filter_eq_self]
      intro f hf
      simpa using (UInt64.ne_of_lt (hts f (hfiles ▸ hf)))
    have hsorted : (s.rotated ++ [(ts, s.current)]).Pairwise fun f g => f.1 < g.1 := by
      rw [pairwise_append]
      refine ⟨hfiles ▸ h.sorted, pairwise_singleton _ _, ?_⟩
      intro f hf g hg
      rw [mem_singleton.1 hg]
      exact hts f (hfiles ▸ hf)
    simp only [hfilter]
    cases reopened with
    | true =>
      refine { h with lines := ?_, sorted := ?_, untorn := fun _ => rfl }
      · simpa using h.lines
      · simpa [Server.files] using hsorted
    | false => exact { h with lines := h.lines, sorted := hsorted }

/-- A rotation issues nothing. -/
theorem rotate_frame (ts : UInt64) (reopened : Bool) (h : s.current.torn = false) :
    (s.rotate ts reopened).issued = s.issued ∧ (s.rotate ts reopened).current.torn = false := by
  unfold Server.rotate
  split
  · exact ⟨rfl, h⟩
  · cases reopened with
    | true => exact ⟨rfl, rfl⟩
    | false => exact ⟨rfl, h⟩

/-- What a flush leaves. -/
structure Flushed (mac : Bytes → Digest) (p : Process) (r : Server × Process × Bool) : Prop where
  latch : r.2.1.persistenceFailed = p.persistenceFailed
  empty : r.2.2 = true → r.2.1.failed = false ∧ r.2.1.buffer = []
  disk : ∃ entries, Disk mac r.1 entries ∧ ProcessOk r.1 entries r.2.1

section

variable (h : Disk mac s entries) {io : CheckpointIo} {event : AuditEvent}
include h

/-- A flush. -/
theorem flush_flushed (hp : ProcessOk s entries p) {io : FlushIo}
    (hio : ∀ r ∈ io.rotate, ∀ f ∈ s.files, f.1 < r.1) : Flushed mac p (s.flush p io) := by
  unfold Server.flush
  cases hfailed : p.failed with
  | true => exact ⟨rfl, by simp, entries, h, hp⟩
  | false =>
    by_cases hempty : p.buffer = []
    · simp only [if_pos hempty]
      exact ⟨rfl, fun _ => ⟨hfailed, hempty⟩, entries, h, hp⟩
    have hbuffer := hp.buffer hfailed
    have hstale : p.stale = false := by
      by_contra hs
      rw [Bool.not_eq_false] at hs
      rw [hs] at hbuffer
      exact hempty hbuffer
    rw [hstale] at hbuffer
    obtain ⟨hall, htorn⟩ := hbuffer
    simp only [if_neg hempty]
    cases io.error with
    | some e =>
      refine ⟨rfl, by simp, _, h.writeLines hall htorn e.1 e.2, ?_⟩
      exact ⟨by simp, hp.chain⟩
    | none =>
      have hdisk := h.writeLines hall htorn p.buffer.length false
      have htorn' : (s.writeLines p p.buffer.length false).current.torn = false :=
        (File.write_of_not_torn htorn _ _).2
      rw [take_length, hall] at hdisk
      have hok : ∀ s' : Server, s'.issued = s.issued → s'.current.torn = false →
          ProcessOk s' s.issued { p with buffer := [], failed := false } := by
        intro s' hissued htorn
        refine ⟨fun _ => ?_, ?_⟩
        · simp [hissued, htorn]
        · rw [hissued]
          exact hp.chain
      cases hr : io.rotate with
      | none => exact ⟨rfl, fun _ => ⟨rfl, rfl⟩, _, hdisk, hok (s.writeLines p _ false) rfl htorn'⟩
      | some r =>
        obtain ⟨hissued, htorn''⟩ := rotate_frame r.1 r.2 htorn'
        have hts : ∀ f ∈ (s.writeLines p p.buffer.length false).files, f.1 < r.1 := by
          intro f hf
          have hname := mem_map_of_mem (f := Prod.fst) hf
          rw [files_writeLines] at hname
          obtain ⟨g, hg, hgf⟩ := mem_map.1 hname
          rw [← hgf]
          exact hio r hr g hg
        exact ⟨rfl, fun _ => ⟨rfl, rfl⟩, _, hdisk.rotate hts r.2, hok _ hissued htorn''⟩

/-- The process is no part of the disk. -/
theorem Disk.setProcess (process : Option Process) :
    Disk mac { s with process } entries := { h with }

theorem Disk.inv (hp : ProcessOk s entries p) : Inv mac { s with process := some p } := by
  refine ⟨entries, h.setProcess _, ?_⟩
  rintro _ ⟨⟩
  exact { hp with }

/-- A checkpoint. -/
theorem Inv.checkpoint (hp : ProcessOk s entries p)
    (hio : ∀ r ∈ io.flush.rotate, ∀ f ∈ s.files, f.1 < r.1) : Inv mac (s.checkpoint p io) := by
  unfold Server.checkpoint
  cases hlatch : p.persistenceFailed with
  | true => exact h.inv hp
  | false =>
    obtain ⟨hlatch', hempty, written, hdisk, hok⟩ := flush_flushed h hp hio
    simp only [Bool.false_eq_true, if_false]
    generalize s.flush p io.flush = r at *
    split
    case isFalse => exact hdisk.inv ⟨hok.buffer, by simp⟩
    case isTrue hflushed =>
      obtain ⟨hfailed, hnil⟩ := hempty hflushed
      -- the chain of the process ends where the file ends, or at the start
      have hreached : ∃ n ≤ written.length, r.2.1.chain = chainAt r.1.issued n := by
        rw [hok.chain (hlatch'.trans hlatch)]
        have hbuffer := hok.buffer hfailed
        split
        · exact ⟨0, Nat.zero_le _, rfl⟩
        · rename_i hfresh
          rw [if_neg hfresh, hnil, append_nil] at hbuffer
          exact ⟨written.length, le_rfl, by rw [← hbuffer.1]⟩
      have hadded : Disk mac { r.1 with persisted := r.1.persisted ++ [r.2.1.chain] } written :=
        { hdisk with
          persisted := forall_mem_append.2 ⟨hdisk.persisted, forall_mem_singleton.2 hreached⟩ }
      split
      · exact hadded.inv { hok with }
      · rename_i applied _
        cases applied with
        | true => exact hadded.inv ⟨by simp, by simp⟩
        | false => exact hdisk.inv ⟨by simp, by simp⟩

/-- An entry is issued. -/
theorem Disk.append {e : AuditEntry} {c' : AuditChain}
    (happend : Audit.append mac (chainAt s.issued s.issued.length) event = .ok (e, c'))
    (hnext : (chainAt s.issued s.issued.length).nextSeq ≠ 0xFFFFFFFFFFFFFFFF) :
    Disk mac { s with issued := s.issued ++ [e] } entries ∧
      c' = chainAt (s.issued ++ [e]) (s.issued ++ [e]).length := by
  obtain ⟨hseq, hprev, hfits, hmac, rfl⟩ := append_eq_ok mac happend
  rw [chainAt, take_length] at hseq hprev hnext
  have hlinked := (linked_concat_iff s.issued .new).2 ⟨h.linked, hseq, hprev, hfits, hmac⟩
  refine ⟨{ h with
    written := h.written.trans (prefix_append _ _), persisted := ?_, linked := hlinked, short := ?_,
    untorn := fun hnil => absurd hnil (by simp) }, ?_⟩
  · intro c hc
    obtain ⟨n, hn, hchain⟩ := h.persisted c hc
    refine ⟨n, hn, hchain.trans ?_⟩
    have hle := Nat.le_trans hn h.written.length_le
    rw [chainAt, chainAt, take_append_of_le_length hle]
  · have hlast := hlinked.get getElem?_concat_length
    have hnat := seqAt_toNat h.short
    rw [← hseq, hlast.1] at hnext
    have hne : (seqAt s.issued.length).toNat ≠ 2 ^ 64 - 1 := by
      intro hmax
      exact hnext (UInt64.toNat_inj.1 hmax)
    show (s.issued ++ [e]).length < _
    have := h.short
    rw [length_append, length_singleton]
    omega
  · rw [chainAt, take_length, foldl_concat]

/-- An append. -/
theorem Inv.append (hp : ProcessOk s entries p) (hprocess : s.process = some p)
    (hio : ∀ r ∈ io.flush.rotate, ∀ f ∈ s.files, f.1 < r.1) (hstale : p.stale = false)
    (hnext : p.chain.nextSeq ≠ 0xFFFFFFFFFFFFFFFF) : Inv mac (s.append mac p event io) := by
  have hsame : Inv mac s := ⟨entries, h, fun q hq => some.inj (hprocess.symm.trans hq) ▸ hp⟩
  unfold Server.append
  cases hlatch : p.persistenceFailed with
  | true => exact hsame
  | false =>
    have hchain := hp.chain hlatch
    simp only [hstale, Bool.false_eq_true, if_false] at hchain ⊢
    split
    · exact hsame
    rename_i e c' happend
    rw [hchain] at happend hnext
    obtain ⟨hdisk, hc'⟩ := h.append happend hnext
    cases hfailed : p.failed with
    | true => exact hdisk.inv ⟨by simp, by simp⟩
    | false =>
      have hbuffer := hp.buffer hfailed
      simp only [hstale, Bool.false_eq_true, if_false] at hbuffer ⊢
      have hok : ProcessOk { s with issued := s.issued ++ [e] } entries
          ⟨c', p.buffer ++ [e], false, false, false⟩ := by
        refine ⟨fun _ => ?_, fun _ => ?_⟩
        · simp [← hbuffer.1, hbuffer.2]
        · simpa using hc'
      split
      · exact Inv.checkpoint hdisk hok hio
      · exact hdisk.inv hok

/-- A launch reads the chain back. -/
theorem Inv.launch : Inv mac s.launch := by
  refine ⟨entries, ?_, ?_⟩
  · cases hr : s.renamed <;> exact { h with
      lines := by simpa [Server.launch, Server.files, hr] using h.lines
      sorted := by simpa [Server.launch, Server.files] using h.sorted
      untorn := by simp +contextual [Server.launch, hr, h.untorn] }
  · rintro _ ⟨⟩
    by_cases hnone : s.issued = []
    · have hnil : entries = [] := prefix_nil.1 (hnone ▸ h.written)
      have htorn := h.untorn hnone
      refine ⟨fun _ => ?_, fun _ => ?_⟩
      · cases hr : s.renamed <;> simp [Server.launch, hnil, hr, htorn]
      · simp [Server.launch, hnone, h.unset, chainAt]
    · exact ⟨by simp [hnone], by simp [hnone, h.unset]⟩

end

/-- Every orderly step. -/
theorem Inv.step (h : Inv mac s) (e : Event) (horderly : Orderly s e) : Inv mac (s.step mac e) := by
  obtain ⟨entries, hdisk, hprocess⟩ := h
  obtain ⟨hio, hallowed⟩ := horderly
  unfold Server.step
  cases hp : s.process with
  | none =>
    have hsame : Inv mac s := ⟨entries, hdisk, hprocess⟩
    cases e with
    | launch => exact Inv.launch hdisk
    | _ => exact hsame
  | some p =>
    have hok := hprocess p hp
    simp only [hp] at hallowed
    cases e with
    | launch => exact ⟨entries, hdisk, hprocess⟩
    | append event io => exact Inv.append hdisk hok hp (hio _ rfl) hallowed.1 hallowed.2
    | checkpoint io => exact Inv.checkpoint hdisk hok (hio _ rfl)
    | flush io =>
      obtain ⟨written, hdisk', hok'⟩ := (flush_flushed hdisk hok (hio io rfl)).disk
      exact hdisk'.inv hok'
    | shutdown io =>
      obtain ⟨written, hdisk', -⟩ := (flush_flushed hdisk hok (hio io rfl)).disk
      exact ⟨written, hdisk'.setProcess none, by simp⟩
    | crash kept torn =>
      have hend : ∃ written, Disk mac (if p.failed then s else s.writeLines p kept torn) written := by
        cases hfailed : p.failed with
        | true => exact ⟨entries, hdisk⟩
        | false =>
          have hbuffer := hok.buffer hfailed
          split at hbuffer
          · -- nothing is in the buffer, so nothing is written
            have hsame : s.writeLines p kept torn = s := by
              simp [Server.writeLines, hbuffer, File.write]
            exact ⟨entries, by rw [hsame]; exact hdisk⟩
          · exact ⟨_, hdisk.writeLines hbuffer.1 hbuffer.2 kept torn⟩
      obtain ⟨written, hdisk'⟩ := hend
      exact ⟨written, hdisk'.setProcess none, by simp⟩

end

/-! ## Restarts -/

/-- **The log continues** as long as nothing is appended after a launch that found entries:
the complete lines on disk are entries with consecutive numbers from 1, the verifier accepts
them, also against every checkpoint that was persisted, and no number is issued twice. -/
theorem audit_log_continues (mac : Bytes → Digest) (es : List Event)
    (hes : Along (Server.step mac) Orderly .init es) :
    ∃ entries, (run (Server.step mac) .init es).log = entries.map some ∧
      (∀ i e, entries[i]? = some e → e.seq.toNat = i + 1) ∧
      verifyChain mac entries = .ok () ∧
      (∀ c ∈ (run (Server.step mac) .init es).persisted,
        verifyAgainstCheckpoint entries c.nextSeq c.prevHmac = .ok ()) ∧
      ((run (Server.step mac) .init es).issued.map AuditEntry.seq).Nodup := by
  have hinit : Inv mac .init :=
    ⟨[], ⟨rfl, prefix_rfl, .nil, by simp [Server.init], True.intro, by simp [Server.init], rfl,
      fun _ => rfl⟩, by simp [Server.init]⟩
  obtain ⟨entries, hdisk, -⟩ := along_invariant (I := Inv mac) (fun s e h ho => Inv.step h e ho) hinit hes
  generalize run (Server.step mac) Server.init es = s at hdisk
  have hnumber : ∀ i e, s.issued[i]? = some e → e.seq.toNat = i + 1 := by
    intro i e he
    have hi := (List.getElem?_eq_some_iff.1 he).1
    rw [(hdisk.linked.get he).1]
    exact seqAt_toNat (Nat.lt_trans hi hdisk.short)
  obtain ⟨rest, hrest⟩ := hdisk.written
  refine ⟨entries, ?_, ?_, ?_, ?_, ?_⟩
  · rw [Server.log, mergeSort_of_pairwise, ← hdisk.lines]
    · cases hr : s.renamed <;> simp [Server.files, hr]
    · exact hdisk.sorted.imp fun hlt => by simpa using UInt64.le_of_lt hlt
  · intro i e he
    apply hnumber
    rw [← hrest, List.getElem?_append_left (List.getElem?_eq_some_iff.1 he).1, he]
  · exact (verifyFrom_eq_ok_iff mac 0 1 zeros entries).2 (linked_of_append (hrest ▸ hdisk.linked))
  · intro c hc
    obtain ⟨n, hn, rfl⟩ := hdisk.persisted c hc
    exact verifyAgainstCheckpoint_chainAt hdisk.linked hdisk.short ⟨rest, hrest⟩ hn
  · rw [nodup_iff_pairwise_ne, pairwise_map, pairwise_iff_getElem]
    intro i j hi hj hij heq
    have hseqi := hnumber i _ (getElem?_eq_getElem hi)
    have hseqj := hnumber j _ (getElem?_eq_getElem hj)
    rw [heq] at hseqi
    omega

/-- Two entries with a rotation between them, a checkpoint, and a crash that loses a third. -/
def oneLaunch : List Event :=
  [.launch, .append toyEvent {}, .flush { rotate := some (7, true) }, .append toyEvent {},
    .checkpoint {}, .append toyEvent {}, .crash 0 true, .launch]

/-- One launch and one append. -/
theorem audit_log_continues_oneLaunch :
    (run (Server.step toyMac) .init oneLaunch).persisted.length = 1 ∧
      ((run (Server.step toyMac) .init oneLaunch).issued.map AuditEntry.seq).Nodup := by
  obtain ⟨-, -, -, -, -, hnodup⟩ := audit_log_continues toyMac oneLaunch (by decide +kernel)
  exact ⟨by decide +kernel, hnodup⟩

/-- A clean shutdown and a second launch: the log has number 1 twice, and the verifier
reports a gap. -/
theorem audit_log_restarts :
    let s := run (Server.step toyMac) .init
      [.launch, .append toyEvent {}, .checkpoint {}, .shutdown {}, .launch, .append toyEvent {},
        .shutdown {}]
    s.issued.map AuditEntry.seq = [1, 1] ∧ s.log = s.issued.map some ∧
      verifyChain toyMac s.issued = .error (.sequenceGap 1 2 1) := by
  decide +kernel

end ShamirDb.Audit
