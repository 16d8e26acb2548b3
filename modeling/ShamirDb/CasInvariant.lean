/-
# What compare-and-set rests on

The invariant of the compare-and-set machine.  A committed row has reached its cell, is still
to be raised, or had its cell evicted after everything up to it was settled (`cells`); a
client's version is that of its bytes, and whatever commits after them has a newer version
(`TicketOk`); a transaction between Phase CAS and its commit point has the commit lock, and no
newer version of a row it checked is committed (`TxOk`).
-/
import ShamirDb.CompareAndSet

namespace ShamirDb.Cas

open Machine List Option Function
open Mvcc (Cell)

variable {K : Type}

/-! ## Stages of a writer -/

namespace Tx

/-- The part of a commit that runs under the commit lock. -/
def inside (tx : Tx K) : Bool :=
  match tx.place with
  | .validating _ _ | .claiming _ | .appending | .publishing => true
  | _ => false

/-- A version is assigned and the commit point is ahead. -/
def inFlight (tx : Tx K) : Bool :=
  match tx.place with
  | .appending | .raising | .logging => true
  | _ => false

/-- A plain write before its commit point. -/
def isPlain (tx : Tx K) : Bool :=
  match tx.place with
  | .allocating | .raising | .logging => true
  | _ => false

/-- The commit point has been reached, or never will be. -/
def isOver (tx : Tx K) : Bool :=
  match tx.place with
  | .publishing | .ended => true
  | _ => false

end Tx

/-! ## The invariant -/

/-- A client's version is that of its bytes, and every write of the row that commits after
they were taken, or is about to, is newer. -/
structure TicketOk (s : System K) (ticket : Ticket K) : Prop where
  seen_pos : 0 < ticket.seen
  seen_le : ticket.seen ≤ s.lastVersion
  reported : ∀ n ∈ ticket.reported, n = ticket.seen
  later : ∀ (j : Nat) (m : Commit K), ticket.since ≤ j → s.commits[j]? = some m →
    m.key = ticket.key → ticket.seen < m.version
  ahead : ∀ m ∈ s.assigned, m.key = ticket.key → ticket.seen < m.version

/-- A writer that has committed: its rows stand together, and before them no version of a row
it expected is newer than the expected one. -/
structure Committed (s : System K) (t : Nat) (tx : Tx K) (n : Nat) : Prop where
  le : n ≤ s.commits.length
  block : ∀ (q : Nat) (key : K), tx.staged[q]? = some key →
    s.commits[n + q]? = some ⟨tx.version, t, key⟩
  before : ∀ e ∈ tx.cas, ∀ (j : Nat) (m : Commit K), j < n → s.commits[j]? = some m →
    m.key = e.key → m.version ≤ e.expected

/-- What holds of a writer: its expectations are versions its clients were given; under the
commit lock no newer version of a checked row is committed; a version in flight is not settled,
and a plain write has raised its cell before it logs. -/
structure TxOk (s : System K) (t : Nat) (tx : Tx K) : Prop where
  version_le : tx.version ≤ s.lastVersion
  cas : ∀ e ∈ tx.cas, e.key ∈ tx.staged ∧ ∃ ticket, s.tickets[e.ticket]? = some ticket ∧
    ticket.key = e.key ∧ ticket.reported = some e.expected
  parts : ∀ passed todo, tx.place = .validating passed todo → passed ++ todo = tx.cas
  lock : tx.inside = true → tx.needsLock = true → s.lock = some t
  checked : ∀ e ∈ tx.checked, ∀ m ∈ s.commits, m.key = e.key → m.version ≤ e.expected
  inFlight : tx.inFlight = true →
    0 < tx.version ∧ tx.version ∈ s.unsettled ∧ ∀ m ∈ tx.rows t, m ∈ s.assigned
  logging : tx.place = .logging → ∀ key ∈ tx.staged, tx.version ≤ s.versionOf key
  plain : tx.isPlain = true → tx.needsLock = false
  fresh : tx.isOver = false → tx.inFlight = false → tx.version = 0
  newer : 0 < tx.version → ∀ e ∈ tx.cas, e.expected < tx.version
  past : tx.committed ≠ none → tx.isOver = true
  committed : ∀ n, tx.committed = some n → Committed s t tx n

structure Inv (s : System K) : Prop where
  commits : ∀ m ∈ s.commits, 0 < m.version ∧ m.version ≤ s.lastVersion
  owner : ∀ m ∈ s.commits, ∃ tx, s.txs[m.tx]? = some tx ∧ tx.version = m.version ∧
    tx.committed ≠ none
  pending : ∀ m ∈ s.pending, m ∈ s.commits ∧ m.version ∈ s.unsettled
  cells : ∀ m ∈ s.commits, m ∉ s.pending → m.version ≤ s.versionOf m.key ∨
    (s.versionOf m.key = 0 ∧ ∀ u ∈ s.unsettled, m.version < u)
  tickets : ∀ (c : Nat) (ticket : Ticket K), s.tickets[c]? = some ticket → TicketOk s ticket
  txs : ∀ (t : Nat) (tx : Tx K), s.txs[t]? = some tx → TxOk s t tx
  apart : ∀ (t u : Nat) (tx ux : Tx K), s.txs[t]? = some tx → s.txs[u]? = some ux →
    tx.version = ux.version → 0 < tx.version → t = u

/-- What a step of the others leaves to the writer `t`. -/
structure Carries (s s' : System K) (t : Nat) (tx : Tx K) : Prop where
  lastVersion : s.lastVersion ≤ s'.lastVersion
  tickets : ∀ (c : Nat) (ticket : Ticket K), s.tickets[c]? = some ticket →
    ticket.reported ≠ none → s'.tickets[c]? = some ticket
  lock : tx.inside = true → s.lock = some t → s'.lock = some t
  commits : ∃ new, s'.commits = s.commits ++ new ∧ ∀ e ∈ tx.checked, ∀ m ∈ new, m.key ≠ e.key
  unsettled : tx.inFlight = true → tx.version ∈ s.unsettled → tx.version ∈ s'.unsettled
  assigned : ∀ m ∈ s.assigned, m.tx = t → m ∈ s'.assigned
  cells : tx.version ∈ s.unsettled → ∀ key, tx.version ≤ s.versionOf key →
    tx.version ≤ s'.versionOf key

variable {s s' : System K} {t n v : Nat} {tx : Tx K} {key : K} {c : Cell}

/-- A ticket stays right while no commit is added. -/
theorem TicketOk.congr {ticket : Ticket K} (h : TicketOk s ticket)
    (hlast : s.lastVersion ≤ s'.lastVersion) (hcommits : s'.commits = s.commits)
    (hassigned : ∀ m ∈ s'.assigned, m ∈ s.assigned ∨ s.lastVersion < m.version) :
    TicketOk s' ticket where
  seen_pos := h.seen_pos
  seen_le := Nat.le_trans h.seen_le hlast
  reported := h.reported
  later := by
    intro j m hj hm
    rw [hcommits] at hm
    exact h.later j m hj hm
  ahead := by
    intro m hm hkey
    rcases hassigned m hm with hold | hnew
    · exact h.ahead m hold hkey
    · exact Nat.lt_of_le_of_lt h.seen_le hnew

/-- Commits stay committed. -/
theorem Committed.append (h : Committed s t tx n) {new : List (Commit K)}
    (hnew : s'.commits = s.commits ++ new) : Committed s' t tx n where
  le := by
    rw [hnew, length_append]
    exact Nat.le_trans h.le (Nat.le_add_right _ _)
  block := by
    intro q key hq
    have hold := h.block q key hq
    have hlt : n + q < s.commits.length := (List.getElem?_eq_some_iff.1 hold).1
    rw [hnew, getElem?_append_left hlt]
    exact hold
  before := by
    intro e he j m hj hm hkey
    rw [hnew, getElem?_append_left (Nat.lt_of_lt_of_le hj h.le)] at hm
    exact h.before e he j m hj hm hkey

/-- Nothing happens. -/
theorem Carries.refl (s : System K) (t : Nat) (tx : Tx K) : Carries s s t tx :=
  ⟨le_rfl, fun _ _ hc _ => hc, fun _ => id, ⟨[], (append_nil _).symm, by simp⟩,
    fun _ => id, fun _ hm _ => hm, fun _ _ hk => hk⟩

/-- A transaction keeps its facts. -/
theorem TxOk.carry (h : TxOk s t tx) (hc : Carries s s' t tx) : TxOk s' t tx := by
  obtain ⟨new, hnew, hspared⟩ := hc.commits
  refine { h with
    version_le := ?_, cas := ?_, lock := ?_, checked := ?_, inFlight := ?_, logging := ?_
    committed := ?_ }
  · exact Nat.le_trans h.version_le hc.lastVersion
  · intro e he
    obtain ⟨hkey, ticket, hticket, hsame, hreported⟩ := h.cas e he
    exact ⟨hkey, ticket, hc.tickets _ ticket hticket (by simp [hreported]), hsame, hreported⟩
  · exact fun hin hneeds => hc.lock hin (h.lock hin hneeds)
  · intro e he m hm hkey
    rw [hnew, mem_append] at hm
    rcases hm with hold | hm
    · exact h.checked e he m hold hkey
    · exact absurd hkey (hspared e he m hm)
  · intro hfl
    obtain ⟨hpos, hun, hrows⟩ := h.inFlight hfl
    refine ⟨hpos, hc.unsettled hfl hun, fun m hm => hc.assigned m (hrows m hm) ?_⟩
    obtain ⟨key, -, rfl⟩ := mem_map.1 hm
    rfl
  · intro hplace key hkey
    have hfl : tx.inFlight = true := by simp [Tx.inFlight, hplace]
    exact hc.cells (h.inFlight hfl).2.1 key (h.logging hplace key hkey)
  · exact fun n hn => (h.committed n hn).append hnew

/-! ## Cells -/

/-- Setting a cell changes its own version only. -/
theorem versionOf_setCell [DecidableEq K] (s : System K) (key k : K) (c : Option Cell) :
    (s.setCell key c).versionOf k = if k = key then (c.map Cell.version).getD 0 else s.versionOf k := by
  by_cases hk : k = key
  · subst hk
    have hcell : (s.setCell k c).cells k = c := update_self _ _ _
    rw [System.versionOf, hcell, if_pos rfl]
    cases c <;> rfl
  · have hcell : (s.setCell key c).cells k = s.cells k := update_of_ne hk _ _
    rw [System.versionOf, hcell, if_neg hk, System.versionOf]

theorem versionOf_letGo (s : System K) (t : Nat) (k : K) : (s.letGo t).versionOf k = s.versionOf k := by
  unfold System.versionOf System.letGo
  cases hc : s.cells k with
  | none => simp [hc]
  | some c =>
    simp only [hc, map_some]
    split <;> rfl

theorem publish_version (s : System K) (key : K) (v : Nat) :
    (Cell.publish v (s.cells key)).version = max (s.versionOf key) v := by
  unfold System.versionOf
  cases s.cells key with
  | none => exact (Nat.zero_max v).symm
  | some c => rfl

theorem finalize_version (s : System K) (key : K) (v : Nat) :
    (Cell.finalize v (s.cells key)).version = max (s.versionOf key) v := by
  unfold System.versionOf
  cases s.cells key with
  | none => exact (Nat.zero_max v).symm
  | some c => rfl

/-- A reservation keeps the version. -/
theorem reserve_version {txn : Nat} (h : Cell.reserve n txn (s.cells key) = some c) :
    c.version = s.versionOf key := by
  unfold System.versionOf
  cases hc : s.cells key with
  | none =>
    rw [hc] at h
    rw [← some.inj h]
  | some d =>
    rw [hc] at h
    by_cases hfree : d.version ≤ n ∧ d.reservedBy = 0
    · rw [Cell.reserve, if_pos hfree] at h
      rw [← some.inj h]
    · rw [Cell.reserve, if_neg hfree] at h
      simp at h

/-! ## Steps of the shared state -/

/-- Cells that keep their versions, and a commit lock that is given back by a writer outside
its protection. -/
theorem Inv.cells_congr (h : Inv s) {cells : K → Option Cell} {lock : Option Nat}
    (hcells : ∀ k, ({ s with cells, lock } : System K).versionOf k = s.versionOf k)
    (hlock : ∀ u ux, s.txs[u]? = some ux → ux.inside = true → s.lock = some u → lock = some u) :
    Inv { s with cells, lock } := by
  refine { h with cells := ?_, tickets := ?_, txs := ?_ }
  · intro m hm hp
    rw [hcells]
    exact h.cells m hm hp
  · exact fun c ticket hticket => (h.tickets c ticket hticket).congr le_rfl rfl fun _ => .inl
  · intro u ux hux
    refine (h.txs u ux hux).carry { Carries.refl s u ux with lock := hlock u ux hux, cells := ?_ }
    intro _ key hkey
    rw [hcells]
    exact hkey

section

variable [DecidableEq K] (h : Inv s) (hc : c.version = max (s.versionOf key) v)
include h hc

/-- A cell is raised to `v`, which is not below what has been raised before if the cell was
empty. -/
theorem Inv.raiseCell
    (hv : s.versionOf key = 0 → ∀ m ∈ s.commits, m.key = key → m ∉ s.pending → m.version ≤ v) :
    Inv (s.setCell key (some c)) := by
  have hversion : ∀ k, s.versionOf k ≤ (s.setCell key (some c)).versionOf k := by
    intro k
    rw [versionOf_setCell]
    split
    · rename_i hk
      rw [hk, map_some, getD_some]
      omega
    · exact le_rfl
  refine { h with cells := ?_, tickets := ?_, txs := ?_ }
  · intro m hm hp
    rcases h.cells m hm hp with hle | ⟨hzero, hsettled⟩
    · exact .inl (Nat.le_trans hle (hversion m.key))
    by_cases hk : m.key = key
    · left
      rw [versionOf_setCell, if_pos hk, map_some, hc]
      exact Nat.le_trans (hv (hk ▸ hzero) m hm hk hp) (Nat.le_max_right _ _)
    · right
      rw [versionOf_setCell, if_neg hk]
      exact ⟨hzero, hsettled⟩
  · exact fun n ticket hticket => (h.tickets n ticket hticket).congr le_rfl rfl fun _ => .inl
  · intro u ux hux
    exact (h.txs u ux hux).carry
      { Carries.refl s u ux with cells := fun _ k hk => Nat.le_trans hk (hversion k) }

/-- Raising to a version that is not settled loses nothing. -/
theorem Inv.raiseUnsettled (hv : v ∈ s.unsettled) : Inv (s.setCell key (some c)) := by
  apply h.raiseCell hc
  intro hzero m hm hk hp
  rcases h.cells m hm hp with hle | ⟨-, hsettled⟩
  · rw [hk] at hle
    exact absurd (h.commits m hm).1 (by omega)
  · exact Nat.le_of_lt (hsettled v hv)

end

/-- A row whose cell is raised is pending no longer. -/
theorem Inv.unpend [DecidableEq K] (h : Inv s) (m : Commit K) (hm : m.version ≤ s.versionOf m.key) :
    Inv { s with pending := s.pending.filter (· ≠ m) } := by
  refine { h with pending := ?_, cells := ?_, tickets := ?_, txs := ?_ }
  · exact fun n hn => h.pending n (mem_filter.1 hn).1
  · intro n hn hp
    by_cases hnm : n = m
    · exact .inl (hnm ▸ hm)
    · exact h.cells n hn fun hold => hp (mem_filter.2 ⟨hold, by simpa using hnm⟩)
  · exact fun c ticket hticket => (h.tickets c ticket hticket).congr le_rfl rfl fun _ => .inl
  · exact fun u ux hux => (h.txs u ux hux).carry { Carries.refl s u ux with }

end ShamirDb.Cas
