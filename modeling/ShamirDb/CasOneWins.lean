/-
# Compare-and-set loses no update

Every undisturbed step keeps the invariant, so that in a run of such steps a compare-and-set
write commits only if nothing was committed to the row since its bytes were taken, and of two
writes that expect one version at most one commits.  The steps of the code that disturb a
client are the read of a version that is no longer that of the bytes, the seeding of an evicted
cell with an old version, and commits outside the commit lock.
-/
import ShamirDb.CasInvariant
import ShamirDb.TaskList

namespace ShamirDb.Cas

open Machine TaskList List Nat Option
open Mvcc (Cell)

variable {K : Type} {s : System K} {t : Nat} {tx : Tx K}

/-! ## Changing one writer -/

variable {place : Place K} {ux : Tx K} {e : Expect K}

theorem setTx_self (htx : s.txs[t]? = some tx) (tx' : Tx K) : (s.setTx t tx').txs[t]? = some tx' :=
  set_self htx tx'

/-- A writer that has ended owes nothing any more. -/
theorem TxOk.ended (h : TxOk s t tx) : TxOk s t { tx with place := .ended } :=
  { h with
    parts := by simp
    lock := by simp [Tx.inside]
    checked := by simp [Tx.checked]
    inFlight := by simp [Tx.inFlight]
    logging := by simp
    plain := by simp [Tx.isPlain]
    fresh := by simp [Tx.isOver]
    past := by simp [Tx.isOver]
    committed := fun n hn => { h.committed n hn with } }

/-- A transaction that is not over has not committed. -/
theorem TxOk.uncommitted (h : TxOk s t tx) (hover : tx.isOver = false) : tx.committed = none := by
  by_contra hne
  rw [h.past hne] at hover
  simp at hover

/-- A transaction that has no version yet. -/
theorem TxOk.early (hversion : tx.version = 0) (hcommitted : tx.committed = none)
    (hfl : tx.inFlight = false)
    (hcas : ∀ e ∈ tx.cas, e.key ∈ tx.staged ∧ ∃ ticket, s.tickets[e.ticket]? = some ticket ∧
      ticket.key = e.key ∧ ticket.reported = some e.expected)
    (hparts : ∀ passed todo, tx.place = .validating passed todo → passed ++ todo = tx.cas)
    (hlock : tx.inside = true → tx.needsLock = true → s.lock = some t)
    (hchecked : ∀ e ∈ tx.checked, ∀ m ∈ s.commits, m.key = e.key → m.version ≤ e.expected)
    (hplain : tx.isPlain = true → tx.needsLock = false) : TxOk s t tx where
  version_le := by simp [hversion]
  cas := hcas
  parts := hparts
  lock := hlock
  checked := hchecked
  inFlight := by simp [hfl]
  logging := fun hplace => by simp [Tx.inFlight, hplace] at hfl
  plain := hplain
  fresh := fun _ _ => hversion
  newer := by simp [hversion]
  past := by simp [hcommitted]
  committed := by simp [hcommitted]

theorem TxOk.stage (h : TxOk s t tx) (hplace : tx.place = .running) {staged : List K}
    {cas : List (Expect K)}
    (hcas : ∀ e ∈ cas, e.key ∈ staged ∧ ∃ ticket, s.tickets[e.ticket]? = some ticket ∧
      ticket.key = e.key ∧ ticket.reported = some e.expected) :
    TxOk s t { tx with staged, cas } := by
  have hover : tx.isOver = false := by simp [Tx.isOver, hplace]
  have hfl : tx.inFlight = false := by simp [Tx.inFlight, hplace]
  exact .early (h.fresh hover hfl) (h.uncommitted hover) hfl hcas (by simp [hplace])
    (by simp [Tx.inside, hplace]) (by simp [Tx.checked, hplace]) (by simp [Tx.isPlain, hplace])

/-- A transaction goes from one stage before its version to the next. -/
theorem TxOk.advance (h : TxOk s t tx) (place : Place K)
    (hover : tx.isOver = false) (hfl : tx.inFlight = false)
    (hparts : ∀ passed todo, place = .validating passed todo → passed ++ todo = tx.cas)
    (hplace : (∃ passed todo, place = .validating passed todo) ∨ ∃ todo, place = .claiming todo)
    (hlock : tx.needsLock = true → s.lock = some t)
    (hchecked : ∀ e ∈ ({ tx with place } : Tx K).checked, ∀ m ∈ s.commits, m.key = e.key →
      m.version ≤ e.expected) :
    TxOk s t { tx with place } := by
  refine .early (h.fresh hover hfl) (h.uncommitted hover) ?_ h.cas hparts (fun _ => hlock) hchecked ?_
  · rcases hplace with ⟨_, _, rfl⟩ | ⟨_, rfl⟩ <;> rfl
  · rcases hplace with ⟨_, _, rfl⟩ | ⟨_, rfl⟩ <;> simp [Tx.isPlain]

theorem Inv.passes (h : Inv s) {ticket : Ticket K} (hticket : s.tickets[e.ticket]? = some ticket)
    (hreported : ticket.reported = some e.expected) (hpending : ∀ m ∈ s.pending, m.key ≠ e.key)
    (hversion : s.versionOf e.key = e.expected) :
    ∀ m ∈ s.commits, m.key = e.key → m.version ≤ e.expected := by
  intro m hm hkey
  have hseen := (h.tickets _ ticket hticket).reported e.expected hreported
  have hpos := (h.tickets _ ticket hticket).seen_pos
  rcases h.cells m hm fun hp => hpending m hp hkey with hle | ⟨hzero, -⟩
  · rw [hkey, hversion] at hle
    exact hle
  · rw [hkey] at hzero
    omega

theorem TxOk.assign (h : TxOk s t tx) {s' : System K} (htickets : s'.tickets = s.tickets)
    (hlock : s'.lock = s.lock) (hcommits : s'.commits = s.commits)
    (hlast : s'.lastVersion = s.lastVersion + 1) (hunsettled : s.lastVersion + 1 ∈ s'.unsettled)
    (hplace : (tx.place = .claiming [] ∧ place = .appending) ∨
      (tx.place = .allocating ∧ place = .raising))
    (hrows : ∀ m ∈ ({ tx with version := s.lastVersion + 1, place } : Tx K).rows t, m ∈ s'.assigned)
    (hseen : ∀ e ∈ tx.cas, e.expected ≤ s.lastVersion) :
    TxOk s' t { tx with version := s.lastVersion + 1, place } := by
  have hcommitted : tx.committed = none := by
    apply h.uncommitted
    rcases hplace with ⟨hp, -⟩ | ⟨hp, -⟩ <;> simp [Tx.isOver, hp]
  constructor
  case version_le => exact le_of_eq hlast.symm
  case cas =>
    rw [htickets]
    exact h.cas
  case parts | logging | fresh => rcases hplace with ⟨-, rfl⟩ | ⟨-, rfl⟩ <;> simp [Tx.inFlight]
  case lock =>
    rw [hlock]
    rcases hplace with ⟨hp, rfl⟩ | ⟨-, rfl⟩
    · exact fun _ => h.lock (by simp [Tx.inside, hp])
    · simp [Tx.inside]
  case checked =>
    rw [hcommits]
    rcases hplace with ⟨hp, rfl⟩ | ⟨-, rfl⟩
    · have hchecked := h.checked
      rw [Tx.checked, hp] at hchecked
      exact hchecked
    · simp [Tx.checked]
  case inFlight => exact fun _ => ⟨succ_pos _, hunsettled, hrows⟩
  case plain =>
    rcases hplace with ⟨-, rfl⟩ | ⟨hp, rfl⟩
    · simp [Tx.isPlain]
    · exact fun _ => h.plain (by simp [Tx.isPlain, hp])
  case newer => exact fun _ e he => Nat.lt_succ_of_le (hseen e he)
  case past | committed => simp [hcommitted]

section

variable (h : Inv s) (htx : s.txs[t]? = some tx) {tx' : Tx K}
include h htx

/-- Versions stay apart when a writer keeps its own. -/
theorem Inv.apart_setTx (hversion : tx'.version = tx.version) {u w : Nat} {ux wx : Tx K}
    (hux : (s.setTx t tx').txs[u]? = some ux) (hwx : (s.setTx t tx').txs[w]? = some wx)
    (heq : ux.version = wx.version) (hpos : 0 < ux.version) : u = w := by
  have hold : ∀ (v : Nat) (vx : Tx K), (s.setTx t tx').txs[v]? = some vx →
      ∃ old : Tx K, s.txs[v]? = some old ∧ old.version = vx.version := by
    intro v vx hvx
    rcases set_cases htx hvx with ⟨rfl, rfl⟩ | ⟨-, hvx⟩
    · exact ⟨tx, htx, hversion.symm⟩
    · exact ⟨vx, hvx, rfl⟩
  obtain ⟨uold, huold, hu⟩ := hold u ux hux
  obtain ⟨wold, hwold, hw⟩ := hold w wx hwx
  exact h.apart u w uold wold huold hwold (by rw [hu, hw, heq]) (by rw [hu]; exact hpos)

/-- A writer moves on without a new version. -/
theorem Inv.setTx (hok : TxOk s t tx') (hversion : tx'.version = tx.version)
    (hcommitted : tx'.committed = tx.committed) : Inv (s.setTx t tx') := by
  refine { h with owner := ?_, tickets := ?_, txs := ?_, apart := ?_ }
  · intro m hm
    obtain ⟨ux, hux, huv, huc⟩ := h.owner m hm
    by_cases hmt : m.tx = t
    · rw [hmt, htx, some.injEq] at hux
      refine ⟨tx', hmt ▸ setTx_self htx tx', ?_, ?_⟩
      · rw [hversion, hux, huv]
      · rw [hcommitted, hux]
        exact huc
    · refine ⟨ux, ?_, huv, huc⟩
      exact (set_other hmt tx').trans hux
  · exact fun c ticket hticket => (h.tickets c ticket hticket).congr le_rfl rfl fun _ => .inl
  · intro u ux hux
    rcases set_cases htx hux with ⟨rfl, rfl⟩ | ⟨-, hux⟩
    · exact hok.carry { Carries.refl s u ux with }
    · exact (h.txs u ux hux).carry { Carries.refl s u ux with }
  · exact fun u w ux wx hux hwx => h.apart_setTx htx hversion hux hwx

/-- An ended writer gives back what it holds. -/
theorem Inv.letGo (hin : tx.inside = false) : Inv (s.letGo t) := by
  apply h.cells_congr (versionOf_letGo s t)
  intro u ux hux huin hlock
  have hne : u ≠ t := by
    rintro rfl
    rw [htx, some.injEq] at hux
    rw [← hux, hin] at huin
    simp at huin
  rw [if_neg, hlock]
  rw [hlock, some.injEq]
  exact hne

/-- A transaction quits. -/
theorem Inv.quit : Inv (s.quit t tx) := by
  have hset := h.setTx htx (h.txs t tx htx).ended rfl rfl
  exact hset.letGo (setTx_self htx _) rfl

/-! ## Staging and validation -/

/-- A conditional write is staged. -/
theorem Inv.stageExpected [DecidableEq K] (hplace : tx.place = .running) (c : Nat) :
    Inv (s.stageExpected t tx c) := by
  have hok := h.txs t tx htx
  unfold System.stageExpected
  split
  · rename_i key seen since n hticket
    split
    · refine h.setTx htx (hok.stage hplace ?_) rfl rfl
      intro e he
      rw [mem_append, mem_singleton] at he
      rcases he with hold | rfl
      · obtain ⟨hkey, hrest⟩ := hok.cas e (mem_filter.1 hold).1
        exact ⟨mem_insert_of_mem hkey, hrest⟩
      · exact ⟨mem_insert_self, _, hticket, rfl, rfl⟩
    · exact h
  · exact h

/-- A commit begins. -/
theorem Inv.commit (hplace : tx.place = .running) : Inv (s.commit t tx) := by
  have hok := h.txs t tx htx
  have hmoves : ∀ s' : System K, TxOk s' t tx → (tx.needsLock = true → s'.lock = some t) →
      TxOk s' t { tx with place := .validating [] tx.cas } := by
    intro s' hok' hlock
    refine hok'.advance _ (by simp [Tx.isOver, hplace]) (by simp [Tx.inFlight, hplace]) ?_
      (.inl ⟨_, _, rfl⟩) hlock ?_
    · intro passed todo heq
      obtain ⟨rfl, rfl⟩ := Place.validating.inj heq
      rfl
    · simp [Tx.checked]
  unfold System.commit
  split
  · split
    · rename_i hfree
      have hlocked : Inv { s with lock := some t } := by
        refine h.cells_congr (fun _ => rfl) ?_
        intro u ux _ _ hu
        rw [hfree] at hu
        simp at hu
      exact hlocked.setTx htx (hmoves _ (hlocked.txs t tx htx) fun _ => rfl) rfl rfl
    · exact h
  · rename_i hneeds
    exact h.setTx htx (hmoves s hok fun hn => absurd hn hneeds) rfl rfl

/-- An expectation is validated. -/
theorem Inv.validate [DecidableEq K] {passed todo : List (Expect K)}
    (hplace : tx.place = .validating passed todo)
    (hspares : ∀ e rest, todo = e :: rest → ∀ m ∈ s.pending, m.key ≠ e.key) :
    Inv (s.validate t tx passed todo) := by
  have hok := h.txs t tx htx
  have hover : tx.isOver = false := by simp [Tx.isOver, hplace]
  have hfl : tx.inFlight = false := by simp [Tx.inFlight, hplace]
  have hlock := hok.lock (by simp [Tx.inside, hplace])
  have hparts := hok.parts passed todo hplace
  have hpassed : tx.checked = passed := by simp [Tx.checked, hplace]
  cases todo with
  | nil =>
    rw [append_nil] at hparts
    rw [System.validate]
    split
    · exact h.quit htx
    · refine h.setTx htx (hok.advance _ hover hfl (by simp) (.inr ⟨_, rfl⟩) hlock ?_) rfl rfl
      -- all expectations have passed
      rw [show ({ tx with place := _ } : Tx K).checked = tx.checked by rw [hpassed, hparts]; rfl]
      exact hok.checked
  | cons e rest =>
    rw [System.validate]
    split
    · rename_i hcell
      refine h.setTx htx (hok.advance _ hover hfl ?_ (.inl ⟨_, _, rfl⟩) hlock ?_) rfl rfl
      · intro passed' todo' heq
        obtain ⟨rfl, rfl⟩ := Place.validating.inj heq
        rw [← hparts, append_assoc, singleton_append]
      intro f hf
      change f ∈ passed ++ [e] at hf
      rw [mem_append, mem_singleton] at hf
      rcases hf with hf | rfl
      · exact hok.checked f (hpassed ▸ hf)
      · obtain ⟨-, ticket, hticket, -, hreported⟩ := hok.cas f (by rw [← hparts]; simp)
        exact h.passes hticket hreported (hspares f rest rfl) hcell
    · exact h.quit htx

/-- A row is claimed. -/
theorem Inv.claim [DecidableEq K] {key : K} {todo : List K}
    (hplace : tx.place = .claiming (key :: todo)) : Inv (s.claim t tx key todo) := by
  unfold System.claim
  split
  · rename_i c hreserve
    have hcell : Inv (s.setCell key (some c)) := by
      apply h.cells_congr
      · intro k
        have hv := versionOf_setCell s key k (some c)
        rw [map_some, getD_some, reserve_version hreserve] at hv
        refine hv.trans ?_
        split
        · rename_i hk
          rw [hk]
        · rfl
      · exact fun _ _ _ _ hl => hl
    have hok := hcell.txs t tx htx
    refine hcell.setTx htx (hok.advance _ (by simp [Tx.isOver, hplace])
      (by simp [Tx.inFlight, hplace]) (by simp) (.inr ⟨_, rfl⟩) (hok.lock (by simp [Tx.inside, hplace])) ?_) rfl rfl
    rw [show ({ tx with place := _ } : Tx K).checked = tx.checked by simp [Tx.checked, hplace]]
    exact hok.checked
  · exact h.quit htx

/-! ## Versions and commit points -/

/-- A committed row is not one of a writer that has not committed. -/
theorem Inv.owner_ne (hover : tx.isOver = false) {m : Commit K} (hm : m ∈ s.commits) :
    m.tx ≠ t ∧ m.version ≠ tx.version := by
  obtain ⟨ux, hux, huv, huc⟩ := h.owner m hm
  have hne : m.tx ≠ t := by
    intro heq
    rw [heq, htx, some.injEq] at hux
    exact huc (hux ▸ (h.txs t tx htx).uncommitted hover)
  refine ⟨hne, ?_⟩
  intro heq
  exact hne (h.apart m.tx t ux tx hux htx (huv.trans heq) (huv ▸ (h.commits m hm).1))

/-- The commit point of a writer whose version is in flight.  `unraised` are its rows, unless
their cells have been raised already. -/
theorem Inv.append {unraised : List (Commit K)} (hfl : tx.inFlight = true)
    (hplace : place = .publishing ∨ place = .ended)
    (hunraised : unraised = tx.rows t ∨ (unraised = [] ∧ ∀ key ∈ tx.staged,
      tx.version ≤ s.versionOf key))
    (hbefore : ∀ e ∈ tx.cas, ∀ m ∈ s.commits, m.key = e.key → m.version ≤ e.expected)
    (hlock : place = .publishing → tx.needsLock = true → s.lock = some t)
    (hothers : ∀ u ux, u ≠ t → s.txs[u]? = some ux → ∀ e ∈ ux.checked, e.key ∉ tx.staged) :
    Inv (s.append t tx unraised place) := by
  have hok := h.txs t tx htx
  obtain ⟨hpos, hun, hassigned⟩ := hok.inFlight hfl
  have hrow : ∀ m ∈ tx.rows t, m.version = tx.version ∧ m.tx = t ∧ m.key ∈ tx.staged := by
    intro m hm
    obtain ⟨key, hkey, rfl⟩ := mem_map.1 hm
    exact ⟨rfl, rfl, hkey⟩
  have hself : (s.append t tx unraised place).txs[t]? =
      some { tx with place, committed := some s.commits.length } := setTx_self htx _
  constructor
  case commits =>
    intro m hm
    rcases mem_append.1 hm with hold | hnew
    · exact h.commits m hold
    · rw [(hrow m hnew).1]
      exact ⟨hpos, hok.version_le⟩
  case owner =>
    intro m hm
    rcases mem_append.1 hm with hold | hnew
    · obtain ⟨ux, hux, huv, huc⟩ := h.owner m hold
      have hover : tx.isOver = false := by
        unfold Tx.inFlight at hfl
        unfold Tx.isOver
        split at hfl <;> simp_all
      exact ⟨ux, (set_other (h.owner_ne htx hover hold).1 _).trans hux, huv, huc⟩
    · obtain ⟨hv, ht, -⟩ := hrow m hnew
      exact ⟨{ tx with place, committed := some s.commits.length }, ht ▸ hself, hv.symm, by simp⟩
  case pending =>
    intro m hm
    rcases mem_append.1 hm with hold | hnew
    · exact ⟨mem_append_left _ (h.pending m hold).1, (h.pending m hold).2⟩
    · rcases hunraised with rfl | ⟨rfl, -⟩
      · exact ⟨mem_append_right _ hnew, by rw [(hrow m hnew).1]; exact hun⟩
      · simp at hnew
  case cells =>
    intro m hm hp
    rcases mem_append.1 hm with hold | hnew
    · exact h.cells m hold fun hpend => hp (mem_append_left _ hpend)
    · rcases hunraised with rfl | ⟨rfl, hraised⟩
      · exact absurd (mem_append_right _ hnew) hp
      · left
        rw [(hrow m hnew).1]
        exact hraised m.key (hrow m hnew).2.2
  case tickets =>
    intro c ticket hticket
    have htok := h.tickets c ticket hticket
    refine ⟨htok.seen_pos, htok.seen_le, htok.reported, ?_, ?_⟩
    · intro j m hj hm hkey
      change (s.commits ++ tx.rows t)[j]? = some m at hm
      rcases lt_or_ge j s.commits.length with hjlt | hjge
      · rw [getElem?_append_left hjlt] at hm
        exact htok.later j m hj hm hkey
      · rw [getElem?_append_right hjge] at hm
        exact htok.ahead m (hassigned m (mem_of_getElem? hm)) hkey
    · exact fun m hm => htok.ahead m (mem_filter.1 hm).1
  case txs =>
    intro u ux hux
    rcases set_cases htx hux with ⟨rfl, rfl⟩ | ⟨hne, hux⟩
    · constructor
      case version_le => exact hok.version_le
      case cas => exact hok.cas
      case newer => exact hok.newer
      case lock =>
        rcases hplace with rfl | rfl
        · exact fun _ hneeds => hlock rfl hneeds
        · simp [Tx.inside]
      case parts | checked | inFlight | logging | plain | fresh | past =>
        rcases hplace with rfl | rfl <;>
          simp [Tx.checked, Tx.inFlight, Tx.isPlain, Tx.isOver]
      case committed =>
        intro n hn
        obtain rfl := some.inj hn
        refine ⟨?_, ?_, ?_⟩
        · exact (length_append.symm ▸ Nat.le_add_right _ _ :
            s.commits.length ≤ (s.commits ++ tx.rows u).length)
        · intro q key hq
          change (s.commits ++ tx.rows u)[s.commits.length + q]? = _
          rw [getElem?_append_right (Nat.le_add_right _ _), Nat.add_sub_cancel_left, Tx.rows,
            getElem?_map, hq]
          rfl
        · intro e he j m hj hm hkey
          change (s.commits ++ tx.rows u)[j]? = some m at hm
          rw [getElem?_append_left hj] at hm
          exact hbefore e he m (mem_of_getElem? hm) hkey
    · refine (h.txs u ux hux).carry { Carries.refl s u ux with commits := ?_, assigned := ?_ }
      · refine ⟨tx.rows t, rfl, ?_⟩
        intro e he m hm heq
        exact hothers u ux hne hux e he (heq ▸ (hrow m hm).2.2)
      · intro m hm hmu
        exact mem_filter.2 ⟨hm, by simpa [hmu] using hne⟩
  case apart =>
    intro u w ux wx hux hwx
    exact h.apart_setTx htx
      (rfl : ({ tx with place, committed := some s.commits.length } : Tx K).version = _) hux hwx

/-- A version is assigned. -/
theorem Inv.assign
    (hplace : (tx.place = .claiming [] ∧ place = .appending) ∨
      (tx.place = .allocating ∧ place = .raising)) : Inv (s.assign t tx place) := by
  have hok := h.txs t tx htx
  have hover : tx.isOver = false := by
    rcases hplace with ⟨hp, -⟩ | ⟨hp, -⟩ <;> simp [Tx.isOver, hp]
  have hrow : ∀ m ∈ ({ tx with version := s.lastVersion + 1, place } : Tx K).rows t,
      m.version = s.lastVersion + 1 := by
    intro m hm
    obtain ⟨key, -, rfl⟩ := mem_map.1 hm
    rfl
  have hseen : ∀ e ∈ tx.cas, e.expected ≤ s.lastVersion := by
    intro e he
    obtain ⟨-, ticket, hticket, -, hreported⟩ := hok.cas e he
    rw [(h.tickets _ ticket hticket).reported e.expected hreported]
    exact (h.tickets _ ticket hticket).seen_le
  constructor
  case commits =>
    exact fun m hm => ⟨(h.commits m hm).1, le_succ_of_le (h.commits m hm).2⟩
  case owner =>
    intro m hm
    obtain ⟨ux, hux, hrest⟩ := h.owner m hm
    exact ⟨ux, (set_other (h.owner_ne htx hover hm).1 _).trans hux, hrest⟩
  case pending =>
    exact fun m hm => ⟨(h.pending m hm).1, mem_append_left _ (h.pending m hm).2⟩
  case cells =>
    intro m hm hp
    rcases h.cells m hm hp with hle | ⟨hzero, hsettled⟩
    · exact .inl hle
    · refine .inr ⟨hzero, fun u hu => ?_⟩
      rcases mem_concat_iff.1 hu with hold | rfl
      · exact hsettled u hold
      · exact Nat.lt_succ_of_le (h.commits m hm).2
  case tickets =>
    intro c ticket hticket
    refine (h.tickets c ticket hticket).congr (le_succ _) rfl fun m hm => ?_
    rcases mem_append.1 hm with hold | hnew
    · exact .inl hold
    · exact .inr (by rw [hrow m hnew]; exact lt_succ_self _)
  case txs =>
    intro u ux hux
    rcases set_cases htx hux with ⟨rfl, rfl⟩ | ⟨-, hux⟩
    · have htickets : (s.assign u tx place).tickets = s.tickets := rfl
      exact hok.assign htickets rfl rfl rfl (mem_append_right _ (mem_singleton_self _))
        hplace (fun m hm => mem_append_right _ hm) hseen
    · exact (h.txs u ux hux).carry { Carries.refl s u ux with
        lastVersion := le_succ _
        unsettled := fun _ hu => mem_append_left _ hu
        assigned := fun _ hm _ => mem_append_left _ hm }
  case apart =>
    -- the new version is above all others
    have hnew : ∀ (w : Nat) (wx : Tx K), w ≠ t → s.txs[w]? = some wx → wx.version ≠ s.lastVersion + 1 :=
      fun w wx _ hwx => Nat.ne_of_lt (Nat.lt_succ_of_le (h.txs w wx hwx).version_le)
    intro u w ux wx hux hwx heq hpos
    rcases set_cases htx hux with ⟨hu, hux'⟩ | ⟨hu, hux'⟩ <;>
      rcases set_cases htx hwx with ⟨hw, hwx'⟩ | ⟨hw, hwx'⟩
    · rw [hu, hw]
    · rw [hux'] at heq
      exact absurd heq.symm (hnew w wx hw hwx')
    · rw [hwx'] at heq
      exact absurd heq (hnew u ux hu hux')
    · exact h.apart u w ux wx hux' hwx' heq hpos

/-- A version that no committed row still waits for is settled. -/
theorem Inv.settleVersion (hfl : tx.inFlight = false) (hraised : s.Raised tx.version) :
    Inv (s.settleVersion tx.version) := by
  refine { h with pending := ?_, cells := ?_, tickets := ?_, txs := ?_ }
  · intro m hm
    refine ⟨(h.pending m hm).1, mem_filter.2 ⟨(h.pending m hm).2, ?_⟩⟩
    simpa using hraised m hm
  · intro m hm hp
    refine (h.cells m hm hp).imp_right fun hzero => ⟨hzero.1, fun u hu => ?_⟩
    exact hzero.2 u (mem_filter.1 hu).1
  · exact fun c ticket hticket => (h.tickets c ticket hticket).congr le_rfl rfl fun _ => .inl
  · intro u ux hux
    refine (h.txs u ux hux).carry { Carries.refl s u ux with unsettled := ?_ }
    intro hufl hu
    refine mem_filter.2 ⟨hu, ?_⟩
    have hne : ux.version ≠ tx.version := by
      intro heq
      obtain rfl := h.apart u t ux tx hux htx heq ((h.txs u ux hux).inFlight hufl).1
      obtain rfl := some.inj (htx.symm.trans hux)
      rw [hufl] at hfl
      simp at hfl
    simpa using hne

/-- The rows of a writer that is not in flight are assigned no longer. -/
theorem Inv.unassign (hfl : tx.inFlight = false) : Inv (s.unassign t) := by
  refine { h with tickets := fun c ticket hticket => ?_, txs := fun u ux hux => ?_ }
  · exact (h.tickets c ticket hticket).congr le_rfl rfl fun _ hm => .inl (mem_filter.1 hm).1
  have hok := h.txs u ux hux
  by_cases hu : u = t
  · subst hu
    obtain rfl := some.inj (htx.symm.trans hux)
    exact { hok with
      inFlight := by simp [hfl]
      committed := fun n hn => { hok.committed n hn with } }
  · refine hok.carry { Carries.refl s u ux with assigned := ?_ }
    intro m hm hmu
    exact mem_filter.2 ⟨hm, by simpa [hmu] using hu⟩

/-- A writer that ends before its commit point, its version settled or not. -/
theorem Inv.undo (hover : tx.isOver = false) :
    Inv ((s.unassign t).setTx t { tx with place := .ended }) ∧
      Inv (((s.unassign t).settleVersion tx.version).setTx t { tx with place := .ended }) := by
  have hended := h.setTx htx (h.txs t tx htx).ended rfl rfl
  have hself := setTx_self htx { tx with place := .ended }
  have hunassigned := hended.unassign hself rfl
  have hraised : s.Raised tx.version := fun m hm => (h.owner_ne htx hover (h.pending m hm).1).2
  have hsettled : Inv (((s.setTx t { tx with place := .ended }).unassign t).settleVersion
      ({ tx with place := .ended } : Tx K).version) := hunassigned.settleVersion hself rfl hraised
  exact ⟨hunassigned, hsettled⟩

end

/-- The writer that reaches its commit point has checked its rows under the lock, and no other
transaction has. -/
theorem Inv.unguarded (h : Inv s) (hlock : tx.needsLock = true → s.lock = some t)
    (hneeds : tx.needsLock = false → ∀ key ∈ tx.staged, ¬ Guarded s key) {u : Nat} (hne : u ≠ t)
    (hux : s.txs[u]? = some ux) : ∀ e ∈ ux.checked, e.key ∉ tx.staged := by
  intro e he hkey
  have huok := h.txs u ux hux
  have hcas : e ∈ ux.cas ∧ ux.inside = true := by
    unfold Tx.checked at he
    split at he
    · rename_i passed todo hplace
      rw [← huok.parts passed todo hplace]
      exact ⟨mem_append_left _ he, by simp [Tx.inside, hplace]⟩
    · rename_i hplace
      exact ⟨he, by simp [Tx.inside, hplace]⟩
    · rename_i hplace
      exact ⟨he, by simp [Tx.inside, hplace]⟩
    · simp at he
  have hulock : s.lock = some u := by
    apply huok.lock hcas.2
    have hnil : ux.cas.isEmpty = false := by
      rw [isEmpty_eq_false_iff]
      exact ne_nil_of_mem hcas.1
    simp [Tx.needsLock, hnil]
  by_cases hn : tx.needsLock = true
  · rw [hlock hn, some.injEq] at hulock
    exact hne hulock.symm
  · exact hneeds (by simpa using hn) e.key hkey ⟨u, hulock, ux, hux, e, he, rfl⟩

/-! ## One step -/

section

variable (h : Inv s)
include h

/-- A row is raised. -/
theorem Inv.raiseRow [DecidableEq K] {m : Commit K} (hm : m ∈ s.pending) {c : Cell}
    (hc : c.version = max (s.versionOf m.key) m.version) : Inv (s.raiseRow m c) := by
  have hraised := h.raiseUnsettled hc (h.pending m hm).2
  refine hraised.unpend m ?_
  rw [versionOf_setCell, if_pos rfl, map_some, getD_some]
  omega

section

variable (htx : s.txs[t]? = some tx)
include htx

/-- The log is written. -/
theorem Inv.wal (hplace : tx.place = .appending) (outcome : WalOutcome)
    (hspares : (Event.wal t outcome : Event K).isCommitPoint = true → tx.needsLock = false →
      ∀ key ∈ tx.staged, ¬ Guarded s key) : Inv (s.wal t tx outcome) := by
  have hok := h.txs t tx htx
  have hlock := hok.lock (by simp [Tx.inside, hplace])
  have hfl : tx.inFlight = true := by simp [Tx.inFlight, hplace]
  have hover : tx.isOver = false := by simp [Tx.isOver, hplace]
  have hbefore : ∀ e ∈ tx.cas, ∀ m ∈ s.commits, m.key = e.key → m.version ≤ e.expected := by
    have hchecked := hok.checked
    rw [Tx.checked, hplace] at hchecked
    exact hchecked
  cases outcome with
  | written =>
    exact h.append htx hfl (.inl rfl) (.inl rfl) hbefore (fun _ => hlock)
      fun u ux hne hux => h.unguarded hlock (hspares rfl) hne hux
  | refused => exact (h.undo htx hover).2.letGo (setTx_self htx _) rfl
  | lost written =>
    cases written with
    | true =>
      have happend : Inv (s.append t tx (tx.rows t) .ended) :=
        h.append htx hfl (.inr rfl) (.inl rfl) hbefore (by simp)
          fun u ux hne hux => h.unguarded hlock (hspares rfl) hne hux
      exact happend.letGo (setTx_self htx _) rfl
    | false => exact (h.undo htx hover).1.letGo (setTx_self htx _) rfl

/-- The log answers a plain write. -/
theorem Inv.log (hover : tx.isOver = false) (outcome : LogOutcome)
    (hplace : outcome = .done → tx.place = .logging)
    (hspares : outcome = .done → tx.needsLock = false → ∀ key ∈ tx.staged, ¬ Guarded s key) :
    Inv (s.log t tx outcome) := by
  have hok := h.txs t tx htx
  cases outcome with
  | done =>
    have hlogging := hplace rfl
    have hfree := hok.plain (by simp [Tx.isPlain, hlogging])
    have hcas : tx.cas = [] := by
      simp only [Tx.needsLock, Bool.or_eq_false_iff, Bool.not_eq_false', List.isEmpty_iff] at hfree
      exact hfree.2
    have hlock : tx.needsLock = true → s.lock = some t := by simp [hfree]
    refine h.append htx (by simp [Tx.inFlight, hlogging]) (.inr rfl)
      (.inr ⟨rfl, hok.logging hlogging⟩) (by simp [hcas]) (by simp) ?_
    exact fun u ux hne hux => h.unguarded hlock (hspares rfl) hne hux
  | undone => exact (h.undo htx hover).2
  | stuck => exact (h.undo htx hover).1

/-- A plain write raises its cell before it logs. -/
theorem Inv.raise [DecidableEq K] (hplace : tx.place = .raising) {key : K}
    (hstaged : tx.staged = [key]) :
    Inv ((s.setCell key (some (Cell.publish tx.version (s.cells key)))).setTx t
      { tx with place := .logging }) := by
  have hfl : tx.inFlight = true := by simp [Tx.inFlight, hplace]
  have hraised := h.raiseUnsettled (publish_version s key tx.version) ((h.txs t tx htx).inFlight hfl).2.1
  have hok := hraised.txs t tx htx
  have hover : tx.isOver = false := by simp [Tx.isOver, hplace]
  refine hraised.setTx htx { hok with
    parts := by simp
    lock := by simp [Tx.inside]
    checked := by simp [Tx.checked]
    inFlight := fun _ => hok.inFlight hfl
    logging := fun _ k hk => ?_
    plain := fun _ => hok.plain (by simp [Tx.isPlain, hplace])
    fresh := by simp [Tx.inFlight]
    past := by simp [hok.uncommitted hover]
    committed := by simp [hok.uncommitted hover] } rfl rfl
  rw [hstaged, mem_singleton] at hk
  rw [versionOf_setCell, if_pos hk, map_some, publish_version]
  exact le_max_right _ _

/-- A transaction is settled. -/
theorem Inv.settle [DecidableEq K] : Inv (act s t tx (.settle t)) := by
  rw [act]
  split
  · rename_i hplace
    split
    · exact (h.settleVersion htx (by simp [Tx.inFlight, hplace]) ‹_›).quit htx
    · exact h
  · rename_i hplace
    split
    · rename_i hdone
      exact h.settleVersion htx (by simp [Tx.inFlight, hplace]) hdone.2
    · exact h
  · exact h

/-- **A step of a writer** that does not disturb an expectation. -/
theorem Inv.act [DecidableEq K] {ev : Event K} (hev : ev.tx = some t)
    (hspares : SparesChecks s tx ev) : Inv (act s t tx ev) := by
  have hok := h.txs t tx htx
  cases ev with first | exact h.settle htx | ((rw [Cas.act]; try split) <;> try exact h)
  | stage u key =>
    refine h.setTx htx (hok.stage ‹_› ?_) rfl rfl
    intro e he
    obtain ⟨hkey, hrest⟩ := hok.cas e he
    exact ⟨mem_insert_of_mem hkey, hrest⟩
  | stageExpected u c => exact h.stageExpected htx ‹_› c
  | commit u => exact h.commit htx ‹_›
  | validate u =>
    rename_i passed todo hplace
    refine h.validate htx hplace ?_
    rintro e rest rfl
    unfold SparesChecks at hspares
    rw [hplace] at hspares
    exact hspares
  | claim u => exact h.claim htx ‹_›
  | assign u => exact h.assign htx (by simp [*])
  | wal u outcome =>
    obtain rfl := some.inj hev
    exact h.wal htx ‹_› outcome hspares
  | publish u key =>
    split
    · exact h.raiseRow ‹_› (finalize_version s key tx.version)
    · exact h
  | replay u key =>
    split
    · exact h.raiseRow ‹_› (publish_version s key tx.version)
    · exact h
  | abort u => exact h.quit htx
  | drop u =>
    first
    | exact h.quit htx
    | exact h.log htx (by simp [Tx.isOver, *]) .undone (by simp) (by simp)
  | raise u => exact h.raise htx ‹_› ‹_›
  | log u outcome =>
    rename_i hplace
    refine h.log htx (by simp [Tx.isOver, hplace]) outcome (fun _ => hplace) ?_
    rintro rfl
    exact hspares rfl
  | _ => simp [Event.tx] at hev

end

/-- A client takes the bytes of a committed version. -/
theorem Inv.take {key : K} {v : Nat} (hholds : s.Holds key v)
    (hahead : ∀ m ∈ s.assigned, m.key = key → v < m.version) :
    Inv { s with tickets := s.tickets ++ [⟨key, v, s.commits.length, none⟩] } := by
  obtain ⟨m, hm, -, rfl⟩ := hholds
  refine { h with tickets := ?_, txs := ?_ }
  · intro c ticket hticket
    rcases concat_cases hticket with hticket | ⟨-, rfl⟩
    · exact (h.tickets c ticket hticket).congr le_rfl rfl fun _ => .inl
    · refine ⟨(h.commits m hm).1, (h.commits m hm).2, by simp, ?_, hahead⟩
      intro j n hj hn
      exact absurd (List.getElem?_eq_some_iff.1 hn).1 (not_lt.2 hj)
  · intro u ux hux
    refine (h.txs u ux hux).carry { Carries.refl s u ux with tickets := ?_ }
    intro c ticket hticket _
    exact getElem?_concat_of hticket _

/-- A client is given a version, which is that of its bytes. -/
theorem Inv.report {c : Nat} {key : K} {seen since n : Nat}
    (hticket : s.tickets[c]? = some ⟨key, seen, since, none⟩) (hn : n = seen) :
    Inv { s with tickets := s.tickets.set c ⟨key, seen, since, some n⟩ } := by
  refine { h with tickets := ?_, txs := ?_ }
  · intro d ticket hd
    rcases set_cases hticket hd with ⟨rfl, rfl⟩ | ⟨-, hd⟩
    · have hok := h.tickets d _ hticket
      refine ⟨hok.seen_pos, hok.seen_le, ?_, hok.later, hok.ahead⟩
      rintro k hk
      rw [← some.inj hk, hn]
    · exact (h.tickets d ticket hd).congr le_rfl rfl fun _ => .inl
  · intro u ux hux
    refine (h.txs u ux hux).carry { Carries.refl s u ux with tickets := ?_ }
    intro d ticket hd hreported
    have hne : d ≠ c := by
      rintro rfl
      rw [hticket, some.injEq] at hd
      exact hreported (by rw [← hd])
    exact (set_other hne _).trans hd

/-- A writer that starts, with nothing to keep yet. -/
theorem Inv.start {tx : Tx K} (hversion : tx.version = 0) (hcommitted : tx.committed = none)
    (hcas : tx.cas = []) (hplace : tx.place = .running ∨ (tx.place = .allocating ∧ tx.needsLock = false)) :
    Inv { s with txs := s.txs ++ [tx] } := by
  refine { h with owner := ?_, tickets := ?_, txs := ?_, apart := ?_ }
  · intro m hm
    obtain ⟨ux, hux, hrest⟩ := h.owner m hm
    exact ⟨ux, getElem?_concat_of hux _, hrest⟩
  · exact fun c ticket hticket => (h.tickets c ticket hticket).congr le_rfl rfl fun _ => .inl
  · intro u ux hux
    rcases concat_cases hux with hold | ⟨-, rfl⟩
    · exact (h.txs u ux hold).carry { Carries.refl s u ux with }
    · refine .early hversion hcommitted ?_ (by simp [hcas]) ?_ ?_ ?_ ?_ <;>
        rcases hplace with hp | ⟨hp, hneeds⟩
      all_goals simp [Tx.inFlight, Tx.inside, Tx.checked, Tx.isPlain, *]
  · intro u w ux wx hux hwx heq hpos
    rcases concat_cases hux with huold | ⟨-, rfl⟩
    · rcases concat_cases hwx with hwold | ⟨-, rfl⟩
      · exact h.apart u w ux wx huold hwold heq hpos
      · rw [heq, hversion] at hpos
        simp at hpos
    · rw [hversion] at hpos
      simp at hpos

/-- An evicted cell is below every version that is not settled. -/
theorem Inv.prune [DecidableEq K] (key : K) (minAlive : Nat) : Inv (s.prune key minAlive) := by
  unfold System.prune
  split
  case isFalse => exact h
  case isTrue hlive =>
    split
    case h_2 => exact h
    case h_1 c hcell =>
      split
      case isFalse => exact h
      case isTrue hevict =>
        simp only [Cell.evictable, Bool.and_eq_true, decide_eq_true_eq] at hevict
        have hversion : s.versionOf key = c.version := by rw [System.versionOf, hcell]
        refine { h with cells := ?_, tickets := ?_, txs := ?_ }
        · intro m hm hp
          rw [versionOf_setCell]
          split
          · rename_i hk
            right
            refine ⟨rfl, fun u hu => ?_⟩
            rcases h.cells m hm hp with hle | ⟨-, hsettled⟩
            · rw [hk] at hle
              have hu := hlive.2 u hu
              omega
            · exact hsettled u hu
          · exact h.cells m hm hp
        · exact fun n ticket hticket =>
            (h.tickets n ticket hticket).congr le_rfl rfl fun _ => .inl
        · intro u ux hux
          refine (h.txs u ux hux).carry { Carries.refl s u ux with cells := ?_ }
          intro hun k hk
          rw [versionOf_setCell]
          split
          · rename_i heq
            rw [heq] at hk
            have hu := hlive.2 ux.version hun
            omega
          · exact hk

/-- **Every undisturbed step keeps the invariant.** -/
theorem Inv.step [DecidableEq K] (ev : Event K) (hev : Undisturbed s ev) : Inv (step s ev) := by
  unfold Cas.step
  split
  case h_1 t ht =>
    split
    · rename_i tx htx
      have hspares : SparesChecks s tx ev := by
        unfold Undisturbed at hev
        split at hev
        · simp [Event.tx] at ht
        · simp [Event.tx] at ht
        · simp [Event.tx] at ht
        · exact hev t ht tx htx
      exact h.act htx ht hspares
    · exact h
  case h_2 ht =>
    cases ev with ((try rw [serve]) <;> (try split) <;> try exact h)
    | take key v => exact h.take ‹_› hev
    | report c =>
      rename_i key seen since hticket
      exact h.report hticket (hev _ hticket)
    | begin serializable footprint snapshot => exact h.start rfl rfl rfl (.inl rfl)
    | plain key => exact h.start rfl rfl rfl (.inr ⟨rfl, rfl⟩)
    | seed key v => exact h.raiseCell (publish_version s key v) hev
    | vacuum key anchor =>
      refine h.cells_congr ?_ fun _ _ _ _ hl => hl
      intro k
      refine (versionOf_setCell s key k _).trans ?_
      split
      · rename_i hk
        rw [hk, System.versionOf]
        cases s.cells key <;> rfl
      · rfl
    | prune key minAlive => exact h.prune key minAlive
    | _ => simp [Event.tx] at ht

end

/-- A new store. -/
theorem Inv.init : Inv (.init : System K) :=
  ⟨by simp [System.init], by simp [System.init], by simp [System.init], by simp [System.init],
    by simp [System.init], by simp [System.init], by simp [System.init]⟩

/-! ## Lost updates -/

/-- No commit lies between the read and the write. -/
theorem Inv.nothingBetween (h : Inv s) : NothingBetween s := by
  intro t tx n e ticket htx hn he hticket j m hj hjn hm hkey
  obtain ⟨-, ticket', hticket', hkey', hreported⟩ := (h.txs t tx htx).cas e he
  obtain rfl := some.inj (hticket.symm.trans hticket')
  have hok := h.tickets _ ticket hticket
  have hnewer := hok.later j m hj hm (hkey.trans hkey'.symm)
  have hle := ((h.txs t tx htx).committed n hn).before e he j m hjn hm hkey
  rw [hok.reported e.expected hreported] at hle
  omega

/-- A transaction that commits first stands in the way of another one that expects the same
version. -/
theorem Inv.not_before (h : Inv s) {u : Nat} {f : Expect K} {n k : Nat} (htx : s.txs[t]? = some tx)
    (hux : s.txs[u]? = some ux) (hn : tx.committed = some n) (hk : ux.committed = some k)
    (he : e ∈ tx.cas) (hf : f ∈ ux.cas) (hkey : e.key = f.key) (hexp : e.expected = f.expected)
    (hle : n ≤ k) : t = u := by
  by_contra hne
  have hok := h.txs t tx htx
  have huok := h.txs u ux hux
  obtain ⟨q, hq⟩ := getElem?_of_mem (hok.cas e he).1
  obtain ⟨r, hr⟩ := getElem?_of_mem (huok.cas f hf).1
  have hrow := (hok.committed n hn).block q e.key hq
  rcases lt_or_ge (n + q) k with hlt | hge
  · -- its row is among those committed before
    have hold := (huok.committed k hk).before f hf (n + q) _ hlt hrow hkey
    have hpos := (h.commits _ (mem_of_getElem? hrow)).1
    have hnew := hok.newer hpos e he
    change tx.version ≤ f.expected at hold
    omega
  -- the rows of the two stand apart
  have hmem : k - n < tx.staged.length := by
    have := (List.getElem?_eq_some_iff.1 hq).1
    omega
  have hfirst := (hok.committed n hn).block (k - n) _ (getElem?_eq_getElem hmem)
  have hstart : 0 < ux.staged.length := by
    have := (List.getElem?_eq_some_iff.1 hr).1
    omega
  have hother := (huok.committed k hk).block 0 _ (getElem?_eq_getElem hstart)
  rw [Nat.add_zero] at hother
  rw [Nat.add_sub_cancel' hle, hother, some.injEq] at hfirst
  exact hne (congrArg Commit.tx hfirst).symm

/-- Of two writes on one reading one wins. -/
theorem Inv.oneWins (h : Inv s) : OneWins s := by
  intro t u tx ux e f htx hux hn hk he hf hkey hexp
  obtain ⟨n, hn⟩ := ne_none_iff_exists'.1 hn
  obtain ⟨k, hk⟩ := ne_none_iff_exists'.1 hk
  rcases le_total n k with hle | hle
  · exact h.not_before htx hux hn hk he hf hkey hexp hle
  · exact (h.not_before hux htx hk hn hf he hkey.symm hexp.symm hle).symm

/-- **No update is lost to a compare-and-set write** in a run of undisturbed steps. -/
theorem compareAndSet_no_lost_update [DecidableEq K] (es : List (Event K))
    (hes : Along step Undisturbed .init es) : NothingBetween (after es) ∧ OneWins (after es) := by
  have hinv : Inv (after es) := along_invariant (fun _ ev h hev => h.step ev hev) Inv.init hes
  exact ⟨hinv.nothingBetween, hinv.oneWins⟩

/-- A plain write of row `key` by writer `t`, from its start to the settled version. -/
def plainWrite (t : Nat) (key : Nat) : List (Event Nat) :=
  [.plain key, .assign t, .raise t, .log t .done, .settle t]

/-- The commit of the running transaction `t` with one expectation, on row 0. -/
def commitExpected (t : Nat) : List (Event Nat) :=
  [.commit t, .validate t, .validate t, .assign t, .wal t .written, .publish t 0, .settle t]

/-- Two clients read one version; the second commit finds a newer one. -/
def oneOfTwo : List (Event Nat) :=
  plainWrite 0 0 ++ [.take 0 1, .report 0, .take 0 1, .report 1, .begin false false 1,
    .stageExpected 1 0, .begin false false 1, .stageExpected 2 1] ++ commitExpected 1 ++
    [.prune 0 1, .seed 0 1] ++ commitExpected 2

/-- Two writes on one reading, of which the first wins. -/
theorem compareAndSet_one_of_two :
    (NothingBetween (after oneOfTwo) ∧ OneWins (after oneOfTwo)) ∧
      (after oneOfTwo).txs.map Tx.committed = [some 0, some 1, none] :=
  ⟨compareAndSet_no_lost_update oneOfTwo (by decide), by decide⟩

/-- The row is written between its bytes and its version. -/
def writtenBetween : List (Event Nat) :=
  plainWrite 0 0 ++ [.take 0 1] ++ plainWrite 1 0 ++
    [.report 0, .begin false false 2, .stageExpected 2 0] ++ commitExpected 2

/-- Two clients read version 1, the first one commits, the cell is pruned after a write of
another row, and the drainer, which is still at version 1, seeds it again. -/
def seededAgain : List (Event Nat) :=
  [.begin false false 0, .stage 0 0, .commit 0, .validate 0, .assign 0, .wal 0 .written,
    .publish 0 0, .settle 0, .take 0 1, .report 0, .take 0 1, .report 1, .begin false false 1,
    .stageExpected 1 0] ++ commitExpected 1 ++ plainWrite 2 1 ++
    [.prune 0 3, .seed 0 1, .begin false false 3, .stageExpected 3 1] ++ commitExpected 3

/-- A plain write may come between, and a seeded cell lets both win. -/
theorem compareAndSet_loses_updates :
    ¬ NothingBetween (after writtenBetween) ∧ ¬ OneWins (after seededAgain) := by
  constructor
  · intro h
    exact h 2 _ 2 ⟨0, 2, 0⟩ _ rfl rfl (by decide) rfl 1 _ (by decide) (by decide) rfl rfl
  · intro h
    exact absurd (h 1 3 _ _ ⟨0, 1, 0⟩ ⟨0, 1, 1⟩ rfl rfl (by decide) (by decide) (by decide) (by decide)
      rfl rfl) (by decide)

end ShamirDb.Cas
