/-
# The calls keep the invariant

Every call of the multi-version store, run as a thread beside any number of others, keeps
the invariant of `MvccInvariant` and what the others rely on.  The one thing that is not
settled by the calls themselves is the seeding of an empty cell: the drainer and a cold
read seed a cell with a version that need not be the newest one.  What is demanded of
those seedings is a parameter here.
-/
import ShamirDb.MvccInvariant

namespace ShamirDb.Mvcc

open Threads Discipline List Nat Function

variable {K : Type} [DecidableEq K]

/-! ## The discipline -/

/-- The threads of a pool of calls, of which only the `allowed` accesses are considered. -/
def discipline (allowed : Access K → Store K → Prop) :
    Discipline (Store K) Env (Access K) Response where
  serve := serve
  allowed := allowed
  inv := Inv
  rely := Rely
  refl := fun _ s => Evolves.refl _ _ s
  trans := fun _ _ _ _ => Rely.trans

/-- An empty cell is only seeded with a version that is not below a committed one of the
key. -/
def SeedsNewest : Access K → Store K → Prop
  | .seedCell k v, s => s.currentVersion k = 0 → ∀ w ≤ s.counter, Committed s k w → w ≤ v
  | _, _ => True

variable {allowed : Access K → Store K → Prop} {s t : Store K} {i : Nat} {α : Type}

/-- A fact about the state that lasts while the versions call `i` owns are spared. -/
def Lasting (i : Nat) (F : Store K → Prop) : Prop :=
  ∀ (granted touched : Nat → Prop) (s s' : Store K), Evolves granted touched s s' →
    (∀ v, touched v → s.owner v ≠ some i) → F s → F s'

section

omit [DecidableEq K]

/-- Two lasting facts last together. -/
theorem Lasting.and {F G : Store K → Prop} (hF : Lasting i F) (hG : Lasting i G) :
    Lasting i fun s => F s ∧ G s := fun granted touched s s' h htouched hs =>
  ⟨hF granted touched s s' h htouched hs.1, hG granted touched s s' h htouched hs.2⟩

/-- So do the facts of a family. -/
theorem Lasting.forall {β : Sort*} {F : β → Store K → Prop} (hF : ∀ x, Lasting i (F x)) :
    Lasting i fun s => ∀ x, F x s := fun granted touched s s' h htouched hs x =>
  hF x granted touched s s' h htouched (hs x)

/-- What does not depend on the store lasts. -/
theorem Lasting.const (P : Prop) : Lasting i fun _ : Store K => P := fun _ _ _ _ _ _ h => h

end

variable {F : Store K → Prop} {rows : List (K × Bytes)} {granted touched : Nat → Prop}
  {s' : Store K} {entries : List (Nat × List (K × Bytes))} {a : Access K} {slots : List (Slot K)}

omit [DecidableEq K] in
/-- A lasting fact outlives the steps of the others. -/
theorem Lasting.rely (hF : Lasting i F) (h : Rely i s t) (hs : F s) : F t :=
  hF _ _ s t h (fun _ => id) hs

/-- A step that touches no version of another thread. -/
theorem keeps_of_steps (h : Steps (· = i) touched s s')
    (htouched : ∀ v, touched v → ∀ j, j ≠ i → s.owner v ≠ some j) :
    (discipline allowed).Keeps i s s' :=
  ⟨h.inv, fun _ hj => h.evolves.rely hj fun v hv => htouched v hv _ hj⟩

/-- A step that touches no version. -/
theorem Lasting.still (hF : Lasting i F) (h : Steps (· = i) (fun _ => False) s s') (hs : F s) :
    (discipline allowed).Keeps i s s' ∧ F s' :=
  ⟨keeps_of_steps h fun _ => False.elim, hF _ _ s s' h.evolves (fun _ => False.elim) hs⟩

variable {v : Nat} {p : Call K α} {Q : Response a → Store K → Prop}

/-- A step that touches one version, the call's own or one without an owner. -/
theorem keeps_of_own (h : Steps (· = i) (· = v) s s')
    (hv : s.owner v = some i ∨ s.owner v = none) : (discipline allowed).Keeps i s s' := by
  refine keeps_of_steps h ?_
  rintro w rfl j hj hw
  rcases hv with hv | hv
  · exact hj (Option.some.inj (hw.symm.trans hv))
  · exact absurd (hw.symm.trans hv) (by simp)

/-- A quiet step keeps the rules and every lasting fact. -/
theorem keeps_of_quiet (h : Inv s) (q : Quiet s s') (hF : Lasting i F) (hs : F s) :
    (discipline allowed).Keeps i s s' ∧ F s' :=
  hF.still ⟨q.inv h, q.evolves⟩ hs

/-- A call of quiet accesses keeps a lasting fact. -/
theorem holds_quiet (hp : p.All Access.IsQuiet) (hF : Lasting i F) (h : F s) :
    (discipline allowed).Holds i p (fun _ => F) s := by
  refine Holds.of_all hp (fun t u ht hrely => hF.rely hrely ht) ?_ h
  intro a t e ha hinv _ ht
  exact keeps_of_quiet hinv (serve_quiet ha i e t) hF ht

/-- So does one quiet access. -/
theorem holds_one (a : Access K) (ha : a.IsQuiet) (hF : Lasting i F) (h : F s) :
    (discipline allowed).Holds i (perform a) (fun _ => F) s :=
  holds_quiet (.perform ha) hF h

/-- So does a call that only reads. -/
theorem holds_reads (hp : ReadOnly p) (hF : Lasting i F) (h : F s) :
    (discipline allowed).Holds i p (fun _ => F) s :=
  holds_quiet (hp.mono fun _ => Access.IsRead.isQuiet) hF h

/-- The call keeps the invariant and what the others rely on. -/
abbrev Behaves (allowed : Access K → Store K → Prop) (i : Nat) (p : Call K α) (s : Store K) : Prop :=
  (discipline allowed).Holds i p (fun _ _ => True) s

/-- A call of quiet accesses behaves. -/
theorem holds_quietly (hp : p.All Access.IsQuiet) : Behaves allowed i p s :=
  holds_quiet hp (Lasting.const True) trivial

/-- So does one quiet access alone. -/
theorem holds_any (a : Access K) (ha : a.IsQuiet) : Behaves allowed i (perform a) s :=
  holds_quietly (.perform ha)

/-- One access, under a fact that lasts until it is made. -/
theorem holds_access (hF : Lasting i F) (h : F s)
    (haccess : ∀ t e, F t → Inv t → allowed a t →
      (discipline allowed).Keeps i t (serve i e t a).1 ∧ Q (serve i e t a).2 (serve i e t a).1) :
    (discipline allowed).Holds i (perform a) Q s :=
  Holds.perform fun t hrely hinv hallowed e =>
    haccess t e (hF.rely hrely h) hinv hallowed

/-- A read, under a fact that lasts until it is made. -/
theorem holds_read (ha : a.IsRead) (hF : Lasting i F) (h : F s)
    (hread : ∀ t e, F t → Inv t → allowed a t → Q (serve i e t a).2 t) :
    (discipline allowed).Holds i (perform a) Q s :=
  Holds.read (fun t e => serve_of_isRead ha i e t) fun t hrely hinv hallowed e =>
    hread t e (hF.rely hrely h) hinv hallowed

/-- A loop in which the round of `x`, whatever else holds by then, brings about `P x`. -/
theorem holds_forEach {β : Type} {f : β → Call K Unit} {P : β → Store K → Prop} {xs : List β}
    (hP : ∀ x, Lasting i (P x)) (hbody : ∀ x ∈ xs, ∀ (G : Store K → Prop) t, Lasting i G →
      (∀ u, G u → F u) → G t → (discipline allowed).Holds i (f x) (fun _ u => G u ∧ P x u) t)
    (hF : Lasting i F) (h : F s) :
    (discipline allowed).Holds i (Prog.forEach f xs) (fun _ t => F t ∧ ∀ x ∈ xs, P x t) s := by
  induction xs generalizing s F with
  | nil => exact ⟨h, by simp⟩
  | cons x xs ih =>
    refine (hbody x mem_cons_self F s hF (fun _ => id) h).bind fun _ t ht => ?_
    refine Holds.imp (ih (F := fun t => F t ∧ P x t) (fun y hy G u hG hGF => ?_)
      (hF.and (hP x)) ht) fun _ u hu => ?_
    · exact hbody y (mem_cons_of_mem _ hy) G u hG fun w hw => (hGF w hw).1
    · exact ⟨hu.1.1, forall_mem_cons.2 ⟨hu.1.2, hu.2⟩⟩

/-! ## Facts about versions -/

section

omit [DecidableEq K]

/-- Call `i` has allocated version `v` for some rows and has to settle it. -/
structure Holding (i : Nat) (rows : List (K × Bytes)) (v : Nat) (s : Store K) : Prop where
  owner : s.owner v = some i
  allocated : v ≤ s.counter
  unsettled : s.completion.outcome v = none
  writes : s.writes v = rows

/-- A version stays held unless a step touches it. -/
theorem Holding.evolves (h : Holding i rows v s) (hev : Evolves granted touched s s')
    (hv : ¬ touched v) : Holding i rows v s' := by
  obtain ⟨howner, houtcome, -⟩ := hev.spared v h.allocated hv
  exact ⟨howner.trans h.owner, le_trans h.allocated hev.counter, houtcome.trans h.unsettled,
    (hev.writes v h.allocated).trans h.writes⟩

/-- The others leave a version that is held. -/
theorem Holding.lasting (rows : List (K × Bytes)) (v : Nat) :
    Lasting i (Holding (K := K) i rows v) := fun _ _ _ _ hev htouched h =>
  h.evolves hev fun hv => htouched v hv h.owner

/-- What a held version was allocated for can be seen nowhere: neither the WAL nor the
overlay has it. -/
structure Unseen (v : Nat) (s : Store K) : Prop where
  wal : s.wal v = none
  overlay : ∀ k, s.overlay k v = none

/-- A version no cell shows stays unseen unless a step touches it. -/
theorem Unseen.evolves (h : Unseen v s) (hev : Evolves granted touched s s') (hle : v ≤ s.counter)
    (hv : ¬ touched v) : Unseen v s' := by
  obtain ⟨-, -, hwal, -, hoverlay⟩ := hev.spared v hle hv
  exact ⟨hwal.trans h.wal, fun k => hoverlay k (h.overlay k)⟩

/-- The others do not show it. -/
theorem Unseen.lasting (rows : List (K × Bytes)) (v : Nat) :
    Lasting i fun s : Store K => Holding i rows v s ∧ Unseen v s := by
  rintro _ _ t t' hev htouched ⟨hhold, hunseen⟩
  have hv := fun hv => htouched v hv hhold.owner
  exact ⟨hhold.evolves hev hv, hunseen.evolves hev hhold.allocated hv⟩

/-- A held version that no store has a row of. -/
def Rowless (i : Nat) (rows : List (K × Bytes)) (v : Nat) (s : Store K) : Prop :=
  (Holding i rows v s ∧ Unseen v s) ∧ ∀ k, s.history k v = none

/-- The others write no row of a version that is held. -/
theorem Rowless.lasting (rows : List (K × Bytes)) (v : Nat) : Lasting i (Rowless (K := K) i rows v) :=
  fun _ _ _ _ hev htouched h => ⟨Unseen.lasting rows v _ _ _ _ hev htouched h.1, fun k =>
    (hev.spared v h.1.1.allocated fun hv => htouched v hv h.1.1.owner).2.2.2.1 k (h.2 k)⟩

/-- The cells of the rows' keys have reached the version. -/
def Reached (rows : List (K × Bytes)) (v : Nat) (s : Store K) : Prop :=
  ∀ k x, (k, x) ∈ rows → v ≤ s.currentVersion k ∨ s.completion.outcome v ≠ none

/-- Cells do not fall below a version again. -/
theorem Reached.evolves (h : Reached rows v s) (hev : Evolves granted touched s s') :
    Reached rows v s' := by
  intro k x hx
  rcases h k x hx with hle | hsettled
  · exact hev.cell k v hle
  · obtain ⟨o, ho⟩ := Option.ne_none_iff_exists'.1 hsettled
    exact .inr (by rw [hev.outcome v o ho]; simp)

/-- All rows are reached if each is. -/
theorem reached_iff : Reached rows v s ↔ ∀ row ∈ rows, Reached [row] v s := by
  simp [Reached]

/-- When one row is reached. -/
theorem reached_singleton {row : K × Bytes}
    (h : v ≤ s.currentVersion row.1 ∨ s.completion.outcome v ≠ none) : Reached [row] v s := by
  rintro k x hx
  obtain rfl := mem_singleton.1 hx
  exact h

/-- What has been reached stays so. -/
theorem Reached.lasting (rows : List (K × Bytes)) (v : Nat) :
    Lasting i (Reached (K := K) rows v) := fun _ _ _ _ hev _ h => h.evolves hev

/-- A version that has no owner any more. -/
def Disowned (v : Nat) (s : Store K) : Prop := v ≤ s.counter ∧ s.owner v = none

/-- A version that was given up stays so. -/
theorem Disowned.lasting (v : Nat) : Lasting i (Disowned (K := K) v) := fun _ _ _ _ hev _ h =>
  ⟨le_trans h.1 hev.counter, hev.unowned v h.1 h.2⟩

/-- To give it up again changes nothing. -/
theorem Disowned.update_owner (h : Disowned v s) : update s.owner v none = s.owner := by
  rw [← h.2]
  exact update_eq_self v s.owner

/-- The WAL has accepted some rows at a version, and no commit is at work on it. -/
def Accepted (v : Nat) (rows : List (K × Bytes)) (s : Store K) : Prop :=
  ∃ r, s.wal v = some r ∧ r.ops = rows ∧ r.status ≠ .active

/-- A version the WAL has accepted stays accepted. -/
theorem Accepted.lasting (v : Nat) (rows : List (K × Bytes)) :
    Lasting i (Accepted (K := K) v rows) := by
  rintro _ _ _ _ hev _ ⟨r, hr, rfl, hstatus⟩
  obtain ⟨r', hr', hops, hstatus'⟩ := hev.accepted v r hr hstatus
  exact ⟨r', hr', hops, hstatus'⟩

/-- An accepted version has no owner, and its rows are known. -/
theorem Accepted.disowned (h : Accepted v rows s) (hinv : Inv s) :
    Disowned v s ∧ s.writes v = rows ∧ 0 < v ∧ v ≤ s.counter := by
  obtain ⟨r, hr, rfl, hstatus⟩ := h
  obtain ⟨hops, -, howner⟩ := hinv.accepted v r hr
  have hused : ¬ (v = 0 ∨ s.counter < v) := fun hv =>
    absurd (hr.symm.trans (hinv.unused v hv).2.2.1) (by simp)
  exact ⟨⟨by omega, howner hstatus⟩, hops.symm, by omega, by omega⟩

/-! ## Quiet calls -/

theorem Access.IsPlain.isQuiet (h : a.IsPlain) : a.IsQuiet := by
  cases a <;> trivial

/-- Programs all of whose accesses are quiet. -/
abbrev QuietProg (p : Call K α) : Prop := p.All Access.IsQuiet

/-- A reclaim is quiet. -/
theorem reclaim_quiet (removals : List (Removal K)) : QuietProg (reclaim removals) := by
  unfold reclaim
  split
  · exact .pure _
  refine .seq (.perform trivial) fun ok => ?_
  split
  · refine .seq (.forEach fun r => ?_) fun _ => .pure _
    refine .seq ?_ fun _ => .seq (.perform trivial) fun _ => .when fun _ => .perform trivial
    unfold unindex
    split
    · exact .perform trivial
    · exact .pure _
  · exact .pure _

/-- So is the vacuum after a write. -/
theorem vacuumAfter_quiet (t : Slot K) : QuietProg (vacuumAfter t) :=
  vacuumAfter_closed (Prog.All.closed _) (fun _ ha => .perform ha.isQuiet) reclaim_quiet t

/-- So is the collection of the overlay. -/
theorem gcOverlayTo_quiet (d : Nat) (slots : List (K × Nat)) : QuietProg (gcOverlayTo d slots) :=
  gcOverlayTo_closed (Prog.All.closed _) (fun _ ha => .perform ha.isQuiet) d slots

/-- So is marking a version durable. -/
theorem markDurable_quiet (v : Nat) : QuietProg (markDurable v : Call K Unit) :=
  markDurable_closed (Prog.All.closed _) (fun _ ha => .perform ha.isQuiet) v

/-! ## Version guards -/

/-- A WAL entry of a version without an owner leaves the active state. -/
theorem keeps_setStatus {status : WalStatus} (hinv : Inv s) (hv : Disowned v s)
    (hstatus : status ≠ .active) :
    Steps (· = i) (· = v) s { s with
      wal := update s.wal v ((s.wal v).map fun r => { r with status }) } := by
  have heq := hv.update_owner
  have h : Steps (· = i) (· = v) s _ := hinv.setStatus hstatus
  rwa [heq] at h

end

section

variable (hF : Lasting i F)
  (hother : ∀ granted (t t' : Store K), Evolves granted (· = v) t t' → F t → F t')
include hF hother

/-- The commit of a held version whose keys' cells have reached it. -/
theorem commitGuard_holds (h : Holding i rows v s ∧ Reached rows v s ∧ F s) :
    (discipline allowed).Holds i (commitGuard v) (fun _ => F) s := by
  have hlast := (Holding.lasting rows v).and ((Reached.lasting rows v).and hF)
  refine Holds.seq (P := fun _ t => Disowned v t ∧ F t) ?_ fun _ t ht => ?_
  · refine holds_access hlast h fun t e ⟨hhold, hreached, ht⟩ hinv _ => ?_
    have hstep := hinv.mark (i := i) (o := .materialized) (hinv.owned_pos hhold.owner)
      hhold.unsettled (fun _ k x hx => (hreached k x (hhold.writes ▸ hx)).resolve_right
        fun hne => hne hhold.unsettled) (nofun)
    refine ⟨keeps_of_own hstep (.inl hhold.owner), ⟨hhold.allocated, ?_⟩,
      hother _ _ _ hstep.evolves ht⟩
    show update t.owner v none v = none
    simp
  refine (holds_one .advance trivial ((Disowned.lasting v).and hF) ht).seq fun _ t ht => ?_
  refine (holds_one .watermark trivial ((Disowned.lasting v).and hF) ht).seq fun w u hu => ?_
  refine (holds_one (.raisePublished w) trivial ((Disowned.lasting v).and hF) hu).seq
    fun _ x hx => ?_
  refine holds_access ((Disowned.lasting v).and hF) hx fun y e ⟨hdis, hy⟩ hinv _ => ?_
  have hstep := keeps_setStatus (i := i) hinv hdis (show WalStatus.settled ≠ .active by decide)
  exact ⟨keeps_of_own hstep (.inr hdis.2), hother _ _ _ hstep.evolves hy⟩

/-- The abort of a held version that can be seen nowhere. -/
theorem abortGuard_holds (h : Rowless i rows v s ∧ F s) :
    (discipline allowed).Holds i (abortGuard v) (fun _ => F) s := by
  refine Holds.seq (P := fun _ => F) ?_ fun _ t ht => ?_
  · refine holds_access ((Rowless.lasting rows v).and hF) h
      fun t e ⟨⟨⟨hhold, hunseen⟩, hnone⟩, ht⟩ hinv _ => ?_
    have hstep := hinv.mark (i := i) (o := .aborted) (hinv.owned_pos hhold.owner)
      hhold.unsettled (nofun) fun _ => ⟨hunseen.wal, fun k =>
        ⟨hnone k, hunseen.overlay k⟩⟩
    exact ⟨keeps_of_own hstep (.inl hhold.owner), hother _ _ _ hstep.evolves ht⟩
  · refine holds_quiet ?_ hF ht
    exact .seq (.perform trivial) fun _ => .seq (.perform trivial) fun _ =>
      .seq (.perform trivial) fun _ => .seq (.perform trivial) fun _ => .perform trivial

end

/-! ## Plain writes -/

/-- The slots of a plain write: held versions, each with the cell of its key raised. -/
structure InFlight (i : Nat) (slots : List (Slot K)) (s : Store K) : Prop where
  nodup : (slots.map Slot.version).Nodup
  holding : ∀ x ∈ slots, Holding i [(x.key, x.value)] x.version s
  reached : ∀ x ∈ slots, Reached [(x.key, x.value)] x.version s

/-- Nothing of the slots can be seen but what the log has. -/
structure Hidden (i : Nat) (slots : List (Slot K)) (s : Store K) : Prop extends
    InFlight i slots s where
  unseen : ∀ x ∈ slots, Unseen x.version s

/-- Nothing of the slots can be seen. -/
structure Erased (i : Nat) (slots : List (Slot K)) (s : Store K) : Prop extends
    Hidden i slots s where
  erased : ∀ x ∈ slots, ∀ k, s.history k x.version = none

section

variable {slots rest : List (Slot K)} {x : Slot K} {granted touched : Nat → Prop} {s' : Store K}
omit [DecidableEq K]

/-- Versions in flight stay so unless they are touched. -/
theorem InFlight.evolves (h : InFlight i slots s) (hev : Evolves granted touched s s')
    (hn : ∀ x ∈ slots, ¬ touched x.version) : InFlight i slots s' where
  nodup := h.nodup
  holding := fun x hx => (h.holding x hx).evolves hev (hn x hx)
  reached := fun x hx => (h.reached x hx).evolves hev

/-- Hidden versions stay hidden unless they are touched. -/
theorem Hidden.evolves (h : Hidden i slots s) (hev : Evolves granted touched s s')
    (hn : ∀ x ∈ slots, ¬ touched x.version) : Hidden i slots s' where
  toInFlight := h.toInFlight.evolves hev hn
  unseen := fun x hx => (h.unseen x hx).evolves hev (h.holding x hx).allocated (hn x hx)

/-- Erased versions stay without rows unless they are touched. -/
theorem Erased.evolves (h : Erased i slots s) (hev : Evolves granted touched s s')
    (hn : ∀ x ∈ slots, ¬ touched x.version) : Erased i slots s' where
  toHidden := h.toHidden.evolves hev hn
  erased := fun x hx k =>
    (hev.spared _ (h.holding x hx).allocated (hn x hx)).2.2.2.1 k (h.erased x hx k)

theorem InFlight.lasting : Lasting i (InFlight (K := K) i slots) := fun _ _ _ _ hev htouched h =>
  h.evolves hev fun x hx hv => htouched _ hv (h.holding x hx).owner

theorem Hidden.lasting : Lasting i (Hidden (K := K) i slots) := fun _ _ _ _ hev htouched h =>
  h.evolves hev fun x hx hv => htouched _ hv (h.holding x hx).owner

theorem Erased.lasting : Lasting i (Erased (K := K) i slots) := fun _ _ _ _ hev htouched h =>
  h.evolves hev fun x hx hv => htouched _ hv (h.holding x hx).owner

/-- The other slots. -/
theorem InFlight.tail (h : InFlight i (x :: rest) s) : InFlight i rest s where
  nodup := (nodup_cons.1 h.nodup).2
  holding := fun y hy => h.holding y (mem_cons_of_mem _ hy)
  reached := fun y hy => h.reached y (mem_cons_of_mem _ hy)

/-- The other slots. -/
theorem Hidden.tail (h : Hidden i (x :: rest) s) : Hidden i rest s where
  toInFlight := h.toInFlight.tail
  unseen := fun y hy => h.unseen y (mem_cons_of_mem _ hy)

/-- The other slots. -/
theorem Erased.tail (h : Erased i (x :: rest) s) : Erased i rest s where
  toHidden := h.toHidden.tail
  erased := fun y hy => h.erased y (mem_cons_of_mem _ hy)

/-- A step of one slot spares the other slots. -/
theorem InFlight.spares (h : InFlight i (x :: rest) s) : ∀ y ∈ rest, ¬ (y.version = x.version) := by
  intro y hy heq
  exact (nodup_cons.1 h.nodup).1 (heq ▸ mem_map.2 ⟨y, hy, rfl⟩)

end

/-- The cell of a key is raised to a version not below a committed one. -/
theorem keeps_raise {k : K} {c : Cell} (hinv : Inv s) (hc : c.version = max (s.currentVersion k) v)
    (hnewest : s.currentVersion k = 0 → ∀ w, Committed s k w → w ≤ v) (hF : Lasting i F) (hs : F s) :
    (discipline allowed).Keeps i s { s with cells := update s.cells k (some c) } ∧
      F { s with cells := update s.cells k (some c) } ∧
      v ≤ { s with cells := update s.cells k (some c) }.currentVersion k := by
  obtain ⟨hkeeps, hs'⟩ := hF.still (hinv.raiseCell hc hnewest) hs
  refine ⟨hkeeps, hs', ?_⟩
  rw [Store.currentVersion_update, if_pos rfl]
  show v ≤ c.version
  omega

omit [DecidableEq K] in
/-- Nothing newer than a held version is committed for a key without a cell. -/
theorem Holding.newest (h : Holding i rows v s) (hinv : Inv s) {k : K}
    (hzero : s.currentVersion k = 0) (w : Nat) (hw : Committed s k w) : w ≤ v :=
  hinv.committed_le (hinv.owned_pos h.owner).1 h.unsettled hzero hw

/-- A new version is held and can be seen nowhere. -/
theorem assign_rowless (hinv : Inv s) (hrows : (rows.map Prod.fst).Nodup) (e : Env)
    (hF : Lasting i F) (hs : F s) :
    (discipline allowed).Keeps i s (serve i e s (.assignNextVersion rows)).1 ∧
      F (serve i e s (.assignNextVersion rows)).1 ∧
      Rowless i rows (s.counter + 1) (serve i e s (.assignNextVersion rows)).1 := by
  obtain ⟨houtcome, -, hwal, hnorows⟩ := hinv.unused (s.counter + 1) (.inr (lt_succ_self _))
  obtain ⟨hkeeps, hs'⟩ := hF.still (hinv.assign hrows) hs
  refine ⟨hkeeps, hs', ⟨?_, hwal, fun k => (hnorows k).2⟩, fun k => (hnorows k).1⟩
  exact ⟨by simp [serve], le_rfl, houtcome, by simp [serve]⟩

/-- The slots a write allocates are its own, new and hidden. -/
theorem allocate_hidden (appendOnly : Bool) (rows : List (K × Bytes)) (hF : Lasting i F) (h : F s) :
    (discipline allowed).Holds i (allocate appendOnly rows) (fun slots t => F t ∧
      Hidden i slots t ∧ ∀ x ∈ slots, s.counter < x.version) s := by
  induction rows generalizing s F with
  | nil => exact Holds.pure ⟨h, ⟨⟨by simp, by simp, by simp⟩, by simp⟩, by simp⟩
  | cons row rest ih =>
    obtain ⟨k, x⟩ := row
    have hF' : Lasting i fun t => F t ∧ s.counter ≤ t.counter := by
      refine hF.and fun _ _ t t' hev _ ht => le_trans ht hev.counter
    refine (holds_reads (observeCell_reads appendOnly k) hF' ⟨h, le_rfl⟩).seq fun old t ht => ?_
    -- the new version
    refine Holds.seq (P := fun v u => F u ∧ s.counter < v ∧
      Holding i [(k, x)] v u ∧ Unseen v u) ?_ ?_
    · refine holds_access hF' ht fun u e ⟨hu, hle⟩ hinv _ => ?_
      obtain ⟨hkeeps, hu', hrowless⟩ := assign_rowless hinv
        (show ([(k, x)].map Prod.fst).Nodup by simp) e hF hu
      exact ⟨hkeeps, hu', lt_succ_of_le hle, hrowless.1⟩
    rintro v u ⟨hu, hlt, hhold, hunseen⟩
    have hlast := hF.and (Unseen.lasting [(k, x)] v)
    -- its cell
    refine Holds.seq (P := fun _ w => F w ∧ Holding i [(k, x)] v w ∧ Unseen v w ∧
      Reached [(k, x)] v w) ?_ ?_
    · refine holds_access hlast ⟨hu, hhold, hunseen⟩ fun w e hw hinv _ => ?_
      obtain ⟨hkeeps, ⟨hw', hhold', hunseen'⟩, hreached⟩ := keeps_raise hinv
        (Cell.publish_version w k v) (hw.2.1.newest hinv) hlast hw
      exact ⟨hkeeps, hw', hhold', hunseen', reached_singleton (.inl hreached)⟩
    rintro - w hw
    -- the other rows
    have hlast' : Lasting i fun t => F t ∧ Holding i [(k, x)] v t ∧ Unseen v t ∧
        Reached [(k, x)] v t := by
      rintro _ _ t t' hev htouched ⟨ht, hhold, hunseen, hreached⟩
      obtain ⟨ht', hhold', hunseen'⟩ := hlast _ _ _ _ hev htouched ⟨ht, hhold, hunseen⟩
      exact ⟨ht', hhold', hunseen', hreached.evolves hev⟩
    refine (ih hlast' hw).seq ?_
    rintro slots y ⟨⟨hy, hhold, hunseen, hreached⟩, hslots, habove⟩
    have hle : v ≤ w.counter := hw.2.1.allocated
    refine Holds.pure ⟨hy, ⟨⟨?_, ?_, ?_⟩, ?_⟩, ?_⟩
    · rw [map_cons, nodup_cons]
      refine ⟨fun hmem => ?_, hslots.nodup⟩
      obtain ⟨z, hz, hzv⟩ := mem_map.1 hmem
      have := habove z hz
      change z.version = v at hzv
      omega
    · exact forall_mem_cons.2 ⟨hhold, hslots.holding⟩
    · exact forall_mem_cons.2 ⟨hreached, hslots.reached⟩
    · exact forall_mem_cons.2 ⟨hunseen, hslots.unseen⟩
    · refine forall_mem_cons.2 ⟨hlt, fun z hz => ?_⟩
      have := habove z hz
      omega

/-- The log takes the rows; they stay hidden. -/
theorem logRows_holds (ts : Nat) (h : Hidden i slots s) :
    (discipline allowed).Holds i (perform (.logRows slots ts)) (fun _ => Hidden i slots) s := by
  refine holds_access Hidden.lasting h fun t e ht hinv _ => ?_
  have hlogged : Steps (· = i) (fun v => ∃ x ∈ slots, x.version = v) t { t with
      history := t.history.setAll (slotRows slots)
      stamps := stampAll t.stamps (slots.map Slot.version) (some ts) } :=
    hinv.log fun k v => by
      rcases t.history.setAll_eq (slotRows slots) k v with ⟨x, hx, heq⟩ | hold
      · simp only [slotRows, mem_map] at hx
        obtain ⟨y, hy, rfl, rfl, rfl⟩ := hx
        have hhold := ht.holding y hy
        refine .inr ⟨y.value, heq, ?_, ?_, ⟨y, hy, rfl⟩, hinv.owned_pos hhold.owner⟩
        · rw [hhold.writes]
          exact mem_singleton_self _
        · rw [hhold.unsettled]
          simp
      · exact .inl hold
  rcases hio : e.io with _ | _ | _ <;> simp only [serve, hio]
  case failed => exact ⟨Discipline.Keeps.refl hinv, ht⟩
  all_goals
    refine ⟨keeps_of_steps hlogged ?_,
      ⟨ht.nodup, fun x hx => { ht.holding x hx with }, ht.reached⟩,
      fun x hx => { ht.unseen x hx with }⟩
    rintro v ⟨x, hx, rfl⟩ j hj hown
    exact hj (Option.some.inj (hown.symm.trans (ht.holding x hx).owner))

/-- A compensation that succeeds erases them. -/
theorem unlogRows_holds (h : Hidden i slots s) :
    (discipline allowed).Holds i (perform (.unlogRows slots))
      (fun ok t => if ok then Erased i slots t else True) s := by
  refine holds_access Hidden.lasting h fun t e ht hinv _ => ?_
  have q := serve_quiet (a := .unlogRows slots) trivial i e t
  obtain ⟨hkeeps, ht'⟩ := keeps_of_quiet hinv q Hidden.lasting ht
  refine ⟨hkeeps, ?_⟩
  rcases hio : e.io with _ | _ | _ <;> simp only [serve, hio] at ht' ⊢ <;> try trivial
  refine ⟨ht', fun x hx k => ?_⟩
  · rcases t.history.clearAll_eq (slots.map fun t => (t.key, t.version)) k x.version with
      ⟨-, hnone⟩ | ⟨hmem, hold⟩
    · exact hnone
    -- a row at the version is the slot's own
    refine hold.trans ?_
    by_contra hne
    obtain ⟨y, hy⟩ := Option.ne_none_iff_exists'.1 hne
    have hrow := (hinv.historyRow k x.version y hy).1
    rw [(ht.holding x hx).writes, mem_singleton, Prod.mk.injEq] at hrow
    exact hmem (mem_map.2 ⟨x, hx, by rw [hrow.1]⟩)

/-- A plain write follows the rules. -/
theorem writeRows_holds (appendOnly : Bool) (rows : List (K × Bytes)) :
    Behaves allowed i (writeRows appendOnly rows) s := by
  refine (allocate_hidden appendOnly rows (Lasting.const True) trivial).seq ?_
  rintro slots t ⟨-, ht, -⟩
  refine (holds_one .nowMillis trivial Hidden.lasting ht).seq fun ts u hu => ?_
  refine (logRows_holds ts hu).seq fun ok w hw => ?_
  cases ok with
  | true =>
    refine (holds_quiet (.forEach fun x : Slot K => .perform trivial)
      InFlight.lasting hw.toInFlight).seq fun _ t ht => ?_
    refine Holds.seq (P := fun _ => InFlight i slots) ?_ fun _ t ht => ?_
    · refine Holds.forEach_mem (fun x hx u hu => ?_) ht
      refine holds_access InFlight.lasting hu fun w e hw hinv _ => ?_
      have hhold := hw.holding x hx
      have hrow : (x.key, x.value) ∈ w.writes x.version := by simp [hhold.writes]
      exact ⟨keeps_of_own (hinv.overlayInsert hhold.owner hrow) (.inl hhold.owner),
        hw.nodup, fun y hy => { hw.holding y hy with }, hw.reached⟩
    refine Holds.seq (P := fun _ _ => True) ?_ fun _ t _ => ?_
    · refine Holds.imp (Holds.forEach (J := InFlight i) ?_ ht) fun _ _ _ => trivial
      intro x rest u hu
      refine commitGuard_holds InFlight.lasting (fun _ t t' hev ht => ?_)
        ⟨hu.holding x mem_cons_self, hu.reached x mem_cons_self, hu.tail⟩
      exact ht.evolves hev hu.spares
    · refine holds_quietly ?_
      exact .seq (.forEach fun x => markDurable_quiet x.version) fun _ =>
        .seq (.forEach vacuumAfter_quiet) fun _ => .pure _
  | false =>
    refine Holds.seq (P := fun _ _ => True) ?_ fun _ _ _ => Holds.pure trivial
    refine (unlogRows_holds hw).seq fun ok t ht => ?_
    cases ok with
    | false => exact holds_any .fenceWrites trivial
    | true =>
      refine Holds.imp (Holds.forEach (J := Erased i) ?_ ht) fun _ _ _ => trivial
      intro x rest u hu
      refine abortGuard_holds Erased.lasting (fun _ t t' hev ht => ht.evolves hev hu.spares)
        ⟨⟨⟨hu.holding x mem_cons_self, hu.unseen x mem_cons_self⟩, hu.erased x mem_cons_self⟩,
          hu.tail⟩

/-! ## Transactional commits -/

/-- The cells of a commit are raised to its version. -/
theorem applyCommittedVisible_holds (h : Holding i rows v s) :
    (discipline allowed).Holds i (applyCommittedVisible rows v) (fun _ t =>
      Holding i rows v t ∧ Reached rows v t) s := by
  refine (holds_one (.stampPending v) trivial (Holding.lasting rows v) h).seq fun _ t ht => ?_
  refine Holds.seq (P := fun _ => Holding i rows v) ?_ fun _ t ht => ?_
  · refine Holds.forEach_mem (fun row hrow u hu => ?_) ht
    refine holds_access (Holding.lasting rows v) hu fun w e hw hinv _ => ?_
    exact ⟨keeps_of_own (hinv.overlayInsert hw.owner (by rwa [hw.writes])) (.inl hw.owner),
      { hw with }⟩
  refine Holds.seq (P := fun _ t => Holding i rows v t ∧ Reached rows v t) ?_
    fun _ t ht => holds_one (.raisePublished v) trivial
      ((Holding.lasting rows v).and (Reached.lasting rows v)) ht
  refine Holds.imp (holds_forEach (P := fun row => Reached [row] v)
    (fun row => Reached.lasting [row] v) (fun row _ G u hG hGF hu => ?_)
    (Holding.lasting rows v) ht) fun _ u hu => ⟨hu.1, reached_iff.2 hu.2⟩
  refine holds_access hG hu fun w e hw hinv _ => ?_
  obtain ⟨hkeeps, hw', hreached⟩ := keeps_raise hinv (Cell.finalize_version w row.1 v)
    ((hGF w hw).newest hinv) hG hw
  exact ⟨hkeeps, hw', reached_singleton (.inl hreached)⟩

/-- A commit that is dropped leaves an orphan. -/
theorem orphan_holds (h : Holding i rows v s) : Behaves allowed i (perform (.orphan v)) s := by
  refine holds_access (Holding.lasting rows v) h fun t e ht hinv _ => ?_
  exact ⟨keeps_of_own (hinv.setStatus (by decide)) (.inl ht.owner), trivial⟩

/-- A transactional commit follows the rules. -/
theorem commitTx_holds (set : WriteSet K) : Behaves allowed i (commitTx set) s := by
  refine Holds.seq (P := Rowless i set.rows) ?_ ?_
  · refine holds_access (Lasting.const True) trivial fun t e _ hinv _ => ?_
    obtain ⟨hkeeps, -, hrowless⟩ := assign_rowless hinv set.nodup e (Lasting.const True) trivial
    exact ⟨hkeeps, hrowless⟩
  rintro v t ht
  refine Holds.seq (P := fun io t => Holding i set.rows v t ∧
    (io = .failed → Rowless i set.rows v t)) ?_ ?_
  · refine holds_access (Rowless.lasting set.rows v) ht fun u e hu hinv _ => ?_
    have hhold := hu.1.1
    rcases hio : e.io with _ | _ | _ <;> simp only [serve, hio]
    · have hstep : Steps (· = i) (· = v) u _ := hinv.walAppend hhold.owner
      rw [hhold.writes] at hstep
      exact ⟨keeps_of_own hstep (.inl hhold.owner), { hhold with }, (by simp)⟩
    · exact ⟨Discipline.Keeps.refl hinv, hhold, fun _ => hu⟩
    · exact ⟨Discipline.Keeps.refl hinv, hhold, (by simp)⟩
  rintro io u ⟨hhold, hfailed⟩
  cases io with
  | failed =>
    exact abortGuard_holds (Lasting.const True) (fun _ _ _ _ h => h) ⟨hfailed rfl, trivial⟩
  | failedApplied => exact Holds.pure trivial
  | done =>
    refine (holds_one .cancelled trivial (Holding.lasting set.rows v) hhold).seq
      fun dropped w hw => ?_
    split
    · exact orphan_holds hw
    refine (applyCommittedVisible_holds hw).seq fun _ x hx => ?_
    refine (holds_one .cancelled trivial ((Holding.lasting set.rows v).and
      (Reached.lasting set.rows v)) hx).seq fun dropped y hy => ?_
    split
    · exact orphan_holds hy.1
    · exact commitGuard_holds (Lasting.const True) (fun _ _ _ _ h => h) ⟨hy.1, hy.2, trivial⟩

/-! ## The drainer -/

omit [DecidableEq K] in
/-- The entries of a drain window are accepted, and no commit is at work on them. -/
theorem drainable_accepted (visible c fuel : Nat) (s : Store K) :
    (∀ entry ∈ (drainable s.wal visible c fuel).1, Accepted entry.1 entry.2 s) ∧
      ∀ orphan, (drainable s.wal visible c fuel).2 = some orphan → Accepted orphan.1 orphan.2 s := by
  induction fuel generalizing c with
  | zero => exact ⟨by simp [drainable], by simp [drainable]⟩
  | succ fuel ih =>
    unfold drainable
    rcases hwal : s.wal c with _ | ⟨ops, _ | _ | _⟩
    · simp
    · simp
    · refine ⟨by simp, fun orphan ho => ?_⟩
      obtain rfl := Option.some.inj ho
      exact ⟨_, hwal, rfl, by simp⟩
    · dsimp only
      split
      · obtain ⟨hentries, horphan⟩ := ih (c + 1)
        refine ⟨forall_mem_cons.2 ⟨⟨_, hwal, rfl, by simp⟩, hentries⟩, horphan⟩
      · simp

/-- A pass keeps the versions and rows of its entries. -/
theorem stampPassEntries_spec (entries : List (Nat × List (K × Bytes))) (hF : Lasting i F)
    (h : F s) :
    (discipline allowed).Holds i (stampPassEntries entries) (fun pass t =>
      pass.map (fun entry => (entry.version, entry.rows)) = entries ∧ F t) s := by
  induction entries generalizing s with
  | nil => exact Holds.pure ⟨rfl, h⟩
  | cons entry rest ih =>
    refine Holds.seq (P := fun stamped t =>
      (stamped.version, stamped.rows) = entry ∧ F t) ?_ ?_
    · refine (holds_one (.pendingTs entry.1) trivial hF h).seq fun ts t ht => ?_
      cases ts with
      | some ts => exact Holds.pure ⟨rfl, ht⟩
      | none =>
        exact (holds_one .nowMillis trivial hF ht).seq fun now u hu =>
          Holds.pure ⟨rfl, hu⟩
    rintro stamped t ⟨hstamped, ht⟩
    refine (ih ht).seq ?_
    rintro pass u ⟨hpass, hu⟩
    exact Holds.pure ⟨by rw [map_cons, hstamped, hpass], hu⟩

/-- The drainer logs rows of accepted versions only. -/
theorem drainRows_holds {pass : List (DrainEntry K)} (hF : Lasting i F)
    (hpass : pass.map (fun entry => (entry.version, entry.rows)) = entries)
    (hF' : ∀ t, F t → ∀ entry ∈ entries, Accepted entry.1 entry.2 t) (h : F s) :
    (discipline allowed).Holds i (perform (.drainRows pass)) (fun _ => F) s := by
  refine holds_access hF h fun t e ht hinv _ => ?_
  have hentry : ∀ entry ∈ pass, Accepted entry.version entry.rows t := fun entry hentry =>
    hF' t ht (entry.version, entry.rows) (hpass ▸ mem_map.2 ⟨entry, hentry, rfl⟩)
  have hlogged : Steps (· = i) (fun v => ∃ x ∈ pass, x.version = v) t { t with
      history := t.history.setAll (passRows pass), stamps := stampPass t.stamps pass } :=
    hinv.log fun k v => by
      rcases t.history.setAll_eq (passRows pass) k v with ⟨x, hx, heq⟩ | hold
      · simp only [passRows, mem_flatMap, mem_map] at hx
        obtain ⟨entry, hmem, ⟨k', x'⟩, hrow, rfl, rfl, rfl⟩ := hx
        have haccepted := hentry entry hmem
        obtain ⟨-, hwrites, hused⟩ := haccepted.disowned hinv
        obtain ⟨r, hr, -, -⟩ := haccepted
        refine .inr ⟨x', heq, hwrites ▸ hrow, (hinv.accepted _ r hr).2.1, ⟨entry, hmem, rfl⟩, hused⟩
      · exact .inl hold
  have hown : ∀ v, (∃ x ∈ pass, x.version = v) → ∀ j, t.owner v ≠ some j := by
    rintro v ⟨entry, hmem, rfl⟩ j hown
    exact absurd (hown.symm.trans ((hentry entry hmem).disowned hinv).1.2) (by simp)
  have hkeeps : (discipline allowed).Keeps i t _ :=
    keeps_of_steps hlogged fun v hv j _ => hown v hv j
  have hF'' := hF _ _ _ _ hlogged.evolves (fun v hv => hown v hv i) ht
  rcases hio : e.io with _ | _ | _ <;> simp only [serve, hio]
  · exact ⟨hkeeps, hF''⟩
  · exact ⟨Discipline.Keeps.refl hinv, ht⟩
  · exact ⟨hkeeps, hF''⟩

variable (hseed : ∀ (k : K) (v : Nat) (s : Store K), allowed (.seedCell k v) s →
  SeedsNewest (.seedCell k v) s)
include hseed

/-- A seeded cell is at the version at least. -/
theorem seedCell_holds (k : K) (v : Nat) (hF : Lasting i F) (h : F s) :
    (discipline allowed).Holds i (perform (.seedCell k v))
      (fun _ t => F t ∧ v ≤ t.currentVersion k) s := by
  refine holds_access hF h fun t e ht hinv hallowed => ?_
  have hallocated : ∀ w, Committed t k w → w ≤ t.counter := by
    intro w hw
    by_contra hgt
    exact absurd (hw.1.symm.trans (hinv.unused w (.inr (not_le.1 hgt))).1) (by simp)
  exact keeps_raise hinv (Cell.publish_version t k v)
    (fun hzero w hw => hseed k v t hallowed hzero w (hallocated w hw) hw) hF ht

/-- The cells of one drained entry are seeded. -/
theorem seedRows_holds (v : Nat) (rows : List (K × Bytes)) (hF : Lasting i F) (h : F s) :
    (discipline allowed).Holds i (Prog.forEach (fun row => perform (.seedCell row.1 v)) rows)
      (fun _ t => F t ∧ Reached rows v t) s := by
  refine Holds.imp (holds_forEach (P := fun row => Reached [row] v)
    (fun row => Reached.lasting [row] v) (fun row _ G t hG _ ht => ?_) hF h)
    fun _ u hu => ⟨hu.1, reached_iff.2 hu.2⟩
  exact Holds.imp (seedCell_holds hseed row.1 v hG ht) fun _ u hu =>
    ⟨hu.1, reached_singleton (.inl hu.2)⟩

/-- A pass over accepted versions; when it succeeds the cells have reached them. -/
theorem writeCommittedBatchToHistory_reached (hF : Lasting i F)
    (hF' : ∀ t, F t → ∀ entry ∈ entries, Accepted entry.1 entry.2 t) (h : F s) :
    (discipline allowed).Holds i (writeCommittedBatchToHistory entries) (fun ok t =>
      F t ∧ (ok = true → ∀ entry ∈ entries, Reached entry.2 entry.1 t)) s := by
  unfold writeCommittedBatchToHistory
  split
  · have hnil : entries = [] := by simpa using ‹entries.isEmpty = true›
    subst hnil
    exact Holds.pure ⟨h, by simp⟩
  refine (stampPassEntries_spec entries hF h).seq ?_
  rintro pass t ⟨hpass, ht⟩
  refine (drainRows_holds hF hpass hF' ht).seq fun ok u hu => ?_
  cases ok with
  | false => exact Holds.pure ⟨hu, by simp⟩
  | true =>
    refine (holds_quiet (.forEach fun x : DrainEntry K =>
      .perform trivial) hF hu).seq fun _ w hw => ?_
    have hlast : Lasting i fun t => F t ∧ ∀ entry ∈ entries, Reached entry.2 entry.1 t :=
      hF.and (Lasting.forall fun entry => Lasting.forall fun _ => Reached.lasting entry.2 entry.1)
    refine (holds_forEach (P := fun entry => Reached entry.2 entry.1)
      (fun entry => Reached.lasting entry.2 entry.1)
      (fun entry _ G t hG _ ht => seedRows_holds hseed entry.1 entry.2 hG ht) hF hw).seq
      fun _ x hx => ?_
    refine (holds_one (.raisePublished _) trivial hlast hx).seq fun _ y hy => ?_
    exact Holds.pure ⟨hy.1, fun _ => hy.2⟩

omit hseed in
/-- An orphan whose keys' cells have reached it is completed. -/
theorem completeOrphan_holds (h : Accepted v rows s ∧ Reached rows v s) :
    (discipline allowed).Holds i (perform (.completeOrphan v)) (fun _ => Accepted v rows) s := by
  refine holds_access ((Accepted.lasting v rows).and (Reached.lasting rows v)) h
    fun t e ⟨haccepted, hreached⟩ hinv _ => ?_
  obtain ⟨hdis, hwrites, hused⟩ := haccepted.disowned hinv
  dsimp only [serve]
  split
  · rcases hout : t.completion.outcome v with _ | o
    · have hmark := hinv.mark (i := i) (o := .materialized) hused hout
        (fun _ k x hx => (hreached k x (hwrites ▸ hx)).resolve_right fun hne => hne hout)
        (nofun)
      rw [hdis.update_owner] at hmark
      exact ⟨keeps_of_own hmark (.inr hdis.2), haccepted⟩
    · -- it was settled before
      have hsame : t.completion.mark v .materialized = t.completion := by
        rw [Settlement.mark, hout]
      rw [hsame]
      exact ⟨Discipline.Keeps.refl hinv, haccepted⟩
  · exact ⟨Discipline.Keeps.refl hinv, haccepted⟩

/-- The drain of an orphan that was accepted. -/
theorem drainOrphan_accepted {orphan : Option (Nat × List (K × Bytes))}
    (h : ∀ o, orphan = some o → Accepted o.1 o.2 s) :
    Behaves allowed i (drainOrphan orphan) s := by
  cases orphan with
  | none => exact Holds.pure trivial
  | some o =>
    obtain ⟨v, rows⟩ := o
    refine (writeCommittedBatchToHistory_reached hseed
      (Accepted.lasting v rows) (fun t ht => by simpa using ht) (h _ rfl)).seq ?_
    rintro ok t ⟨haccepted, hreached⟩
    cases ok with
    | false => exact Holds.pure trivial
    | true =>
      refine (completeOrphan_holds ⟨haccepted, hreached rfl _ (mem_singleton_self _)⟩).seq
        fun _ u hu => ?_
      refine (holds_one .advance trivial (Accepted.lasting v rows) hu).seq fun _ u hu => ?_
      refine (holds_one .watermark trivial (Accepted.lasting v rows) hu).seq fun w x hx => ?_
      refine (holds_one (.raisePublished w) trivial (Accepted.lasting v rows) hx).seq fun _ y hy => ?_
      refine Holds.seq (P := fun _ _ => True) ?_ fun _ z _ =>
        holds_quietly (markDurable_quiet v)
      refine holds_access (Accepted.lasting v rows) hy fun z e hz hinv _ => ?_
      have hdis := (hz.disowned hinv).1
      exact ⟨keeps_of_own (keeps_setStatus hinv hdis (by decide)) (.inr hdis.2), trivial⟩

/-- The drainer follows the rules. -/
theorem drainStep_keeps (slots : List (K × Nat)) : Behaves allowed i (drainStep slots) s := by
  refine (holds_any .lastCommitted trivial).seq fun visible t _ => ?_
  refine (holds_any .durableWatermark trivial).seq fun dur u _ => ?_
  refine Holds.seq (P := fun window w => (∀ entry ∈ window.1, Accepted entry.1 entry.2 w) ∧
    ∀ o, window.2 = some o → Accepted o.1 o.2 w) ?_ ?_
  · exact holds_read (a := .drainWindow dur visible) trivial (Lasting.const True) trivial
      fun w e _ _ _ => drainable_accepted visible (dur + 1) (w.counter - dur) w
  rintro window w hw
  have hlast : Lasting i fun w : Store K => (∀ entry ∈ window.1, Accepted entry.1 entry.2 w) ∧
      ∀ o, window.2 = some o → Accepted o.1 o.2 w :=
    (Lasting.forall fun entry : Nat × List (K × Bytes) =>
      Lasting.forall fun _ => Accepted.lasting entry.1 entry.2).and
      (Lasting.forall fun o : Nat × List (K × Bytes) =>
        Lasting.forall fun _ => Accepted.lasting o.1 o.2)
  refine (writeCommittedBatchToHistory_reached hseed hlast (fun t ht => ht.1) hw).seq ?_
  rintro ok x ⟨hx, -⟩
  cases ok with
  | false => exact Holds.pure trivial
  | true =>
    refine (holds_quiet (.forEach fun entry : Nat × List (K × Bytes) => markDurable_quiet entry.1)
      hlast hx).seq fun _ y hy => ?_
    refine (drainOrphan_accepted hseed hy.2).seq fun _ z _ => ?_
    refine (holds_any .durableWatermark trivial).seq fun d _ _ => ?_
    exact holds_quietly (gcOverlayTo_quiet d slots)

/-! ## Pruning -/

omit hseed in
/-- `min_alive` is not above the watermark. -/
theorem minAlive_le : (discipline allowed).Holds i (minAlive : Call K Nat)
    (fun bound t => bound ≤ t.completion.watermark) s := by
  have hle : ∀ w, Lasting i fun t : Store K => w ≤ t.completion.watermark :=
    fun w _ _ _ _ hev _ h => le_trans h hev.watermark
  refine (holds_any .snapshotsOpening trivial).seq fun opening t _ => ?_
  split
  · exact Holds.pure (zero_le _)
  refine Holds.seq (P := fun w u => w ≤ u.completion.watermark) ?_ fun w u hu => ?_
  · exact holds_read (a := .watermark) trivial (Lasting.const True) trivial fun u _ _ _ _ => le_rfl
  refine (holds_one .minActiveSnapshot trivial (hle w) hu).seq fun pin x hx => ?_
  cases pin with
  | none => exact Holds.pure hx
  | some pin => exact Holds.pure (le_trans (min_le_left _ _) hx)

omit hseed in
/-- So does the pruning of cells. -/
theorem pruneVersionCache_keeps (cells : List K) :
    Behaves allowed i (pruneVersionCache cells) s := by
  refine minAlive_le.seq fun bound t ht => ?_
  have hle : Lasting i fun t : Store K => bound ≤ t.completion.watermark :=
    fun _ _ _ _ hev _ h => le_trans h hev.watermark
  refine Holds.imp (Holds.forEach (J := fun _ t =>
    bound ≤ t.completion.watermark) ?_ ht) fun _ _ _ => trivial
  intro k rest u hu
  refine holds_access hle hu fun w e hw hinv _ => ?_
  dsimp only [serve]
  split
  · rename_i c hc
    split
    · rename_i hevict
      have hbelow : c.version ≤ w.completion.watermark := by
        simp only [Cell.evictable, Bool.and_eq_true, decide_eq_true_eq] at hevict
        omega
      exact hle.still (hinv.evictCell hc hbelow) hw
    · exact ⟨Discipline.Keeps.refl hinv, hw⟩
  · exact ⟨Discipline.Keeps.refl hinv, hw⟩

/-! ## All calls -/

/-- **Every call keeps the discipline.** -/
theorem program_keeps (op : Op K) : Behaves allowed i (program op) s := by
  have hclosed : Prog.Closed (A := Access K) (B := Response) fun p => ∀ s, Behaves allowed i p s :=
    ⟨fun _ _ => Holds.pure trivial, fun hp hf s => (hp s).seq fun x t _ => hf x t⟩
  exact program_closed hclosed (fun a ha s => holds_any a ha.isQuiet)
    (fun removals s => holds_quietly (reclaim_quiet removals))
    (fun appendOnly rows s => writeRows_holds appendOnly rows) (fun set s => commitTx_holds set)
    (fun slots s => drainStep_keeps hseed slots) (fun cells s => pruneVersionCache_keeps cells)
    (fun k v s => Holds.imp (seedCell_holds hseed k v (Lasting.const True) trivial)
      fun _ _ _ => trivial) op s

/-! ## All runs -/

omit [DecidableEq K] hseed in
/-- The empty store. -/
theorem Inv.empty (retention : Retention) (receiptNative : Bool) :
    Inv (Store.empty retention receiptNative : Store K) where
  unused := fun _ _ => ⟨rfl, rfl, rfl, fun _ => ⟨rfl, rfl⟩⟩
  settled := fun v hv hle => absurd hle (not_le.2 hv)
  historyRow := fun _ _ _ hx => absurd hx (by simp [Store.empty])
  overlayRow := fun _ _ _ hx => absurd hx (by simp [Store.empty])
  nodup := fun _ => nodup_nil
  owned := fun _ _ hv => absurd hv (by simp [Store.empty])
  accepted := fun _ _ hr => absurd hr (by simp [Store.empty])
  cell := fun _ _ hv => absurd hv.1 (by simp [Store.empty, Settlement.fresh])

/-- A pool over an empty store, before the first call. -/
def start (retention : Retention) (receiptNative : Bool) : Pool (Store K) (Access K) Response :=
  ⟨Store.empty retention receiptNative, []⟩

/-- One event of a pool of calls. -/
abbrev poolStep : Pool (Store K) (Access K) Response → Event (Op K) Env →
    Pool (Store K) (Access K) Response := Threads.step serve program

/-- **The invariant holds in every reachable state** of runs whose seedings are allowed. -/
theorem inv_run (retention : Retention) (receiptNative : Bool) {es : List (Event (Op K) Env)}
    (hes : Machine.Along poolStep (Meets allowed) (start retention receiptNative) es) :
    Inv (Machine.run poolStep (start retention receiptNative) es).shared := by
  have hsound : (discipline allowed).Sound (fun i s => ∀ v, s.owner v ≠ some i)
      (start retention receiptNative : Pool (Store K) (Access K) Response) :=
    ⟨Inv.empty retention receiptNative, by simp [start], by simp [start, Store.empty]⟩
  refine (Discipline.holds_run (D := discipline allowed) ?_ ?_ hsound hes).inv
  · intro i s s' hfresh hrely v hv
    rcases hrely.owner v i hv with hold | hne
    · exact hfresh v hold
    · exact hne rfl
  · exact fun op i s _ _ => program_keeps hseed op

end ShamirDb.Mvcc
