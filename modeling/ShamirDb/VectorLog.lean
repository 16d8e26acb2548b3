/-
# The log of vector chunks and the graph

`Inv` is what the log, the graph and the snapshot keep to while the process runs.  A record
whose newest chunk has been promoted has that chunk's value in the graph, whatever the other
commits are doing, since promotes go in chunk order.  A dump taken after the applied prefix
was sampled therefore covers the chunks below it (`Covers`).  The steps of the commits keep
the invariant.
-/
import ShamirDb.VectorRestart

namespace ShamirDb.VectorRestart

open Machine KeyedWrites TaskList List Nat Option Function

variable {R V : Type*} [DecidableEq R] {s : System R V} {k : R} {v : Option V} {i : Nat}

/-! ## The newest chunk of a record -/

/-- Commit `i` is the last one with a chunk that writes `k`. -/
def Newest (s : System R V) (k : R) (i : Nat) (t : Task R V) : Prop :=
  s.tasks[i]? = some t ∧ last k t.writes ≠ none ∧
    ∀ (j : Nat) (u : Task R V), i < j → s.tasks[j]? = some u → last k u.writes = none

/-- A key has a newest chunk, or none has written it. -/
theorem newest_or (s : System R V) (k : R) :
    (∃ i t, Newest s k i t) ∨ ∀ t ∈ s.tasks, last k t.writes = none := by
  cases hlast : last k (s.tasks.flatMap Task.writes) with
  | none => exact Or.inr (last_flatMap_eq_none_iff.1 hlast)
  | some v =>
    obtain ⟨i, t, ht, hv, hlater⟩ := exists_newest hlast
    exact Or.inl ⟨i, t, ht, by rw [hv]; simp, hlater⟩

/-- The newest chunk that touches `k` is not before one that does. -/
theorem Newest.le {j : Nat} {t u : Task R V} (h : Newest s k i t) (hu : s.tasks[j]? = some u)
    (hk : last k u.writes ≠ none) : j ≤ i := by
  apply Nat.le_of_not_lt
  intro hlt
  exact hk (h.2.2 j u hlt hu)

variable {t : Task R V}

/-- The newest chunk decides the expected value. -/
theorem Newest.expected (h : Newest s k i t) (hv : last k t.writes = some v) :
    s.expected k = v := by
  have hlast : last k (s.tasks.flatMap Task.writes) = some v := last_flatMap_of_newest h.1 hv h.2.2
  rw [System.expected, apply_eq, hlast, getD_some]

/-- A key that no chunk writes has its old value. -/
theorem expected_of_untouched (h : ∀ t ∈ s.tasks, last k t.writes = none) :
    s.expected k = s.before k := by
  rw [System.expected, apply_eq, last_flatMap_eq_none_iff.2 h, getD_none]

/-- Only landed chunks count as writes. -/
theorem Task.landed_of_touched (h : last k t.writes ≠ none) : t.landed = true := by
  cases hl : t.landed with
  | true => rfl
  | false => exact absurd (by rw [Task.writes_of_not_landed hl, last_nil]) h

/-! ## The invariant -/

/-- The stage says whether the chunk is in the store. -/
def Task.Sound (t : Task R V) : Prop :=
  match t.stage with
  | .appending | .dropped => True
  | .lost => t.landed = false
  | _ => t.landed = true

/-- The image holds the expected value of each record that no chunk from `upto` on writes. -/
def Covers (s : System R V) (upto : Nat) (image : R → Option V) : Prop :=
  ∀ k, (∀ idx, upto ≤ idx → last k (s.replayedAt idx) = none) → image k = s.expected k

variable {image : R → Option V}

/-- An image covers less as well. -/
theorem Covers.mono {lo upto : Nat} (h : Covers s upto image) (hle : lo ≤ upto) :
    Covers s lo image :=
  fun k hk => h k fun idx hidx => hk idx (le_trans hle hidx)

/-- What the running snapshot relies on. -/
def SnapshotInv (s : System R V) : Prop :=
  match s.snapshot with
  | .idle => True
  | .dumping upto _ image => upto ≤ s.appliedPrefix ∧ Covers s upto image
  | .dumped upto _ =>
    upto ≤ s.appliedPrefix ∧ ∀ m, s.manifest = some m → Covers s upto m.image
  | .pruning upto next =>
    (upto ≤ s.appliedPrefix ∧ next ≤ upto) ∧ (∃ m, s.manifest = some m ∧ m.upto = upto) ∧
      ∀ idx < next, s.chunks idx = none

/-- Steps of the commits leave the snapshot alone. -/
theorem SnapshotInv.next {s' : System R V} (h : SnapshotInv s) (hsnap : s'.snapshot = s.snapshot)
    (hman : s'.manifest = s.manifest) (hmono : s.appliedPrefix ≤ s'.appliedPrefix)
    (hcov : ∀ upto image, upto ≤ s.appliedPrefix → Covers s upto image → Covers s' upto image)
    (hchunks : ∀ idx < s.appliedPrefix, s.chunks idx = none → s'.chunks idx = none) :
    SnapshotInv s' := by
  unfold SnapshotInv at h ⊢
  rw [hsnap, hman]
  cases hstage : s.snapshot with
  | idle => trivial
  | dumping upto recovery image =>
    rw [hstage] at h
    exact ⟨le_trans h.1 hmono, hcov _ _ h.1 h.2⟩
  | dumped upto recovery =>
    rw [hstage] at h
    exact ⟨le_trans h.1 hmono, fun m hm => hcov _ _ h.1 (h.2 m hm)⟩
  | pruning upto next =>
    rw [hstage] at h
    obtain ⟨⟨hupto, hnext⟩, hm, hgone⟩ := h
    refine ⟨⟨le_trans hupto hmono, hnext⟩, hm, fun idx hidx => ?_⟩
    exact hchunks idx (by omega) (hgone idx hidx)

structure Inv (s : System R V) : Prop where
  apart : ∀ t ∈ s.tasks, t.lists.Apart
  sound : ∀ t ∈ s.tasks, t.Sound
  small : ∀ (i : Nat) (t : Task R V), s.tasks[i]? = some t → s.first + i < 10 ^ 10
  /-- Promotes begin in turn. -/
  order : ∀ (i j : Nat) (t u : Task R V), i < j → s.tasks[i]? = some t → s.tasks[j]? = some u →
    u.started = true → t.released = true
  /-- A chunk in the store is that of a commit, or was there before. -/
  present : ∀ idx l, s.chunks idx = some l → idx < 10 ^ 10 ∧ (s.first ≤ idx →
    ∃ t : Task R V, s.tasks[idx - s.first]? = some t ∧ t.landed = true ∧ t.lists = l)
  /-- A chunk that was removed is applied, and none is left below it. -/
  absent : ∀ (i : Nat) (t : Task R V), s.tasks[i]? = some t → t.landed = true →
    s.chunks (s.first + i) = none →
    s.first + i < s.appliedPrefix ∧ ∀ idx < s.first + i, s.chunks idx = none
  /-- The chunks of earlier processes end in the map these left. -/
  older : ∀ k idx v, idx < s.first → last k (s.replayedAt idx) = some v →
    (∀ j, idx < j → j < s.first → last k (s.replayedAt j) = none) → s.before k = v
  graph : ∀ k, (∀ i t, Newest s k i t → t.settled = true) → s.graph k = s.expected k
  progress : ∀ (i : Nat) (t : Task R V) n, s.tasks[i]? = some t → t.stage = .promoting n →
    ∀ k v, last k (t.lists.promoted.take n) = some v → s.graph k = v
  manifest : ∀ m, s.manifest = some m → m.upto ≤ s.appliedPrefix ∧ Covers s m.upto m.image
  snapshot : SnapshotInv s

/-- The part of `Inv` that is about the commits alone. -/
structure InTurn (first : Nat) (tasks : List (Task R V)) : Prop where
  apart : ∀ t ∈ tasks, t.lists.Apart
  sound : ∀ t ∈ tasks, t.Sound
  small : ∀ (i : Nat) (t : Task R V), tasks[i]? = some t → first + i < 10 ^ 10
  order : ∀ (i j : Nat) (t u : Task R V), i < j → tasks[i]? = some t → tasks[j]? = some u →
    u.started = true → t.released = true

/-- The empty log. -/
theorem inv_init : Inv (System.init : System R V) where
  apart t ht := absurd ht (not_mem_nil)
  sound t ht := absurd ht (not_mem_nil)
  small i t ht := absurd ht (by simp [System.init])
  order i j t u _ ht := absurd ht (by simp [System.init])
  present idx l h := absurd h (by simp [System.init])
  absent i t ht := absurd ht (by simp [System.init])
  older k idx v h := absurd h (not_lt_zero _)
  graph k _ := rfl
  progress i t n ht := absurd ht (by simp [System.init])
  manifest m h := absurd h (by simp [System.init])
  snapshot := trivial

/-! ## What the invariant says about chunks and the graph -/

namespace Inv

/-- A landed chunk replays as its commit wrote. -/
theorem last_replayedAt (h : Inv s) {i : Nat} (ht : s.tasks[i]? = some t) {l : Lists R V}
    (hl : s.chunks (s.first + i) = some l) (k : R) :
    last k (s.replayedAt (s.first + i)) = last k t.writes := by
  obtain ⟨-, hown⟩ := h.present _ l hl
  obtain ⟨u, hu, hland, hlists⟩ := hown (Nat.le_add_right _ _)
  rw [Nat.add_sub_cancel_left, ht, some.injEq] at hu
  subst hu
  rw [replayedAt_of_some hl, Task.writes_of_landed hland, ← hlists]
  exact (h.apart t (mem_of_getElem? ht)).last_replayed k

/-- A chunk above one that is in the store is in the store. -/
theorem stored (h : Inv s) {i idx : Nat} (ht : s.tasks[i]? = some t) (hland : t.landed = true)
    (hidx : idx < s.first + i) {l : Lists R V} (hl : s.chunks idx = some l) :
    ∃ l', s.chunks (s.first + i) = some l' := by
  cases hc : s.chunks (s.first + i) with
  | some l' => exact ⟨l', rfl⟩
  | none =>
    have hnone := (h.absent i t ht hland hc).2 idx hidx
    rw [hl] at hnone
    simp at hnone

/-- **The newest chunk in the store has the expected value.** -/
theorem newest_chunk (h : Inv s) {idx : Nat} (hv : last k (s.replayedAt idx) = some v)
    (hlater : ∀ j, idx < j → last k (s.replayedAt j) = none) : s.expected k = v := by
  obtain ⟨l, hl⟩ : ∃ l, s.chunks idx = some l := by
    cases hc : s.chunks idx with
    | some l => exact ⟨l, rfl⟩
    | none => exact absurd hv (by rw [replayedAt_of_none hc]; simp)
  -- a later commit with a chunk has it in the store still
  have huntouched : ∀ (j : Nat) (u : Task R V), idx < s.first + j → s.tasks[j]? = some u →
      last k u.writes = none := by
    intro j u hj hu
    by_cases hk : last k u.writes = none
    · exact hk
    · obtain ⟨l', hl'⟩ := h.stored hu (Task.landed_of_touched hk) hj hl
      rw [← h.last_replayedAt hu hl' k]
      exact hlater _ hj
  by_cases hfirst : s.first ≤ idx
  · obtain ⟨t, ht, hland, -⟩ := (h.present idx l hl).2 hfirst
    have hsum : s.first + (idx - s.first) = idx := by omega
    have hwrites := h.last_replayedAt ht (by rw [hsum]; exact hl) k
    rw [hsum, hv] at hwrites
    have hnewest : Newest s k (idx - s.first) t := by
      refine ⟨ht, by rw [← hwrites]; simp, fun j u hj hu => huntouched j u (by omega) hu⟩
    exact hnewest.expected hwrites.symm
  · rw [expected_of_untouched]
    · exact h.older k idx v (by omega) hv fun j hj _ => hlater j hj
    · intro t ht
      obtain ⟨j, hj, htj⟩ := getElem_of_mem ht
      exact huntouched j t (by omega) (by rw [getElem?_eq_getElem hj, htj])

/-- **The graph covers the chunks below the applied prefix.** -/
theorem graph_covers (h : Inv s) : Covers s s.appliedPrefix s.graph := by
  intro k hk
  apply h.graph k
  intro i t hnew
  have hland := Task.landed_of_touched hnew.2.1
  have hsound := h.sound t (mem_of_getElem? hnew.1)
  have hlt : s.first + i < s.appliedPrefix := by
    cases hc : s.chunks (s.first + i) with
    | none => exact (h.absent i t hnew.1 hland hc).1
    | some l =>
      apply Nat.lt_of_not_le
      intro hle
      exact hnew.2.1 ((h.last_replayedAt hnew.1 hc k).symm.trans (hk _ hle))
  -- an applied number with a chunk has been acknowledged
  have happ := applied_of_lt hnew.1 hlt
  cases hstage : t.stage with
  | acked => simp [Task.settled, hstage]
  | lost =>
    rw [Task.Sound, hstage] at hsound
    rw [hland] at hsound
    simp at hsound
  | _ => simp [Task.applied, hstage] at happ

end Inv

/-! ## A commit moves on -/

section

variable {i : Nat} {t t' : Task R V} {g : R → Option V}

/-- The state after a step of commit `i`. -/
def System.moved (s : System R V) (i : Nat) (t' : Task R V) (g : R → Option V) : System R V :=
  { s with
    tasks := s.tasks.set i t'
    graph := g }

/-- What a move of a commit leads to. -/
structure Moves (turn : Bool) (t t' : Task R V) : Prop where
  sound : t'.Sound
  applied : t.applied = true → t'.applied = true
  released : t.released = true → t'.released = true
  started : t'.started = true → t.started = true ∨ turn = true
  settled : t'.settled = true → t.settled = true ∨ t.stage = .promoting t.lists.promoted.length
  fresh : ∀ n, t'.stage = .promoting n → n = 0

omit [DecidableEq R] in
/-- What a move of a task is. -/
theorem moves_of_move {turn : Bool} {m : Move} {stage : Stage} (hs : t.Sound)
    (h : t.move turn m = some stage) : Moves turn t { t with stage } := by
  obtain ⟨lists, before, landed⟩ := t
  cases m with
  | appended | appendFails | begin | finish | ack =>
    simp only [Task.move, ite_none_right_eq_some, some.injEq] at h
    obtain ⟨hfrom, rfl⟩ := h
    constructor <;>
      simp_all [Task.Sound, Task.applied, Task.released, Task.started, Task.settled]
  | retry =>
    cases before with
    | promoting done =>
      obtain rfl : Stage.promoting 0 = stage := by simpa [Task.move] using h
      constructor <;>
        simp_all [Task.Sound, Task.applied, Task.released, Task.started, Task.settled]
    | _ => simp [Task.move] at h
  | drop =>
    simp only [Task.move, ite_none_left_eq_some, some.injEq] at h
    obtain ⟨hfrom, rfl⟩ := h
    cases before <;> simp [Task.released] at hfrom <;> constructor <;>
      simp [Task.Sound, Task.applied, Task.released, Task.started, Task.settled]

section

variable (ht : s.tasks[i]? = some t)
include ht

/-- A move that keeps the writes keeps what is expected. -/
theorem expected_moved (hw : last k t'.writes = last k t.writes) :
    (s.moved i t' g).expected k = s.expected k := by
  obtain ⟨front, back, htasks, hset⟩ := set_split ht
  show apply ((s.tasks.set i t').flatMap Task.writes) s.before k =
    apply (s.tasks.flatMap Task.writes) s.before k
  rw [hset, htasks]
  simp only [flatMap_append, flatMap_cons, apply_eq, last_append, hw]

/-- It keeps the newest chunk. -/
theorem Newest.moved (hw : last k t'.writes = last k t.writes) {j : Nat} {u : Task R V} (h : Newest s k j u) :
    Newest (s.moved i t' g) k j (if j = i then t' else u) := by
  obtain ⟨hu, hk, hlater⟩ := h
  refine ⟨?_, ?_, fun m w hm hw' => ?_⟩
  · show (s.tasks.set i t')[j]? = _
    rw [getElem?_set_of ht]
    by_cases hj : j = i
    · rw [if_pos hj, if_pos hj]
    · rw [if_neg hj, if_neg hj, hu]
  · by_cases hj : j = i
    · subst hj
      rw [ht, some.injEq] at hu
      rwa [if_pos rfl, hw, hu]
    · rw [if_neg hj]
      exact hk
  · rcases set_cases ht hw' with ⟨rfl, rfl⟩ | ⟨-, hold⟩
    · rw [hw]
      exact hlater m t hm ht
    · exact hlater m w hm hold

omit [DecidableEq R] in
/-- The applied prefix only grows. -/
theorem prefix_moved (happ : t.applied = true → t'.applied = true) :
    s.appliedPrefix ≤ (s.moved i t' g).appliedPrefix := by
  apply Nat.add_le_add_left
  apply takeWhile_length_le
  intro j u hu hp
  rw [show (s.moved i t' g).tasks = s.tasks.set i t' from rfl, getElem?_set_of ht]
  by_cases hj : j = i
  · subst hj
    rw [ht, some.injEq] at hu
    exact ⟨t', if_pos rfl, happ (hu ▸ hp)⟩
  · exact ⟨u, by rw [if_neg hj, hu], hp⟩

/-- It keeps what an image covers. -/
theorem Covers.moved {upto : Nat} (h : Covers s upto image) (hw : t'.writes = t.writes) :
    Covers (s.moved i t' g) upto image := by
  intro k hk
  rw [expected_moved ht (by rw [hw])]
  exact h k hk

/-- What the invariant says about the commits alone, kept by a step of one. -/
theorem Inv.setTask (h : Inv s) (hlists : t'.lists = t.lists) (hsound : t'.Sound)
    (hrel : t.released = true → t'.released = true)
    (hstart : t'.started = true → ∀ (j : Nat) (u : Task R V), j < i → s.tasks[j]? = some u →
      u.released = true) : InTurn s.first (s.tasks.set i t') where
  apart := by
    intro u hu
    rcases mem_or_eq_of_mem_set hu with hu | rfl
    · exact h.apart u hu
    · rw [hlists]
      exact h.apart t (mem_of_getElem? ht)
  sound := by
    intro u hu
    rcases mem_or_eq_of_mem_set hu with hu | rfl
    · exact h.sound u hu
    · exact hsound
  small := by
    intro j u hu
    rcases set_cases ht hu with ⟨rfl, -⟩ | ⟨-, hu⟩
    · exact h.small j t ht
    · exact h.small j u hu
  order := by
    intro j m u w hjm hu hw' hs
    rcases set_cases ht hw' with ⟨rfl, rfl⟩ | ⟨-, hm⟩
    · rcases set_cases ht hu with ⟨rfl, -⟩ | ⟨-, hu⟩
      · omega
      · exact hstart hs j u hjm hu
    · rcases set_cases ht hu with ⟨rfl, rfl⟩ | ⟨-, hu⟩
      · exact hrel (h.order j m t w hjm ht hm hs)
      · exact h.order j m u w hjm hu hm hs

/-- **A step of one commit** that leaves the log alone. -/
theorem Inv.moved (h : Inv s) (hlists : t'.lists = t.lists) (hland : t'.landed = t.landed)
    (hsound : t'.Sound) (happ : t.applied = true → t'.applied = true)
    (hrel : t.released = true → t'.released = true)
    (hstart : t'.started = true → ∀ (j : Nat) (u : Task R V), j < i → s.tasks[j]? = some u →
      u.released = true)
    (hgraph : ∀ k, (∀ j u, Newest s k j u → (if j = i then t' else u).settled = true) →
      g k = s.expected k)
    (hprogress : ∀ (j : Nat) (u : Task R V) n, (s.tasks.set i t')[j]? = some u →
      u.stage = .promoting n → ∀ k v, last k (u.lists.promoted.take n) = some v → g k = v) :
    Inv (s.moved i t' g) := by
  have hw : t'.writes = t.writes := by rw [Task.writes, Task.writes, hlists, hland]
  have hmono := prefix_moved (g := g) ht happ
  exact { h.setTask ht hlists hsound hrel hstart with
    present := by
      intro idx l hl
      refine ⟨(h.present idx l hl).1, fun hfirst => ?_⟩
      obtain ⟨u, hu, hul, hull⟩ := (h.present idx l hl).2 hfirst
      by_cases hj : idx - s.first = i
      · rw [hj, ht, some.injEq] at hu
        subst hu
        refine ⟨t', ?_, by rw [hland, hul], by rw [hlists, hull]⟩
        exact (getElem?_set_of ht t' _).trans (if_pos hj)
      · exact ⟨u, (set_other hj t').trans hu, hul, hull⟩
    absent := by
      intro j u hu hul hnone
      have hold : s.first + j < s.appliedPrefix ∧ ∀ idx < s.first + j, s.chunks idx = none := by
        rcases set_cases ht hu with ⟨rfl, rfl⟩ | ⟨-, hu⟩
        · exact h.absent j t ht (hland ▸ hul) hnone
        · exact h.absent j u hu hul hnone
      exact ⟨lt_of_lt_of_le hold.1 hmono, hold.2⟩
    older := h.older
    graph := by
      intro k hk
      rw [expected_moved ht (by rw [hw])]
      exact hgraph k fun j u hnew => hk j _ (hnew.moved ht (by rw [hw]))
    progress := hprogress
    manifest := by
      intro m hm
      obtain ⟨hupto, hcov⟩ := h.manifest m hm
      exact ⟨le_trans hupto hmono, hcov.moved ht hw⟩
    snapshot := h.snapshot.next rfl rfl hmono (fun _ _ _ hc => hc.moved ht hw) fun _ _ hc => hc }

/-- A task moves on. -/
theorem Inv.move (h : Inv s) (hm : Moves ((s.tasks.take i).all Task.released) t t')
    (hlists : t'.lists = t.lists) (hland : t'.landed = t.landed) : Inv (s.moved i t' s.graph) := by
  refine h.moved ht hlists hland hm.sound hm.applied hm.released ?_ ?_ ?_
  · intro hs j u hj hu
    rcases hm.started hs with hold | hturn
    · exact h.order j i u t hj hu ht hold
    · refine all_eq_true.1 hturn u ?_
      apply mem_of_getElem?
      rw [getElem?_take, if_pos hj, hu]
  · intro k hk
    by_cases hfinish : ∃ v, Newest s k i t ∧ last k t.writes = some v ∧
        t.stage = .promoting t.lists.promoted.length
    · -- the promote of the newest chunk is complete
      obtain ⟨v, hnew, hv, hstage⟩ := hfinish
      rw [hnew.expected hv]
      apply h.progress i t _ ht hstage k v
      rw [take_length, ← Task.writes_of_landed (Task.landed_of_touched hnew.2.1)]
      exact hv
    apply h.graph k
    intro j u hnew
    have hset := hk j u hnew
    by_cases hj : j = i
    · subst hj
      obtain rfl : t = u := some.inj (ht.symm.trans hnew.1)
      rw [if_pos rfl] at hset
      rcases hm.settled hset with hold | hstage
      · exact hold
      · obtain ⟨v, hv⟩ := ne_none_iff_exists'.1 hnew.2.1
        exact absurd ⟨v, hnew, hv, hstage⟩ hfinish
    · rwa [if_neg hj] at hset
  · intro j u n hu hstage k v hv
    rcases set_cases ht hu with ⟨rfl, rfl⟩ | ⟨-, hu⟩
    · rw [hm.fresh n hstage] at hv
      simp at hv
    · exact h.progress j u n hu hstage k v hv

/-- A vector is promoted to the graph. -/
theorem Inv.promote (h : Inv s) {done : Nat} (hstage : t.stage = .promoting done)
    {w : Write R (Option V)} (hw : t.lists.promoted[done]? = some w) :
    Inv (s.moved i { t with stage := .promoting (done + 1) }
      (update s.graph w.key w.value)) := by
  have hstarted : t.started = true := by simp [Task.started, hstage]
  have hunreleased : t.released = false := by simp [Task.released, hstage]
  have hland : t.landed = true := by
    have hsound := h.sound t (mem_of_getElem? ht)
    rwa [Task.Sound, hstage] at hsound
  -- while this commit has the turn, no commit behind it has begun
  have hbehind : ∀ (j : Nat) (u : Task R V), i < j → s.tasks[j]? = some u → u.started = false := by
    intro j u hj hu
    cases hs : u.started with
    | false => rfl
    | true => exact absurd (h.order i j t u hj ht hu hs) (by rw [hunreleased]; simp)
  have htouched : last w.key t.writes ≠ none := by
    rw [Task.writes_of_landed hland]
    intro hnone
    exact last_eq_none_iff.1 hnone w (mem_of_getElem? hw) rfl
  refine h.moved ht rfl rfl hland ?_ ?_ ?_ ?_ ?_
  · simp [Task.applied, hstage]
  · rw [hunreleased]
    simp
  · exact fun _ j u hj hu => h.order j i u t hj hu ht hstarted
  · intro k hk
    have hother : ∀ j u, Newest s k j u → j ≠ i ∧ u.settled = true := by
      intro j u hnew
      have hset := hk j u hnew
      by_cases hj : j = i
      · rw [if_pos hj] at hset
        simp [Task.settled] at hset
      · rw [if_neg hj] at hset
        exact ⟨hj, hset⟩
    by_cases hkey : k = w.key
    · -- the newest chunk of the record is this one or a later one, and not promoted
      subst hkey
      rcases newest_or s w.key with ⟨j, u, hnew⟩ | hnone
      · obtain ⟨hj, hset⟩ := hother j u hnew
        have hle := hnew.le ht htouched
        have hidle := hbehind j u (by omega) hnew.1
        cases hu : u.stage <;> simp [Task.started, Task.settled, hu] at hidle hset
      · exact absurd (hnone t (mem_of_getElem? ht)) htouched
    · rw [update_of_ne hkey]
      exact h.graph k fun j u hnew => (hother j u hnew).2
  · intro j u n hu hpromoting k v hv
    rcases set_cases ht hu with ⟨rfl, rfl⟩ | ⟨hj, hu⟩
    · obtain rfl : done + 1 = n := by simpa using hpromoting
      have htake : t.lists.promoted.take (done + 1) = t.lists.promoted.take done ++ [w] := by
        rw [take_add_one, hw]
        rfl
      rw [htake, last_append] at hv
      by_cases hkey : w.key = k
      · subst hkey
        rw [last_cons_self, last_nil, getD_none, some_or, some.injEq] at hv
        rw [update_self, hv]
      · rw [last_cons_of_ne hkey] at hv
        rw [update_of_ne (Ne.symm hkey)]
        exact h.progress j t done ht hstage k v hv
    · -- two promotes at a time would both have the turn
      have hus : u.started = true := by simp [Task.started, hpromoting]
      have hur : u.released = false := by simp [Task.released, hpromoting]
      rcases lt_or_gt_of_ne hj with hlt | hgt
      · exact absurd (h.order j i u t hlt hu ht hstarted) (by rw [hur]; simp)
      · exact absurd (hbehind j u hgt hu) (by rw [hus]; simp)

end

end

/-! ## A chunk is reserved, and reaches the store -/

section

variable {lists : Lists R V}

/-- The state after a commit has reserved a chunk number. -/
def System.reserved (s : System R V) (lists : Lists R V) : System R V :=
  { s with tasks := s.tasks ++ [⟨lists, .appending, false⟩] }

/-- A reserved index changes nothing that is expected. -/
theorem expected_reserved : (s.reserved lists).expected = s.expected := by
  show apply ((s.tasks ++ [(⟨lists, .appending, false⟩ : Task R V)]).flatMap Task.writes) s.before =
    apply (s.tasks.flatMap Task.writes) s.before
  rw [flatMap_append, flatMap_cons, flatMap_nil,
    Task.writes_of_not_landed rfl, append_nil, append_nil]

/-- Nor the newest chunks. -/
theorem Newest.reserved {j : Nat} {u : Task R V} (h : Newest s k j u) :
    Newest (s.reserved lists) k j u := by
  refine ⟨getElem?_concat_of h.1 _, h.2.1, fun m w hm hw => ?_⟩
  rcases concat_cases hw with hold | ⟨-, rfl⟩
  · exact h.2.2 m w hm hold
  · rw [Task.writes_of_not_landed rfl, last_nil]

omit [DecidableEq R] in
/-- Nor the applied prefix. -/
theorem prefix_reserved : s.appliedPrefix ≤ (s.reserved lists).appliedPrefix := by
  apply Nat.add_le_add_left
  apply takeWhile_length_le
  intro j u hu hp
  exact ⟨u, getElem?_concat_of hu _, hp⟩

/-- Nor what an image covers. -/
theorem Covers.reserved {upto : Nat} (h : Covers s upto image) :
    Covers (s.reserved lists) upto image := by
  intro k hk
  rw [expected_reserved]
  exact h k hk

/-- An index is reserved. -/
theorem Inv.reserve (h : Inv s) (hapart : lists.Apart) (hnext : s.next < 10 ^ 10) :
    Inv (s.reserved lists) := by
  have hmono := @prefix_reserved R V s lists
  exact {
    apart := by
      intro t ht
      rcases mem_concat_iff.1 ht with ht | rfl
      · exact h.apart t ht
      · exact hapart
    sound := by
      intro t ht
      rcases mem_concat_iff.1 ht with ht | rfl
      · exact h.sound t ht
      · trivial
    small := by
      intro i t ht
      rcases concat_cases ht with ht | ⟨rfl, -⟩
      · exact h.small i t ht
      · exact hnext
    order := by
      intro i j t u hij ht hu hs
      rcases concat_cases hu with hu | ⟨-, rfl⟩
      · rcases concat_cases ht with ht | ⟨rfl, -⟩
        · exact h.order i j t u hij ht hu hs
        · have := (List.getElem?_eq_some_iff.1 hu).1
          omega
      · simp [Task.started] at hs
    present := by
      intro idx l hl
      refine ⟨(h.present idx l hl).1, fun hfirst => ?_⟩
      obtain ⟨t, ht, hland⟩ := (h.present idx l hl).2 hfirst
      exact ⟨t, getElem?_concat_of ht _, hland⟩
    absent := by
      intro i t ht hland hnone
      rcases concat_cases ht with ht | ⟨-, rfl⟩
      · have hold := h.absent i t ht hland hnone
        exact ⟨lt_of_lt_of_le hold.1 hmono, hold.2⟩
      · simp at hland
    older := h.older
    graph := by
      intro k hk
      rw [expected_reserved]
      exact h.graph k fun i t hnew => hk i t hnew.reserved
    progress := by
      intro i t n ht hstage
      rcases concat_cases ht with ht | ⟨-, rfl⟩
      · exact h.progress i t n ht hstage
      · simp at hstage
    manifest := by
      intro m hm
      obtain ⟨hupto, hcov⟩ := h.manifest m hm
      exact ⟨le_trans hupto hmono, hcov.reserved⟩
    snapshot := h.snapshot.next rfl rfl hmono (fun _ _ _ hc => hc.reserved) fun _ _ hc => hc }

end

section

variable {i : Nat} {t : Task R V}

/-- The state after the chunk of commit `i` has reached the store. -/
def System.landed (s : System R V) (i : Nat) (t : Task R V) : System R V :=
  { s with
    tasks := s.tasks.set i { t with landed := true }
    chunks := update s.chunks (s.first + i) (some t.lists) }

section

omit [DecidableEq R]

/-- A landing keeps the applied prefix. -/
theorem prefix_landed (ht : s.tasks[i]? = some t) :
    s.appliedPrefix ≤ (s.landed i t).appliedPrefix := by
  show _ ≤ (s.moved i { t with landed := true } s.graph).appliedPrefix
  exact prefix_moved ht id

/-- The landed chunk is replayed as it was staged. -/
theorem replayedAt_landed : (s.landed i t).replayedAt (s.first + i) = t.lists.replayed :=
  replayedAt_of_some (update_self ..)

/-- The other chunks stay. -/
theorem chunks_landed_of_ne {idx : Nat} (h : idx ≠ s.first + i) :
    (s.landed i t).chunks idx = s.chunks idx :=
  update_of_ne h _ _

/-- And so does what they replay. -/
theorem replayedAt_landed_of_ne {idx : Nat} (h : idx ≠ s.first + i) :
    (s.landed i t).replayedAt idx = s.replayedAt idx :=
  replayedAt_congr (chunks_landed_of_ne h)

end

variable (hland : t.landed = false)
include hland

/-- A chunk with no write of the record changes nothing for it. -/
theorem last_writes_landed (hk : last k t.lists.promoted = none) :
    last k ({ t with landed := true } : Task R V).writes = last k t.writes := by
  rw [Task.writes_of_not_landed hland, last_nil]
  exact hk

variable (ht : s.tasks[i]? = some t)
include ht

/-- Other keys keep their expected values. -/
theorem expected_landed (hk : last k t.lists.promoted = none) :
    (s.landed i t).expected k = s.expected k := by
  show (s.moved i { t with landed := true } s.graph).expected k = _
  exact expected_moved ht (last_writes_landed hland hk)

/-- A chunk has not landed before its append. -/
theorem Inv.free (h : Inv s) : s.chunks (s.first + i) = none := by
  cases hc : s.chunks (s.first + i) with
  | none => rfl
  | some l =>
    obtain ⟨u, hu, hul, -⟩ := (h.present _ l hc).2 (Nat.le_add_right _ _)
    rw [Nat.add_sub_cancel_left, ht, some.injEq] at hu
    rw [← hu, hland] at hul
    simp at hul

/-- A chunk that lands behind the boundary is going to be replayed. -/
theorem Covers.landed {upto : Nat} (hc : Covers s upto image) (h : Inv s)
    (hupto : upto ≤ s.first + i) : Covers (s.landed i t) upto image := by
  intro k hk
  have hnone : last k t.lists.promoted = none := by
    rw [← (h.apart t (mem_of_getElem? ht)).last_replayed k, ← replayedAt_landed]
    exact hk _ hupto
  rw [expected_landed hland ht hnone]
  apply hc k
  intro idx hidx
  by_cases heq : idx = s.first + i
  · rw [heq, replayedAt_of_none (h.free hland ht), last_nil]
  · rw [← replayedAt_landed_of_ne heq]
    exact hk idx hidx

/-- A chunk lands. -/
theorem Inv.land (h : Inv s) (hstage : t.stage = .appending) : Inv (s.landed i t) := by
  have hmono := prefix_landed ht
  have hle : s.appliedPrefix ≤ s.first + i :=
    prefix_le_of_not_applied ht (by simp [Task.applied, hstage])
  have hturn : InTurn s.first (s.tasks.set i { t with landed := true }) :=
    h.setTask ht rfl (by simp [Task.Sound, hstage]) id (by simp [Task.started, hstage])
  exact { hturn with
    present := by
      intro idx l hl
      by_cases heq : idx = s.first + i
      · subst heq
        obtain rfl : t.lists = l := by
          rw [show (s.landed i t).chunks (s.first + i) = some t.lists from
            update_self ..] at hl
          exact some.inj hl
        refine ⟨h.small i t ht, fun _ => ⟨{ t with landed := true }, ?_, rfl, rfl⟩⟩
        show (s.tasks.set i _)[s.first + i - s.first]? = _
        rw [Nat.add_sub_cancel_left, set_self ht]
      · rw [chunks_landed_of_ne heq] at hl
        refine ⟨(h.present idx l hl).1, fun hfirst => ?_⟩
        obtain ⟨u, hu, hrest⟩ := (h.present idx l hl).2 hfirst
        have hne : idx - s.first ≠ i := by
          have : s.first ≤ idx := hfirst
          omega
        exact ⟨u, (set_other hne _).trans hu, hrest⟩
    absent := by
      intro j u hu hul hnone
      rcases set_cases ht hu with ⟨rfl, -⟩ | ⟨hj, hu⟩
      · rw [show (s.landed j t).chunks ((s.landed j t).first + j) = some t.lists from
          update_self ..] at hnone
        simp at hnone
      have hne : s.first + j ≠ s.first + i := by omega
      obtain ⟨hlt, hgone⟩ := h.absent j u hu hul ((chunks_landed_of_ne hne).symm.trans hnone)
      refine ⟨lt_of_lt_of_le hlt hmono, fun idx hidx => ?_⟩
      have hidx : idx < s.first + j := hidx
      rw [chunks_landed_of_ne (by omega)]
      exact hgone idx hidx
    older := by
      intro k idx v hidx hv hlater
      have hidx : idx < s.first := hidx
      rw [replayedAt_landed_of_ne (by omega)] at hv
      refine h.older k idx v hidx hv fun j hj hjf => ?_
      rw [← replayedAt_landed_of_ne (by omega)]
      exact hlater j hj hjf
    graph := by
      intro k hk
      by_cases hnone : last k t.lists.promoted = none
      · rw [expected_landed hland ht hnone]
        refine h.graph k fun j u hnew => ?_
        have hset := hk j _ (hnew.moved (g := s.graph) ht (last_writes_landed hland hnone))
        by_cases hj : j = i
        · subst hj
          rw [if_pos rfl] at hset
          rwa [some.inj (hnew.1.symm.trans ht)]
        · rwa [if_neg hj] at hset
      · -- the record's newest chunk is not promoted before this one
        have hti : (s.landed i t).tasks[i]? = some { t with landed := true } :=
          set_self ht _
        rcases newest_or (s.landed i t) k with ⟨j, u, hnew⟩ | huntouched
        · have hset := hk j u hnew
          have hij := hnew.le hti hnone
          rcases set_cases ht hnew.1 with ⟨-, rfl⟩ | ⟨hj, hu⟩
          · simp [Task.settled, hstage] at hset
          · have hstarted : u.started = true := by
              cases hus : u.stage <;> simp [Task.settled, Task.started, hus] at hset ⊢
            have hrel := h.order i j t u (by omega) ht hu hstarted
            simp [Task.released, hstage] at hrel
        · exact absurd (huntouched _ (mem_of_getElem? hti)) hnone
    progress := by
      intro j u n hu hpromoting k v hv
      rcases set_cases ht hu with ⟨-, rfl⟩ | ⟨-, hu⟩
      · simp [hstage] at hpromoting
      · exact h.progress j u n hu hpromoting k v hv
    manifest := by
      intro m hm
      obtain ⟨hupto, hcov⟩ := h.manifest m hm
      exact ⟨le_trans hupto hmono, hcov.landed hland ht h (le_trans hupto hle)⟩
    snapshot := by
      refine h.snapshot.next rfl rfl hmono (fun upto image hupto hc => ?_) ?_
      · exact hc.landed hland ht h (le_trans hupto hle)
      · intro idx hidx hnone
        rw [chunks_landed_of_ne (by omega)]
        exact hnone }

end

end ShamirDb.VectorRestart
