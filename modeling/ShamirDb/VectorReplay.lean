/-
# The replay restores what was promoted

The steps of the snapshot and the restart keep the invariant of the log.  The chunks in the
store are always the newest ones, so replaying them onto a dump gives the promoted map, from
the boundary of the dump or from any number below it.
-/
import ShamirDb.VectorLog

namespace ShamirDb.VectorRestart

open Machine KeyedWrites TaskList Function List Option

variable {R V : Type*} [DecidableEq R] {s : System R V} {k : R} {v : Option V} {upto idx lo : Nat}
  {l : Lists R V}

/-! ## The snapshot -/

/-- Removing the first chunk left in the store, below the boundary. -/
theorem Inv.prune (h : Inv s) {next : Nat} (hsnap : s.snapshot = .pruning upto next)
    (hnext : next < upto) :
    Inv { s with
      chunks := update s.chunks next none
      snapshot := .pruning upto (next + 1) } := by
  have hinv := h.snapshot
  rw [SnapshotInv, hsnap] at hinv
  obtain ⟨⟨hupto, -⟩, ⟨m, hm, rfl⟩, hgone⟩ := hinv
  have hchunks : ∀ idx l, update s.chunks next none idx = some l →
      idx ≠ next ∧ s.chunks idx = some l := by
    intro idx l hl
    by_cases heq : idx = next
    · rw [heq] at hl
      simp at hl
    · rw [update_of_ne heq] at hl
      exact ⟨heq, hl⟩
  have hreplayed : ∀ idx, idx ≠ next → ({ s with
        chunks := update s.chunks next none
        snapshot := .pruning m.upto (next + 1) } : System R V).replayedAt idx =
        s.replayedAt idx := by
    intro idx hidx
    exact replayedAt_congr (update_of_ne hidx _ _)
  have hremoved : ∀ idx, s.chunks idx = none → update s.chunks next none idx = none := by
    intro idx hnone
    by_cases heq : idx = next
    · rw [heq, update_self]
    · rw [update_of_ne heq, hnone]
  have hbelow : ∀ idx < next + 1, update s.chunks next none idx = none := by
    intro idx hidx
    by_cases heq : idx = next
    · rw [heq, update_self]
    · exact hremoved idx (hgone idx (by omega))
  exact { h with
    present := fun idx l hl => h.present idx l (hchunks idx l hl).2
    absent := by
      intro i t ht hland hnone
      have hnone : update s.chunks next none (s.first + i) = none := hnone
      by_cases heq : s.first + i = next
      · refine ⟨?_, fun idx hidx => hbelow idx ?_⟩
        · show s.first + i < s.appliedPrefix
          omega
        · have hidx : idx < s.first + i := hidx
          omega
      · rw [update_of_ne heq] at hnone
        obtain ⟨hlt, hall⟩ := h.absent i t ht hland hnone
        exact ⟨hlt, fun idx hidx => hremoved idx (hall idx hidx)⟩
    older := by
      intro k idx v hidx hv hlater
      -- what is left of the chunks is above the removed one
      have habove : next < idx := by
        apply Nat.lt_of_not_le
        intro hle
        rw [replayedAt_of_none (hbelow idx (by omega))] at hv
        simp at hv
      rw [hreplayed idx (by omega)] at hv
      refine h.older k idx v hidx hv fun j hj hjf => ?_
      rw [← hreplayed j (by omega)]
      exact hlater j hj hjf
    manifest := by
      intro m' hm'
      obtain rfl : m = m' := some.inj (hm.symm.trans hm')
      refine ⟨hupto, fun k hk => (h.manifest m hm).2 k fun idx hidx => ?_⟩
      rw [← hreplayed idx (by omega)]
      exact hk idx hidx
    snapshot := ⟨⟨hupto, hnext⟩, ⟨m, hm, rfl⟩, hbelow⟩ }

/-- A step of a snapshot. -/
theorem Inv.snapshotStep (h : Inv s) (e : Event R V) : Inv (snapshotStep s e) := by
  have hinv := h.snapshot
  unfold SnapshotInv at hinv
  cases e with
  | sample =>
    rw [VectorRestart.snapshotStep]
    split
    · exact { h with snapshot := ⟨le_rfl, h.graph_covers⟩ }
    · exact h
  | capture rid =>
    rw [VectorRestart.snapshotStep]
    split
    case h_1 hsnap =>
      rw [hsnap] at hinv
      refine { h with snapshot := ⟨hinv.1, fun k hk => ?_⟩ }
      by_cases heq : k = rid
      · subst heq
        rw [update_self]
        exact (h.graph_covers.mono hinv.1) k hk
      · rw [update_of_ne heq]
        exact hinv.2 k hk
    case h_2 => exact h
  | publish =>
    rw [VectorRestart.snapshotStep]
    split
    case h_1 image hsnap =>
      rw [hsnap] at hinv
      refine { h with manifest := ?_, snapshot := ⟨hinv.1, ?_⟩ }
      · intro m hm
        obtain rfl : ⟨image, 0⟩ = m := some.inj hm
        exact ⟨Nat.zero_le _, hinv.2.mono (Nat.zero_le _)⟩
      · intro m hm
        obtain rfl : ⟨image, 0⟩ = m := some.inj hm
        exact hinv.2
    case h_2 => exact h
  | flip =>
    rw [VectorRestart.snapshotStep]
    split
    case h_1 upto recovery m hsnap hman =>
      rw [hsnap] at hinv
      refine { h with manifest := ?_, snapshot := ?_ }
      · intro m' hm'
        obtain rfl : { m with upto } = m' := some.inj hm'
        exact ⟨hinv.1, hinv.2 m hman⟩
      · cases recovery with
        | true => trivial
        | false =>
          exact ⟨⟨hinv.1, Nat.zero_le _⟩, ⟨_, rfl, rfl⟩, fun idx hidx => absurd hidx (by omega)⟩
    case h_2 => exact h
  | prune =>
    rw [VectorRestart.snapshotStep]
    split
    case h_1 hsnap =>
      split
      case isTrue hlt => exact h.prune hsnap hlt
      case isFalse => exact { h with snapshot := trivial }
    case h_2 => exact h
  | abandon => exact { h with snapshot := trivial }
  | _ => exact h

/-! ## The restart -/

/-- Chunks are below the next index. -/
theorem Inv.lt_next (h : Inv s) (hl : s.chunks idx = some l) : idx < s.next := by
  rw [System.next]
  by_cases hfirst : s.first ≤ idx
  · obtain ⟨t, ht, -⟩ := (h.present idx l hl).2 hfirst
    have := (List.getElem?_eq_some_iff.1 ht).1
    omega
  · omega

omit [DecidableEq R] in
/-- The highest chunk is not below any. -/
theorem le_highestBelow {chunks : Nat → Option (Lists R V)} {n idx : Nat} {l : Lists R V}
    (hl : chunks idx = some l) (hlt : idx < n) : idx ≤ System.highestBelow chunks n := by
  induction n with
  | zero => omega
  | succ n ih =>
    rw [System.highestBelow]
    by_cases hn : (chunks n).isSome
    · rw [if_pos hn]
      omega
    rw [if_neg hn]
    have hne : idx ≠ n := by
      rintro rfl
      rw [hl] at hn
      exact hn rfl
    exact ih (by omega)

/-- With ten digits the chunks are scanned in the order of their numbers. -/
theorem Inv.scan_eq (h : Inv s) (lo : Nat) :
    s.scan lo = (range s.next).filter fun idx => (s.chunks idx).isSome && decide (lo ≤ idx) := by
  apply List.Pairwise.insertionSort_eq
  refine List.Pairwise.imp_of_mem ?_ ((pairwise_lt_range).filter _)
  intro i j _ hj hij
  obtain ⟨l, hl⟩ := isSome_iff_exists.1 (Bool.and_eq_true_iff.1 (mem_filter.1 hj).2).1
  exact PaddedKeys.textLe_key (Nat.le_of_lt hij) (h.present j l hl).1 (by decide)

/-- A scan from below meets every chunk. -/
theorem Inv.mem_scan (h : Inv s) (hl : s.chunks idx = some l) (hlo : lo ≤ idx) :
    idx ∈ s.scan lo := by
  rw [h.scan_eq, mem_filter, mem_range]
  exact ⟨h.lt_next hl, by simp [hl, hlo]⟩

/-- **The replay from any boundary the image covers** gives the expected map. -/
theorem Inv.replay_eq (h : Inv s) {image : R → Option V} (hcov : Covers s upto image)
    (hle : lo ≤ upto) : s.replay lo image = s.expected := by
  funext k
  rw [System.replay, apply_eq]
  cases hlast : last k ((s.scan lo).flatMap s.replayedAt) with
  | none =>
    apply hcov.mono hle k
    intro idx hidx
    cases hc : s.chunks idx with
    | none => rw [replayedAt_of_none hc, last_nil]
    | some l => exact last_flatMap_eq_none_iff.1 hlast idx (h.mem_scan hc hidx)
  | some v =>
    have hsorted : (s.scan lo).Pairwise (· < ·) := by
      rw [h.scan_eq]
      exact (pairwise_lt_range).filter _
    obtain ⟨idx, hmem, hv, hnewest⟩ := exists_newest_of_pairwise hsorted hlast
    have hlo : lo ≤ idx := by
      rw [h.scan_eq, mem_filter] at hmem
      exact of_decide_eq_true (Bool.and_eq_true_iff.1 hmem.2).2
    refine (h.newest_chunk hv fun j hj => ?_).symm
    cases hc : s.chunks j with
    | none => rw [replayedAt_of_none hc, last_nil]
    | some l =>
      by_cases hk : last k (s.replayedAt j) = none
      · exact hk
      · rcases hnewest j (h.mem_scan hc (by omega)) hk with heq | hlt <;> omega

/-- A restart from the manifest. -/
theorem Inv.restart (h : Inv s) (rows : R → Option V) {m : Manifest R V}
    (hm : s.manifest = some m) : Inv (step rows s .restart) := by
  have hrestored : s.restored rows = s.expected := by
    rw [System.restored, hm]
    exact h.replay_eq (h.manifest m hm).2 le_rfl
  have hseed : s.seed = max m.upto s.highest + 1 := by rw [System.seed, hm]
  have hbelow : ∀ idx l, s.chunks idx = some l → idx < s.seed := by
    intro idx l hl
    have := le_highestBelow hl (h.lt_next hl)
    rw [hseed, System.highest]
    omega
  exact {
    apart := fun t ht => absurd ht (not_mem_nil)
    sound := fun t ht => absurd ht (not_mem_nil)
    small := fun i t ht => absurd ht (by simp [step])
    order := fun i j t u _ ht => absurd ht (by simp [step])
    present := by
      intro idx l hl
      refine ⟨(h.present idx l hl).1, fun hfirst => ?_⟩
      have hfirst : s.seed ≤ idx := hfirst
      have := hbelow idx l hl
      omega
    absent := fun i t ht => absurd ht (by simp [step])
    older := by
      intro k idx v _ hv hlater
      refine h.newest_chunk hv fun j hj => ?_
      cases hc : s.chunks j with
      | none => rw [replayedAt_of_none hc, last_nil]
      | some l => exact hlater j hj (hbelow j l hc)
    graph := fun k _ => congrFun hrestored k
    progress := fun i t n ht => absurd ht (by simp [step])
    manifest := by
      intro m' hm'
      obtain rfl : m = m' := some.inj (hm.symm.trans hm')
      refine ⟨?_, (h.manifest m hm).2⟩
      show m.upto ≤ s.seed
      omega
    snapshot := trivial }

/-! ## Every run -/

/-- Every orderly step. -/
theorem Inv.step (h : Inv s) (rows : R → Option V) (e : Event R V) (he : Orderly s e) :
    Inv (step rows s e) := by
  cases e with
  | reserve lists =>
    rw [VectorRestart.step]
    split
    · exact h
    · exact h.reserve he.1 he.2
  | land i =>
    rw [VectorRestart.step]
    split
    case h_1 t ht =>
      split
      case isTrue hgo => exact h.land (by simpa using hgo.2) ht hgo.1
      case isFalse => exact h
    case h_2 => exact h
  | move i m =>
    rw [VectorRestart.step]
    split
    case h_1 t ht =>
      split
      case h_1 hm => exact h.move ht (moves_of_move (h.sound t (mem_of_getElem? ht)) hm) rfl rfl
      case h_2 => exact h
    case h_2 => exact h
  | promote i =>
    rw [VectorRestart.step]
    split
    case h_1 t ht =>
      split
      case h_1 hstage =>
        split
        case h_1 w hw => exact h.promote ht hstage hw
        case h_2 => exact h
      case h_2 => exact h
    case h_2 => exact h
  | restart =>
    obtain ⟨m, hm⟩ := isSome_iff_exists.1 he
    exact h.restart rows hm
  | _ =>
    simp only [VectorRestart.step]
    exact h.snapshotStep _

/-- Commit `i` goes all the way, with `n` writes to the graph. -/
def commit (i n : Nat) (lists : Lists Nat Nat) : List (Event Nat Nat) :=
  [.reserve lists, .land i, .move i .appended, .move i .begin] ++
    replicate n (.promote i) ++ [.move i .finish, .move i .ack]

end ShamirDb.VectorRestart
