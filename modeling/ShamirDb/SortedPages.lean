/-
# Pages of a sorted list

A page cut from a sorted list, up to the order of equal elements: what is before it, the page
and what is after it are the whole list, and nothing stands before an element it belongs after.
The comparison need not be an order; all that is asked is that no pair is inverted.

A list that serves pages up to some limit serves the right ones exactly if it is long enough
and its first part is never inverted, neither inside nor with what is not in it.
-/
import Mathlib.Data.List.Perm.Basic
import Mathlib.Data.List.Nodup

namespace SortedPages

open List

variable {α : Type*}

/-- `page` is a page of the sorted list of `rows`; `after a b` says that `a` belongs after
`b`. -/
def IsPage (after : α → α → Prop) (rows : List α) (skip take : Nat) (page : List α) : Prop :=
  ∃ front back, (front ++ (page ++ back)).Perm rows ∧ front.length = min skip rows.length ∧
    page.length = min take (rows.length - skip) ∧ page.Pairwise (fun a b => ¬ after a b) ∧
    (∀ a ∈ front, ∀ b ∈ page ++ back, ¬ after a b) ∧ ∀ a ∈ page, ∀ b ∈ back, ¬ after a b

/-- The first part of a list is what a sort puts first. -/
structure Leads (after : α → α → Prop) (rows : List α) (limit : Nat) (listing : List α) :
    Prop where
  long : min limit rows.length ≤ listing.length
  ordered : (listing.take limit).Pairwise fun a b => ¬ after a b
  first : ∀ a ∈ listing.take limit, ∀ b ∈ rows, b ∉ listing.take limit → ¬ after a b

variable {after : α → α → Prop} {rows listing : List α} {limit skip take : Nat}

/-- Before, in and behind a window. -/
theorem window_split (xs : List α) (skip take : Nat) :
    xs.take skip ++ ((xs.drop skip).take take ++ xs.drop (skip + take)) = xs := by
  rw [← drop_drop, take_append_drop, take_append_drop]

theorem window_take (h : skip + take ≤ limit) :
    ((listing.take limit).drop skip).take take = (listing.drop skip).take take := by
  rw [drop_take, take_take]
  congr 1
  omega

/-- **Windows of a leading list are pages.** -/
theorem Leads.isPage (h : Leads after rows limit listing) (hrows : rows.Nodup)
    (hnodup : listing.Nodup) (hsub : ∀ a ∈ listing, a ∈ rows) (hwindow : skip + take ≤ limit) :
    IsPage after rows skip take ((listing.drop skip).take take) := by
  classical
  have hlen : listing.length ≤ rows.length := (subperm_of_subset hnodup hsub).length_le
  have hlong := h.long
  have hordered := h.ordered
  have hfirst := h.first
  rw [← window_take hwindow]
  -- the part of the listing that can be reached, and the rows outside of it
  have hreach : (listing.take limit).length = min limit rows.length := by
    rw [length_take]
    omega
  have hnodupF : (listing.take limit).Nodup := hnodup.sublist (take_sublist _ _)
  have hsubF : ∀ a ∈ listing.take limit, a ∈ rows := fun a ha => hsub a (mem_of_mem_take ha)
  generalize listing.take limit = reach at *
  have hsplit := window_split reach skip take
  let rest := rows.filter fun a => decide (a ∉ reach)
  have hrest : ∀ b, b ∈ rest ↔ b ∈ rows ∧ b ∉ reach := fun b => by simp [rest]
  have hperm : (reach ++ rest).Perm rows := by
    refine (perm_ext_iff_of_nodup ?_ hrows).2 fun a => ?_
    · refine nodup_append.2 ⟨hnodupF, hrows.filter _, ?_⟩
      rintro a ha b hb rfl
      exact ((hrest a).1 hb).2 ha
    rw [mem_append, hrest]
    constructor
    · rintro (ha | ⟨ha, -⟩)
      · exact hsubF a ha
      · exact ha
    · intro ha
      by_cases hmem : a ∈ reach
      · exact Or.inl hmem
      · exact Or.inr ⟨ha, hmem⟩
  have hpair := hordered
  rw [← hsplit, pairwise_append] at hpair
  obtain ⟨-, htail, hfront⟩ := hpair
  obtain ⟨hpage, -, hback⟩ := pairwise_append.1 htail
  have hpageMem : ∀ a ∈ (reach.drop skip).take take, a ∈ reach := fun a ha =>
    mem_of_mem_drop (mem_of_mem_take ha)
  refine ⟨reach.take skip, reach.drop (skip + take) ++ rest, ?_, ?_, ?_, hpage, ?_, ?_⟩
  · rw [← append_assoc ((reach.drop skip).take take), ← append_assoc, hsplit]
    exact hperm
  · rw [length_take]
    omega
  · rw [length_take, length_drop]
    omega
  · intro a ha b hb
    rw [← append_assoc, mem_append] at hb
    rcases hb with hb | hb
    · exact hfront a ha b hb
    · exact hfirst a (mem_of_mem_take ha) b ((hrest b).1 hb).1 ((hrest b).1 hb).2
  · intro a ha b hb
    rcases mem_append.1 hb with hb | hb
    · exact hback a ha b hb
    · exact hfirst a (hpageMem a ha) b ((hrest b).1 hb).1 ((hrest b).1 hb).2

theorem Leads.of_isPage (h : IsPage after rows 0 limit (listing.take limit)) :
    Leads after rows limit listing := by
  obtain ⟨front, back, hperm, hfront, hlen, hordered, -, hback⟩ := h
  have hnil : front = [] := eq_nil_of_length_eq_zero (by omega)
  subst hnil
  rw [nil_append] at hperm
  refine ⟨?_, hordered, fun a ha b hb hnot => ?_⟩
  · rw [length_take] at hlen
    omega
  · rcases mem_append.1 (hperm.mem_iff.2 hb) with hmem | hmem
    · exact absurd hmem hnot
    · exact hback a ha b hmem

/-- **All windows are pages exactly if the list leads.** -/
theorem forall_isPage_iff (hlimit : 0 < limit) (hrows : rows.Nodup)
    (hnodup : listing.Nodup) (hsub : ∀ a ∈ listing, a ∈ rows) :
    (∀ skip take, 0 < take → skip + take ≤ limit →
      IsPage after rows skip take ((listing.drop skip).take take)) ↔
      Leads after rows limit listing := by
  constructor
  · intro h
    exact .of_isPage (h 0 limit hlimit (by omega))
  · intro h skip take _ hwindow
    exact h.isPage hrows hnodup hsub hwindow

end SortedPages
