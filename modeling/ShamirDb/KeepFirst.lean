/-
# First occurrences

A list without the elements that equal an earlier one that was kept.  The equality is any
test; it need not be transitive.
-/
import Mathlib.Tactic.Common

namespace KeepFirst

open List

variable {α : Type*} (same : α → α → Bool)

/-- One turn: an element is appended unless a kept one equals it. -/
def keep (kept : List α) (x : α) : List α := if kept.any (same · x) then kept else kept ++ [x]

def keepFirst (xs : List α) : List α := xs.foldl (keep same) []

variable {same}

/-- No kept element equals an earlier one. -/
theorem pairwise_foldl (xs kept : List α) (h : kept.Pairwise fun a b => same a b = false) :
    (xs.foldl (keep same) kept).Pairwise fun a b => same a b = false := by
  induction xs generalizing kept with
  | nil => exact h
  | cons x xs ih =>
    apply ih
    unfold keep
    split
    · exact h
    rename_i hnew
    rw [pairwise_append]
    refine ⟨h, pairwise_singleton _ _, ?_⟩
    intro a ha b hb
    rw [mem_singleton.1 hb]
    by_contra hab
    exact hnew (any_eq_true.2 ⟨a, ha, by simpa using hab⟩)

/-- No two that are kept are the same. -/
theorem pairwise_keepFirst (xs : List α) :
    (keepFirst same xs).Pairwise fun a b => same a b = false :=
  pairwise_foldl xs [] List.Pairwise.nil

theorem foldl_eq_append (xs kept : List α) (h : (kept ++ xs).Pairwise fun a b => same a b = false) :
    xs.foldl (keep same) kept = kept ++ xs := by
  induction xs generalizing kept with
  | nil => rw [foldl_nil, append_nil]
  | cons x xs ih =>
    have hnew : ¬ kept.any (same · x) = true := by
      rw [any_eq_true]
      rintro ⟨a, ha, hax⟩
      have hno := (pairwise_append.1 h).2.2 a ha x (by simp)
      exact absurd (hax.symm.trans hno) (by simp)
    have happ : kept ++ x :: xs = (kept ++ [x]) ++ xs := by simp
    rw [foldl_cons, keep, if_neg hnew, happ]
    apply ih
    rwa [← happ]

/-- Different elements are all kept. -/
theorem keepFirst_eq_self {xs : List α} (h : xs.Pairwise fun a b => same a b = false) :
    keepFirst same xs = xs := by
  rw [keepFirst, foldl_eq_append xs [] (by rwa [nil_append]), nil_append]

end KeepFirst
