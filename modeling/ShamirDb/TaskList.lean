/-
# A list of tasks with one of them changed

Concurrent components keep their calls in a list; a step looks one of them up and puts
another in its place.  `set_split` names the calls before and behind it.  How far the tasks
are over from the first on is the length of a `takeWhile`; it only grows.
-/
import Mathlib.Data.List.Basic

namespace TaskList

open List

variable {α : Type*} {tasks : List α} {i j : Nat} {t u : α} {p : α → Bool}

/-- A task that is under way, and the others around it. -/
theorem set_split (h : tasks[i]? = some t) :
    ∃ front back, tasks = front ++ t :: back ∧ ∀ t', tasks.set i t' = front ++ t' :: back := by
  obtain ⟨hi, rfl⟩ := List.getElem?_eq_some_iff.1 h
  refine ⟨tasks.take i, tasks.drop (i + 1), ?_, fun t' => ?_⟩
  · rw [← drop_eq_getElem_cons hi, take_append_drop]
  · rw [set_eq_take_append_cons_drop, if_pos hi]

/-- Who stands at place `j` after the change. -/
theorem getElem?_set_of (h : tasks[i]? = some t) (t' : α) (j : Nat) :
    (tasks.set i t')[j]? = if j = i then some t' else tasks[j]? := by
  obtain ⟨hi, -⟩ := List.getElem?_eq_some_iff.1 h
  rw [getElem?_set]
  by_cases hj : j = i
  · rw [if_pos hj.symm, if_pos hi, if_pos hj]
  · rw [if_neg (Ne.symm hj), if_neg hj]

/-- The task that changes. -/
theorem set_self (h : tasks[i]? = some t) (t' : α) : (tasks.set i t')[i]? = some t' :=
  List.getElem?_set_self (List.getElem?_eq_some_iff.1 h).1

/-- The others stay. -/
theorem set_other (hj : j ≠ i) (t' : α) : (tasks.set i t')[j]? = tasks[j]? :=
  getElem?_set_ne hj.symm

/-- A task after a change: the changed one, or one from before. -/
theorem set_cases (h : tasks[i]? = some t) {t' : α} (hu : (tasks.set i t')[j]? = some u) :
    (j = i ∧ u = t') ∨ (j ≠ i ∧ tasks[j]? = some u) := by
  rw [getElem?_set_of h] at hu
  by_cases hj : j = i
  · rw [if_pos hj, Option.some.injEq] at hu
    exact .inl ⟨hj, hu.symm⟩
  · rw [if_neg hj] at hu
    exact .inr ⟨hj, hu⟩

/-- A task of the longer list. -/
theorem mem_concat_iff {x : α} : u ∈ tasks ++ [x] ↔ u ∈ tasks ∨ u = x := by
  rw [mem_append, mem_singleton]

/-- Who stands at place `j` when a task has come to the end. -/
theorem concat_cases {x : α} (h : (tasks ++ [x])[j]? = some u) :
    (tasks[j]? = some u) ∨ (j = tasks.length ∧ u = x) := by
  rcases Nat.lt_trichotomy j tasks.length with hlt | heq | hgt
  · rw [getElem?_append_left hlt] at h
    exact .inl h
  · rw [heq, getElem?_concat_length, Option.some.injEq] at h
    exact .inr ⟨heq, h.symm⟩
  · rw [getElem?_eq_none (by simp; omega)] at h
    simp at h

/-- The tasks keep their places. -/
theorem getElem?_concat_of (h : tasks[j]? = some t) (x : α) : (tasks ++ [x])[j]? = some t := by
  rw [List.getElem?_append_left (List.getElem?_eq_some_iff.1 h).1, h]

/-- A longer run of elements that meet `p`. -/
theorem takeWhile_length_le :
    ∀ {l m : List α}, (∀ (i : Nat) (x : α), l[i]? = some x → p x = true →
      ∃ y, m[i]? = some y ∧ p y = true) → (l.takeWhile p).length ≤ (m.takeWhile p).length := by
  intro l
  induction l with
  | nil =>
    intro m _
    exact Nat.zero_le _
  | cons x l ih =>
    intro m h
    by_cases hx : p x = true
    · obtain ⟨y, hy, hpy⟩ := h 0 x rfl hx
      cases m with
      | nil => simp at hy
      | cons z m =>
        obtain rfl : z = y := by simpa using hy
        rw [takeWhile_cons_of_pos hx, takeWhile_cons_of_pos hpy]
        exact Nat.succ_le_succ (ih fun i w hw hp => h (i + 1) w hw hp)
    · rw [takeWhile_cons_of_neg hx]
      exact Nat.zero_le _

/-- An element inside the run. -/
theorem getElem?_of_lt_takeWhile {l : List α} {i : Nat} (h : i < (l.takeWhile p).length) :
    ∃ x, l[i]? = some x ∧ p x = true := by
  induction l generalizing i with
  | nil => simp at h
  | cons x l ih =>
    by_cases hx : p x = true
    · rw [takeWhile_cons_of_pos hx] at h
      cases i with
      | zero => exact ⟨x, rfl, hx⟩
      | succ i => exact ih (Nat.lt_of_succ_lt_succ h)
    · rw [takeWhile_cons_of_neg hx] at h
      simp at h

end TaskList
