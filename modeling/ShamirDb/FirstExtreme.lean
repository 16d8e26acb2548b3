/-
# The first extreme of a list under a partial comparison

A loop that keeps a current element and replaces it by the next one only if that is strictly
better.  Elements of different classes are not comparable, so the class of the first element
decides which others are looked at at all.

The result is described without the loop: the list splits at it, everything comparable before
it is strictly worse, nothing after it is strictly better, and the first element is of its
class.
-/
import Mathlib.Tactic.Common

namespace FirstExtreme

open List Option

variable {α : Type*}

/-- A strict weak order on each class of comparable elements. -/
structure StrictWeak (worse comparable : α → α → Prop) : Prop where
  symm : ∀ {a b}, comparable a b → comparable b a
  trans : ∀ {a b c}, comparable a b → comparable b c → comparable a c
  comparable_of_worse : ∀ {a b}, worse a b → comparable a b
  worse_trans : ∀ {a b c}, worse a b → worse b c → worse a c
  cotrans : ∀ {a b c}, worse a c → comparable a b → worse a b ∨ worse b c

/-- Classes and order carried over from keys; elements without a key are comparable with
nothing. -/
theorem StrictWeak.comap {β : Type*} {worse comparable : β → β → Prop}
    (h : StrictWeak worse comparable) (key : α → Option β) :
    StrictWeak (fun a b => ∃ x y, key a = some x ∧ key b = some y ∧ worse x y)
      (fun a b => ∃ x y, key a = some x ∧ key b = some y ∧ comparable x y) where
  symm := by
    rintro a b ⟨x, y, hx, hy, hxy⟩
    exact ⟨y, x, hy, hx, h.symm hxy⟩
  trans := by
    rintro a b c ⟨x, y, hx, hy, hxy⟩ ⟨y', z, hy', hz, hyz⟩
    obtain rfl := some.inj (hy.symm.trans hy')
    exact ⟨x, z, hx, hz, h.trans hxy hyz⟩
  comparable_of_worse := by
    rintro a b ⟨x, y, hx, hy, hxy⟩
    exact ⟨x, y, hx, hy, h.comparable_of_worse hxy⟩
  worse_trans := by
    rintro a b c ⟨x, y, hx, hy, hxy⟩ ⟨y', z, hy', hz, hyz⟩
    obtain rfl := some.inj (hy.symm.trans hy')
    exact ⟨x, z, hx, hz, h.worse_trans hxy hyz⟩
  cotrans := by
    rintro a b c ⟨x, z, hx, hz, hxz⟩ ⟨x', y, hx', hy, hxy⟩
    obtain rfl := some.inj (hx.symm.trans hx')
    rcases h.cotrans hxz hxy with h | h
    · exact .inl ⟨x, y, hx, hy, h⟩
    · exact .inr ⟨y, z, hy, hz, h⟩

/-- The opposite order on the same classes. -/
theorem StrictWeak.flip {worse comparable : α → α → Prop} (h : StrictWeak worse comparable) :
    StrictWeak (fun a b => worse b a) comparable where
  symm := h.symm
  trans := h.trans
  comparable_of_worse := fun hab => h.symm (h.comparable_of_worse hab)
  worse_trans := fun hab hbc => h.worse_trans hbc hab
  cotrans := by
    intro a b c hca hab
    have hcb := h.trans (h.comparable_of_worse hca) hab
    rcases h.cotrans hca hcb with h | h
    · exact .inr h
    · exact .inl h

/-- The first extreme of a list. -/
def IsFirst (worse comparable : α → α → Prop) (xs : List α) (x : α) : Prop :=
  ∃ before after, xs = before ++ x :: after ∧ (∀ y ∈ before.head?, worse y x) ∧
    (∀ y ∈ before, comparable y x → worse y x) ∧ ∀ y ∈ after, ¬ worse x y

/-- One turn of the loop. -/
def keep (worse : α → α → Prop) [DecidableRel worse] (current x : α) : α :=
  if worse current x then x else current

section
variable {worse comparable : α → α → Prop} (laws : StrictWeak worse comparable) {xs : List α}
  {a b x y : α}
include laws

/-- A better element follows: the extreme of the rest is that of the whole. -/
theorem IsFirst.cons_worse (h : IsFirst worse comparable (b :: xs) x) (hab : worse a b) :
    IsFirst worse comparable (a :: b :: xs) x := by
  obtain ⟨before, after, hxs, hhead, hbefore, hafter⟩ := h
  have hax : worse a x := by
    cases before with
    | nil =>
      rw [nil_append, cons.injEq] at hxs
      rwa [← hxs.1]
    | cons y before =>
      rw [cons_append, cons.injEq] at hxs
      exact laws.worse_trans hab (hxs.1 ▸ hhead y rfl)
  refine ⟨a :: before, after, by rw [hxs, cons_append], ?_, ?_, hafter⟩
  · rintro y ⟨⟩
    exact hax
  · rw [forall_mem_cons]
    exact ⟨fun _ => hax, hbefore⟩

/-- An element that is not better can be passed over. -/
theorem IsFirst.insert (h : IsFirst worse comparable (a :: xs) x) (hab : ¬ worse a b) :
    IsFirst worse comparable (a :: b :: xs) x := by
  obtain ⟨before, after, hxs, hhead, hbefore, hafter⟩ := h
  cases before with
  | nil =>
    obtain ⟨rfl, rfl⟩ := hxs
    exact ⟨[], b :: xs, rfl, by simp, by simp, forall_mem_cons.2 ⟨hab, hafter⟩⟩
  | cons y before =>
    obtain ⟨rfl, rfl⟩ := hxs
    have hax : worse a x := hhead a rfl
    refine ⟨a :: b :: before, after, rfl, by simpa using hax, ?_, hafter⟩
    rw [forall_mem_cons] at hbefore ⊢
    rw [forall_mem_cons]
    refine ⟨hbefore.1, fun hbx => ?_, hbefore.2⟩
    have hcomp := laws.trans (laws.comparable_of_worse hax) (laws.symm hbx)
    exact (laws.cotrans hax hcomp).resolve_left hab

/-- The loop ends with the first extreme. -/
theorem isFirst_foldl [DecidableRel worse] (xs : List α) (a : α) :
    IsFirst worse comparable (a :: xs) (xs.foldl (keep worse) a) := by
  induction xs generalizing a with
  | nil => exact ⟨[], [], rfl, by simp, by simp, by simp⟩
  | cons b xs ih =>
    rw [foldl_cons, keep]
    split
    · rename_i hab
      exact (ih b).cons_worse laws hab
    · rename_i hab
      exact (ih a).insert laws hab

theorem not_isFirst_later {before middle after : List α} (hhead : ∀ z ∈ before.head?, worse z x)
    (hafter : ∀ z ∈ middle ++ y :: after, ¬ worse x z)
    (hhead' : ∀ z ∈ (before ++ x :: middle).head?, worse z y)
    (hbefore' : ∀ z ∈ before ++ x :: middle, comparable z y → worse z y) : False := by
  have hxy : ¬ worse x y := hafter y (by simp)
  cases before with
  | nil => exact hxy (hhead' x rfl)
  | cons z before =>
    have hzx := laws.comparable_of_worse (hhead z rfl)
    have hzy := laws.comparable_of_worse (hhead' z rfl)
    exact hxy (hbefore' x (by simp) (laws.trans (laws.symm hzx) hzy))

theorem IsFirst.unique (hx : IsFirst worse comparable xs x) (hy : IsFirst worse comparable xs y) :
    x = y := by
  obtain ⟨before, after, rfl, hhead, hbefore, hafter⟩ := hx
  obtain ⟨before', after', heq, hhead', hbefore', hafter'⟩ := hy
  rcases append_eq_append_iff.1 heq with ⟨middle, rfl, hrest⟩ | ⟨middle, rfl, hrest⟩
  · cases middle with
    | nil => exact (cons.inj hrest).1
    | cons z middle =>
      obtain ⟨rfl, rfl⟩ := hrest
      exact (not_isFirst_later laws hhead hafter hhead' hbefore').elim
  · cases middle with
    | nil => exact (cons.inj hrest).1.symm
    | cons z middle =>
      obtain ⟨rfl, rfl⟩ := hrest
      exact (not_isFirst_later laws hhead' hafter' hhead hbefore).elim

/-- **What the loop returns.** -/
theorem foldl_keep_eq_iff [DecidableRel worse] (xs : List α) (a x : α) :
    xs.foldl (keep worse) a = x ↔ IsFirst worse comparable (a :: xs) x := by
  constructor
  · rintro rfl
    exact isFirst_foldl laws xs a
  · exact fun h => (isFirst_foldl laws xs a).unique laws h

end

end FirstExtreme
