/-
# States given by a log of overwrites

An entry of a log gives new values to some places and leaves the others alone; the state is
what the last entries say.  A reader may know the state of another choice of entries: those
before some moment, or those that have arrived.  For one place such a choice is a part of the
log from its start, if it takes the entries for that place in order.

`view_eq` compares two such parts: what a function shows of the place is the same in both if
none of the entries between them changes what it shows.
-/
import Mathlib.Data.List.Induction

namespace OverwriteLog

open List

variable {E ι β γ : Type*} (new : E → ι → Option β) (start : ι → β) {rest : List E}

/-- The value of the place `i` after the entries `log`. -/
def value (log : List E) (i : ι) : β := log.foldl (fun old e => (new e i).getD old) (start i)

@[simp] theorem value_nil (i : ι) : value new start [] i = start i := rfl

/-- The last entry decides, or the log before it. -/
theorem value_concat (log : List E) (e : E) (i : ι) :
    value new start (log ++ [e]) i = (new e i).getD (value new start log i) := by
  simp [value]

/-- A value is the first one, or that of an entry. -/
theorem value_cases (log : List E) (i : ι) :
    value new start log i = start i ∨ ∃ e ∈ log, new e i = some (value new start log i) := by
  induction log using reverseRecOn with
  | nil => exact Or.inl rfl
  | append_singleton log e ih =>
    rw [value_concat]
    cases he : new e i with
    | some b => exact Or.inr ⟨e, by simp, he⟩
    | none =>
      refine ih.imp_right ?_
      rintro ⟨f, hf, hb⟩
      exact ⟨f, mem_append_left _ hf, hb⟩

/-- Entries for other places do not matter. -/
theorem value_append_of_none {i : ι} (log : List E) (h : ∀ e ∈ rest, new e i = none) :
    value new start (log ++ rest) i = value new start log i := by
  induction rest using reverseRecOn with
  | nil => rw [append_nil]
  | append_singleton rest e ih =>
    rw [← append_assoc, value_concat, h e (by simp)]
    exact ih fun f hf => h f (mem_append_left _ hf)

/-- The entries of `front` are chosen and those of `back` are not, as far as `i` is concerned. -/
structure Split (chosen : E → Bool) (i : ι) (log front back : List E) : Prop where
  eq : log = front ++ back
  front : ∀ e ∈ front, new e i ≠ none → chosen e = true
  back : ∀ e ∈ back, new e i ≠ none → chosen e = false

variable {new} {start} {chosen other : E → Bool} {i : ι} {log front back front' back' : List E}

theorem value_filter_front (h : ∀ e ∈ front, new e i ≠ none → chosen e = true) :
    value new start (front.filter chosen) i = value new start front i := by
  induction front using reverseRecOn with
  | nil => rfl
  | append_singleton front e ih =>
    have hold := ih fun f hf => h f (mem_append_left _ hf)
    rw [filter_append, value_concat, ← hold]
    by_cases he : new e i = none
    · rw [he]
      apply value_append_of_none
      intro f hf
      rw [mem_singleton.1 (mem_filter.1 hf).1, he]
    · rw [filter_cons_of_pos (h e (by simp) he), filter_nil, value_concat]

/-- The chosen entries are the front ones. -/
theorem Split.value_filter (h : Split new chosen i log front back) :
    value new start (log.filter chosen) i = value new start front i := by
  rw [h.eq, filter_append, value_append_of_none, value_filter_front h.front]
  intro e he
  by_contra hne
  have hback := h.back e (mem_filter.1 he).1 hne
  rw [(mem_filter.1 he).2] at hback
  simp at hback

/-- Entries that do not change what is shown of a place. -/
theorem view_append (view : β → γ)
    (h : ∀ before e after, rest = before ++ e :: after → ∀ b, new e i = some b →
      view b = view (value new start (front ++ before) i)) :
    view (value new start (front ++ rest) i) = view (value new start front i) := by
  induction rest using reverseRecOn with
  | nil => rw [append_nil]
  | append_singleton rest e ih =>
    have hold := ih fun before f after hsplit b hb =>
      h before f (after ++ [e]) (by rw [hsplit, append_assoc, cons_append]) b hb
    rw [← append_assoc, value_concat]
    cases he : new e i with
    | none => exact hold
    | some b => exact (h rest e [] rfl b he).trans hold

/-- **Two choices show the same of a place** if no entry that only one of them has changes what
is shown. -/
theorem view_eq (view : β → γ) (hs : Split new chosen i log front back)
    (ht : Split new other i log front' back')
    (h : ∀ before e after, log = before ++ e :: after → chosen e ≠ other e → ∀ b, new e i = some b →
      view b = view (value new start before i)) :
    view (value new start (log.filter chosen) i) = view (value new start (log.filter other) i) := by
  rw [hs.value_filter, ht.value_filter]
  have hsame := hs.eq.symm.trans ht.eq
  rcases append_eq_append_iff.1 hsame with ⟨mid, hfront, hback⟩ | ⟨mid, hfront, hback⟩
  · -- the second choice has the middle part
    rw [hfront]
    refine (view_append view ?_).symm
    rintro before e after rfl b hb
    have hne : new e i ≠ none := by simp [hb]
    refine h (front ++ before) e (after ++ back') ?_ ?_ b hb
    · rw [hs.eq, hback]
      simp
    · rw [hs.back e (by rw [hback]; simp) hne, ht.front e (by rw [hfront]; simp) hne]
      simp
  · rw [hfront]
    refine view_append view ?_
    rintro before e after rfl b hb
    have hne : new e i ≠ none := by simp [hb]
    refine h (front' ++ before) e (after ++ back) ?_ ?_ b hb
    · rw [ht.eq, hback]
      simp
    · rw [hs.front e (by rw [hfront]; simp) hne, ht.back e (by rw [hback]; simp) hne]
      simp

end OverwriteLog
