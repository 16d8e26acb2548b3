/-
# Self-delimiting readers

A reader takes a word off the front of its input.  It is self-delimiting when what it accepts
can be followed by anything: a word accepted at one place is accepted at every other, with the
same result.  Such readers compose, with `do` and by repetition, to such readers.
-/
import Mathlib.Tactic.Common

namespace SelfDelimiting

open List

variable {σ α β : Type}

/-- Reads a value off the front of the input and leaves the rest. -/
abbrev Reader (σ α : Type) := StateT (List σ) Option α

/-- `word` is read as `a`, whatever follows. -/
def Reads (r : Reader σ α) (word : List σ) (a : α) : Prop :=
  ∀ tail, r (word ++ tail) = some (a, tail)

/-- What `r` accepts is a word that it reads. -/
def Delimits (r : Reader σ α) : Prop :=
  ∀ ⦃input a rest⦄, r input = some (a, rest) → ∃ word, Reads r word a ∧ input = word ++ rest

variable {r : Reader σ α} {f : α → Reader σ β} {a : α} {b : β} {n : Nat}
  {u v word input rest : List σ}

/-- One reader after the other. -/
theorem bind_eq_some : (r >>= f) input = some (b, rest) ↔
    ∃ a mid, r input = some (a, mid) ∧ f a mid = some (b, rest) := by
  change ((r input).bind fun p => f p.1 p.2) = some (b, rest) ↔ _
  simp [Option.bind_eq_some_iff]

/-- Two words are read one after the other. -/
theorem Reads.bind (hr : Reads r u a) (hf : Reads (f a) v b) : Reads (r >>= f) (u ++ v) b := by
  intro tail
  rw [append_assoc]
  exact bind_eq_some.2 ⟨a, v ++ tail, hr _, hf _⟩

/-- A word is read and its value changed. -/
theorem Reads.bind_pure (hr : Reads r u a) (g : α → β) :
    Reads (r >>= fun a => pure (g a)) u (g a) := by
  intro tail
  exact bind_eq_some.2 ⟨a, tail, hr tail, rfl⟩

/-- A reader that takes nothing. -/
theorem Delimits.pure (a : α) : Delimits (σ := σ) (pure a) := by
  rintro input _ _ ⟨⟩
  exact ⟨[], fun _ => rfl, rfl⟩

/-- A reader that never succeeds. -/
theorem Delimits.failure : Delimits (failure : Reader σ α) := by
  rintro input a rest ⟨⟩

/-- Two readers that delimit themselves, one after the other. -/
theorem Delimits.bind (hr : Delimits r) (hf : ∀ a, Delimits (f a)) : Delimits (r >>= f) := by
  intro input b rest h
  obtain ⟨a, mid, ha, hb⟩ := bind_eq_some.1 h
  obtain ⟨u, hu, rfl⟩ := hr ha
  obtain ⟨v, hv, rfl⟩ := hf a hb
  exact ⟨u ++ v, hu.bind hv, (append_assoc ..).symm⟩

/-! ## The first symbols of the input -/

def next : Reader σ σ
  | [] => none
  | a :: rest => some (a, rest)

def take (n : Nat) : Reader σ (List σ) := fun input =>
  if n ≤ input.length then some (input.take n, input.drop n) else none

/-- One symbol is read back. -/
theorem Reads.next (a : σ) : Reads next [a] a := fun _ => rfl

/-- The reader of one symbol delimits itself. -/
theorem Delimits.next : Delimits (next (σ := σ)) := by
  intro input a rest h
  cases input with
  | nil => cases h
  | cons b input =>
    obtain ⟨rfl, rfl⟩ : b = a ∧ input = rest := by simpa [SelfDelimiting.next] using h
    exact ⟨[b], Reads.next b, rfl⟩

/-- A word of a known length is read back. -/
theorem Reads.take (h : word.length = n) : Reads (take n) word word := by
  intro tail
  simp [SelfDelimiting.take, ← h]

/-- What a reader of `n` symbols returns. -/
theorem take_eq_some (h : take n input = some (word, rest)) :
    word.length = n ∧ input = word ++ rest := by
  unfold take at h
  split_ifs at h with hn
  cases h
  exact ⟨length_take_of_le hn, (take_append_drop n input).symm⟩

/-- The reader of `n` symbols delimits itself. -/
theorem Delimits.take (n : Nat) : Delimits (take (σ := σ) n) := by
  intro input word rest h
  obtain ⟨hlen, hinput⟩ := take_eq_some h
  exact ⟨word, Reads.take hlen, hinput⟩

/-! ## Repetition -/

def many (r : Reader σ α) : Nat → Reader σ (List α)
  | 0 => pure []
  | n + 1 => do
    let a ← r
    let as ← many r n
    pure (a :: as)

/-- A list of words is read back one by one. -/
theorem Reads.many {code : α → List σ} {as : List α} (h : ∀ a ∈ as, Reads r (code a) a) :
    Reads (many r as.length) (as.flatMap code) as := by
  induction as with
  | nil => exact fun _ => rfl
  | cons a as ih =>
    rw [forall_mem_cons] at h
    rw [flatMap_cons, ← append_nil (as.flatMap code)]
    exact h.1.bind ((ih h.2).bind fun _ => rfl)

/-- A reader repeated `n` times delimits itself. -/
theorem Delimits.many (h : Delimits r) (n : Nat) : Delimits (many r n) := by
  induction n with
  | zero => exact .pure []
  | succ n ih => exact h.bind fun a => ih.bind fun as => .pure (a :: as)

/-- The first of `n + 1` words, and the rest. -/
theorem many_succ_eq_some {as : List α} (h : many r (n + 1) input = some (as, rest)) :
    ∃ a mid as', r input = some (a, mid) ∧ many r n mid = some (as', rest) ∧ as = a :: as' := by
  obtain ⟨a, mid, ha, h⟩ := bind_eq_some.1 h
  obtain ⟨as', mid', has, h⟩ := bind_eq_some.1 h
  cases h
  exact ⟨a, mid, as', ha, has, rfl⟩

/-! ## The symbols a reader consumes -/

def span (r : Reader σ α) : Reader σ (List σ) := fun input =>
  (r input).map fun p => (input.take (input.length - p.2.length), p.2)

/-- The word that was read, as it stands in the input. -/
theorem Reads.span (h : Reads r word a) : Reads (span r) word word := by
  intro tail
  simp [SelfDelimiting.span, h tail]

/-- A span is read alone as it was read in its place. -/
theorem Delimits.reads_of_span (hr : Delimits r) (h : span r input = some (word, rest)) :
    ∃ a, Reads r word a := by
  obtain ⟨⟨a, rest'⟩, hp, h⟩ := Option.map_eq_some_iff.1 h
  obtain ⟨word', hread, rfl⟩ := hr hp
  cases h
  exact ⟨a, by simpa using hread⟩

end SelfDelimiting
