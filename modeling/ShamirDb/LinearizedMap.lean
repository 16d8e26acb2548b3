/-
# A plain map that is read and changed at moments

The reference for linearizability.  The map is changed at one moment at a time, by a numbered
call; each change is logged with whether the key was there before.  A read that is under way
collects what its key holds, from the moment it begins; it is answered rightly if the answer
is among what it collected, that is, if the map held it at a moment of the read
(`Linear`).  A component is linearizable if its calls change such a map, each while it is
under way and as its result says, and its reads are answered rightly.
-/
import ShamirDb.KeyedWrites

namespace Linearized

open KeyedWrites List Function

/-- A read: its key, what the key has held since it began, and the answer it got. -/
structure Read (K V : Type*) where
  key : K
  seen : List (Option V)
  answer : Option (Option V)
  deriving DecidableEq

/-- A change: the call that made it, the write, and whether the key was there before. -/
structure Change (K V : Type*) where
  call : Nat
  write : Write K (Option V)
  present : Bool
  deriving DecidableEq

/-- The map, the reads in the order they began, and the changes so far. -/
structure Watch (K V : Type*) where
  map : K → Option V
  reads : List (Read K V)
  changes : List (Change K V)

variable {K V : Type*}

namespace Watch

/-- Reads start on a given map. -/
def start (map : K → Option V) : Watch K V := ⟨map, [], []⟩

def begin (w : Watch K V) (key : K) : Watch K V :=
  { w with reads := w.reads ++ [⟨key, [w.map key], none⟩] }

/-- Read `i` is answered. -/
def answer (w : Watch K V) (i : Nat) (value : Option V) : Watch K V :=
  { w with reads := w.reads.modify i fun r => { r with answer := some value } }

/-- What call `i` has changed. -/
def changesOf (w : Watch K V) (i : Nat) : List (Change K V) :=
  w.changes.filter fun c => decide (c.call = i)

/-- Every answer is a value the map held during the read. -/
def Linear (w : Watch K V) : Prop := ∀ r ∈ w.reads, ∀ v, r.answer = some v → v ∈ r.seen

end Watch

variable [DecidableEq K]

/-- A read that is under way notices a change to its key. -/
def Read.observe (write : Write K (Option V)) (r : Read K V) : Read K V :=
  if r.key = write.key ∧ r.answer.isNone then { r with seen := r.seen ++ [write.value] } else r

namespace Watch

/-- Call `i` changes the map. -/
def change (w : Watch K V) (i : Nat) (write : Write K (Option V)) : Watch K V where
  map := update w.map write.key write.value
  reads := w.reads.map (Read.observe write)
  changes := w.changes ++ [⟨i, write, (w.map write.key).isSome⟩]

end Watch

/-! ## What a read has seen -/

namespace Read

variable {r : Read K V} {write : Write K (Option V)} {v : Option V}

/-- A read keeps its key. -/
@[simp] theorem key_observe (r : Read K V) (write : Write K (Option V)) :
    (r.observe write).key = r.key := by
  unfold observe
  split <;> rfl

/-- A read keeps its answer. -/
@[simp] theorem answer_observe (r : Read K V) (write : Write K (Option V)) :
    (r.observe write).answer = r.answer := by
  unfold observe
  split <;> rfl

/-- What a read has seen stays seen. -/
theorem mem_seen_observe (h : v ∈ r.seen) : v ∈ (r.observe write).seen := by
  unfold observe
  split
  · exact mem_append_left _ h
  · exact h

/-- A read under way sees the write to its key. -/
theorem value_mem_seen_observe (hkey : r.key = write.key) (hopen : r.answer = none) :
    write.value ∈ (r.observe write).seen := by
  rw [observe, if_pos ⟨hkey, by rw [hopen]; rfl⟩]
  exact mem_append_right _ (mem_singleton.2 rfl)

end Read

namespace Watch

variable {w : Watch K V} {i j : Nat} {write : Write K (Option V)}

/-- The changed key holds the new value. -/
theorem map_change_self : (w.change i write).map write.key = write.value :=
  update_self ..

/-- The other keys keep theirs. -/
theorem map_change_of_ne {k : K} (h : k ≠ write.key) : (w.change i write).map k = w.map k :=
  update_of_ne h ..

/-- A read under way has seen what its key holds, after a change as well. -/
theorem current_change {r : Read K V} (h : w.map r.key ∈ r.seen) (hopen : r.answer = none) :
    (w.change i write).map r.key ∈ (r.observe write).seen := by
  by_cases hkey : r.key = write.key
  · rw [hkey, map_change_self]
    exact Read.value_mem_seen_observe hkey hopen
  · rw [map_change_of_ne hkey]
    exact Read.mem_seen_observe h

/-- The change is logged for the call that made it. -/
theorem changesOf_change_self :
    (w.change i write).changesOf i =
      w.changesOf i ++ [⟨i, write, (w.map write.key).isSome⟩] := by
  simp [changesOf, change]

/-- The changes of the other calls stay. -/
theorem changesOf_change_of_ne (h : j ≠ i) : (w.change i write).changesOf j = w.changesOf j := by
  simp [changesOf, change, Ne.symm h]

/-- A change makes no answer wrong. -/
theorem Linear.change (h : w.Linear) (i : Nat) (write : Write K (Option V)) :
    (w.change i write).Linear := by
  intro r hr v hv
  obtain ⟨r', hr', rfl⟩ := mem_map.1 hr
  rw [Read.answer_observe] at hv
  exact Read.mem_seen_observe (h r' hr' v hv)

end Watch

/-! ## Reads begin and are answered -/

namespace Watch

omit [DecidableEq K]

variable {w : Watch K V} {i : Nat}

/-- Nor does the beginning of a read. -/
theorem Linear.begin (h : w.Linear) (key : K) : (w.begin key).Linear := by
  intro r hr v hv
  rcases mem_append.1 hr with hr | hr
  · exact h r hr v hv
  · rw [mem_singleton.1 hr] at hv
    simp at hv

/-- A read is answered with a value it has seen. -/
theorem Linear.answer (h : w.Linear) {r : Read K V} (hr : w.reads[i]? = some r) {v : Option V}
    (hv : v ∈ r.seen) : (w.answer i v).Linear := by
  intro r' hr' u hu
  obtain ⟨j, hj⟩ := getElem?_of_mem hr'
  rw [Watch.answer, getElem?_modify] at hj
  by_cases hij : i = j
  · subst hij
    rw [hr] at hj
    obtain rfl : { r with answer := some v } = r' := by simpa using hj
    obtain rfl : v = u := by simpa using hu
    exact hv
  · simp only [hij, if_false, Option.map_eq_map, Option.map_id'] at hj
    exact h r' (mem_of_getElem? hj) u hu

end Watch

end Linearized
