/-
# The hybrid store: memory in front, a mirror behind

A `MirroredStore` keeps every entry in an in-memory `primary` and those whose key the
classifier accepts also in a durable `mirror`.  A call on an accepted key commits to the
mirror first; only then is the primary written, which cannot fail.  A batch commits its
accepted operations to the mirror as one transaction and then writes the primary operation
by operation, the other ones first.  `InMemoryStore::set` is two accesses of the tree:
`insert_sync`, and `upsert_sync` if the key was there.

Between the two stores there is no lock.  Any number of calls run at once, each access is
one step, and a mirror write may fail.  `turn` is not part of the program: it numbers the
mirror writes of the calls, in their order.

`Inv` says what the mirror holds while calls are under way: the last thing that the newest
of the calls with a write to the key still pending is going to leave there.
-/
import ShamirDb.KeyedWrites
import ShamirDb.TaskList
import ShamirDb.Machine

namespace ShamirDb.Mirrored

open Machine KeyedWrites List Function TaskList

/-! ## The calls -/

/-- An operation of a batch. -/
inductive KvOp (K V : Type*) where
  | set (key : K) (value : V)
  | remove (key : K)
  deriving DecidableEq

/-- The place an operation writes, and what it leaves there. -/
def KvOp.write {K V : Type*} : KvOp K V → Write K (Option V)
  | .set key value => ⟨key, some value⟩
  | .remove key => ⟨key, none⟩

inductive Call (K V : Type*) where
  | set (key : K) (value : V)
  | remove (key : K)
  | transact (ops : List (KvOp K V))
  deriving DecidableEq

/-- What a call returned: an error, the flag of the primary, or nothing. -/
inductive Outcome where
  | failed
  | flag (value : Bool)
  | done
  deriving DecidableEq

/-- Where a call is: before its mirror write, writing the primary with the operations it
has left, or over.  In `upserting` the key of the first operation was found present. -/
inductive Stage (K V : Type*) where
  | mirroring
  | writing (rest : List (KvOp K V))
  | upserting (key : K) (value : V) (rest : List (KvOp K V))
  | returned (outcome : Outcome)
  deriving DecidableEq

structure Task (K V : Type*) where
  call : Call K V
  stage : Stage K V
  turn : Nat
  deriving DecidableEq

structure System (K V : Type*) where
  primary : K → Option V
  mirror : K → Option V
  tasks : List (Task K V)
  /-- The number of mirror writes so far. -/
  turns : Nat

inductive Event (K V : Type*) where
  | start (call : Call K V)
  /-- The mirror write of call `i` is made, or fails. -/
  | mirror (i : Nat) (ok : Bool)
  /-- The next access of call `i` to the primary. -/
  | primary (i : Nat)
  deriving DecidableEq

variable {K V : Type*} [DecidableEq K] (classify : K → Bool)

/-- `MirroredStore::new`: the accepted entries of the mirror are loaded. -/
def hydrate (mirror : K → Option V) : K → Option V :=
  fun key => if classify key then mirror key else none

/-- The operations of a batch whose keys are accepted. -/
def durableOps (ops : List (KvOp K V)) : List (KvOp K V) :=
  ops.filter fun op => classify op.write.key

def ephemeralOps (ops : List (KvOp K V)) : List (KvOp K V) :=
  ops.filter fun op => !classify op.write.key

namespace Call

/-- What the call asks of the mirror; it asks nothing for a key that is not accepted. -/
def mirrored : Call K V → List (KvOp K V)
  | .set key value => durableOps classify [.set key value]
  | .remove key => durableOps classify [.remove key]
  | .transact ops => durableOps classify ops

/-- What the call does to the primary after the mirror write. -/
def published : Call K V → List (KvOp K V)
  | .set key value => [.set key value]
  | .remove key => [.remove key]
  | .transact ops => ephemeralOps classify ops ++ durableOps classify ops

/-- The first stage.  A batch that is not empty goes to the mirror even with nothing to
write there. -/
def enter : Call K V → Stage K V
  | .set key value => if classify key then .mirroring else .writing [.set key value]
  | .remove key => if classify key then .mirroring else .writing [.remove key]
  | .transact [] => .returned .done
  | .transact _ => .mirroring

end Call

namespace Task

/-- The result of the call, once its last operation reported `flag`. -/
def outcome (t : Task K V) (flag : Bool) : Outcome :=
  match t.call with
  | .transact _ => .done
  | _ => .flag flag

/-- After an operation on the primary that reported `flag`. -/
def advance (t : Task K V) (rest : List (KvOp K V)) (flag : Bool) : Task K V :=
  match rest with
  | [] => { t with stage := .returned (t.outcome flag) }
  | _ :: _ => { t with stage := .writing rest }

/-- The operations on the primary that are still to be done. -/
def pending (t : Task K V) : List (KvOp K V) :=
  match t.stage with
  | .writing rest => rest
  | .upserting key value rest => .set key value :: rest
  | _ => []

/-- One access to the primary. -/
def access (t : Task K V) (primary : K → Option V) : Task K V × (K → Option V) :=
  match t.stage with
  | .writing (.set key value :: rest) =>
    match primary key with
    | none => (t.advance rest true, update primary key (some value))
    | some _ => ({ t with stage := .upserting key value rest }, primary)
  | .writing (.remove key :: rest) =>
    (t.advance rest (primary key).isSome, update primary key none)
  | .writing [] => (t.advance [] false, primary)
  | .upserting key value rest =>
    (t.advance rest false, update primary key (some value))
  | .mirroring | .returned _ => (t, primary)

end Task

/-- The mirror write of a call.  With an error nothing else happens. -/
def System.commit (s : System K V) (i : Nat) (t : Task K V) : System K V :=
  { s with
    mirror := apply ((t.call.mirrored classify).map KvOp.write) s.mirror
    tasks := s.tasks.set i { t with stage := .writing (t.call.published classify), turn := s.turns }
    turns := s.turns + 1 }

def step (s : System K V) : Event K V → System K V
  | .start call => { s with tasks := s.tasks ++ [⟨call, call.enter classify, 0⟩] }
  | .mirror i ok =>
    match s.tasks[i]? with
    | some t =>
      match t.stage, ok with
      | .mirroring, true => s.commit classify i t
      | .mirroring, false => { s with tasks := s.tasks.set i { t with stage := .returned .failed } }
      | _, _ => s
    | none => s
  | .primary i =>
    match s.tasks[i]? with
    | some t =>
      { s with primary := (t.access s.primary).2, tasks := s.tasks.set i (t.access s.primary).1 }
    | none => s

/-- A store that was just opened on a mirror. -/
def opened (mirror : K → Option V) : System K V := ⟨hydrate classify mirror, mirror, [], 0⟩

/-! ## What a call still has to write -/

namespace Task

/-- What the call is going to leave at `k` in the primary, if it is going to write it. -/
def final (t : Task K V) (k : K) : Option (Option V) := last k (t.pending.map KvOp.write)

/-- The key the next access is for. -/
def target (t : Task K V) : Option K := t.pending.head?.map fun op => op.write.key

omit [DecidableEq K] in
/-- What is left to do. -/
theorem advance_pending (t : Task K V) (rest : List (KvOp K V)) (flag : Bool) :
    (t.advance rest flag).pending = rest := by
  cases rest <;> rfl

omit [DecidableEq K] in
/-- A task keeps its turn. -/
theorem advance_turn (t : Task K V) (rest : List (KvOp K V)) (flag : Bool) :
    (t.advance rest flag).turn = t.turn := by
  cases rest <;> rfl

/-- **One access.**  It does the next operation of the call, or finds that the key has to be
overwritten and changes nothing. -/
theorem access_cases (t : Task K V) (primary : K → Option V) :
    ((t.access primary).1.pending = t.pending ∧ (t.access primary).2 = primary) ∨
    ∃ op rest, t.pending = op :: rest ∧ (t.access primary).1.pending = rest ∧
      (t.access primary).2 = update primary op.write.key op.write.value := by
  cases hs : t.stage with
  | mirroring | returned => exact .inl (by simp [access, hs])
  | upserting key value rest =>
    refine .inr ⟨.set key value, rest, by simp [pending, hs], ?_, ?_⟩
    · simp [access, hs, advance_pending]
    · simp [access, hs, KvOp.write]
  | writing ops =>
    match ops with
    | [] =>
      refine .inl ⟨?_, by simp [access, hs]⟩
      rw [access, hs]
      show (t.advance [] false).pending = t.pending
      rw [advance_pending, pending, hs]
    | .remove key :: rest =>
      refine .inr ⟨.remove key, rest, by simp [pending, hs], ?_, ?_⟩
      · simp [access, hs, advance_pending]
      · simp [access, hs, KvOp.write]
    | .set key value :: rest =>
      cases hk : primary key with
      | none =>
        refine .inr ⟨.set key value, rest, by simp [pending, hs], ?_, ?_⟩
        · simp [access, hs, hk, advance_pending]
        · simp [access, hs, hk, KvOp.write]
      | some old => exact .inl (by simp [access, hs, hk, pending])

/-- So it does at an access. -/
theorem access_turn (t : Task K V) (primary : K → Option V) :
    (t.access primary).1.turn = t.turn := by
  unfold access
  split
  · split
    · exact advance_turn t _ true
    · rfl
  · exact advance_turn t _ _
  · exact advance_turn t _ _
  · exact advance_turn t _ _
  · rfl
  · rfl

end Task

/-! ## The invariant -/

/-- The calls that still have `k` to write: their turns and what they leave there. -/
def System.writers (s : System K V) (k : K) : List (Nat × Option V) :=
  s.tasks.filterMap fun t => (t.final k).map fun v => (t.turn, v)

/-- A write of an accepted key to the primary comes in the order of the mirror writes: no
call that wrote the mirror earlier still has this key to write. -/
def InOrder (s : System K V) : Event K V → Prop
  | .primary i => ∀ t ∈ s.tasks[i]?, ∀ k ∈ t.target, classify k = true →
      ∀ w ∈ s.writers k, t.turn ≤ w.1
  | _ => True

instance decidableInOrder (s : System K V) : ∀ e, Decidable (InOrder classify s e)
  | .start _ => inferInstanceAs (Decidable True)
  | .mirror _ _ => inferInstanceAs (Decidable True)
  | .primary i => inferInstanceAs (Decidable (∀ t ∈ s.tasks[i]?, ∀ k ∈ t.target,
      classify k = true → ∀ w ∈ s.writers k, t.turn ≤ w.1))

/-- The call has returned. -/
def Task.isOver (t : Task K V) : Bool :=
  match t.stage with
  | .returned _ => true
  | _ => false

/-- No call is in progress. -/
def AtRest (s : System K V) : Prop := ∀ t ∈ s.tasks, t.isOver = true

instance (s : System K V) : Decidable (AtRest s) :=
  inferInstanceAs (Decidable (∀ t ∈ s.tasks, t.isOver = true))

/-- Both sides agree on `k` when no write of it is pending; otherwise the mirror holds what
the newest of the writers leaves there. -/
structure KeyInv (s : System K V) (k : K) : Prop where
  settled : s.writers k = [] → s.primary k = s.mirror k
  newest : ∀ w ∈ s.writers k, (∀ u ∈ s.writers k, u.1 ≤ w.1) → s.mirror k = w.2
  turns : ∀ w ∈ s.writers k, w.1 < s.turns

/-- The invariant of the store, for the accepted keys. -/
def Inv (s : System K V) : Prop := ∀ k, classify k = true → KeyInv s k

variable {classify} {s : System K V} {k : K}

variable {s' : System K V} {i : Nat} {front back : List (Nat × Option V)} {t : Task K V}

/-- Nothing that matters to `k` changes. -/
theorem KeyInv.same (h : KeyInv s k) (hw : s'.writers k = s.writers k)
    (hp : s.writers k = [] → s'.primary k = s.primary k) (hm : s'.mirror k = s.mirror k)
    (ht : s.turns ≤ s'.turns) : KeyInv s' k := by
  constructor
  · intro hnone
    rw [hw] at hnone
    rw [hp hnone, hm]
    exact h.settled hnone
  · intro w hmem hmax
    rw [hw] at hmem hmax
    rw [hm]
    exact h.newest w hmem hmax
  · intro w hmem
    rw [hw] at hmem
    exact Nat.lt_of_lt_of_le (h.turns w hmem) ht

/-- The mirror is written by a call that has `k` to write: it is the newest writer now. -/
theorem KeyInv.commit {v : Option V} (h : KeyInv s k) (hw : s.writers k = front ++ back)
    (hw' : s'.writers k = front ++ (s.turns, v) :: back) (hm : s'.mirror k = v)
    (ht : s'.turns = s.turns + 1) : KeyInv s' k := by
  have hold : ∀ u ∈ front ++ back, u.1 < s.turns := hw ▸ h.turns
  have hmem : ∀ w ∈ s'.writers k, w = (s.turns, v) ∨ w ∈ front ++ back := by
    intro w hwm
    rw [hw'] at hwm
    rcases mem_append.1 hwm with hf | hb
    · exact .inr (mem_append_left _ hf)
    · rcases mem_cons.1 hb with rfl | hb
      · exact .inl rfl
      · exact .inr (mem_append_right _ hb)
  constructor
  · simp [hw']
  · intro w hwm hmax
    rcases hmem w hwm with rfl | hother
    · exact hm
    · -- an older writer is below the new one
      have hle : s.turns ≤ w.1 := hmax (s.turns, v) (by rw [hw']; simp)
      exact absurd (hold w hother) (by omega)
  · intro w hwm
    rw [ht]
    rcases hmem w hwm with rfl | hother
    · omega
    · exact Nat.lt_succ_of_lt (hold w hother)

/-- The oldest of the writers makes its last write of `k` to the primary. -/
theorem KeyInv.publish {w : Nat × Option V} (h : KeyInv s k) (hw : s.writers k = front ++ w :: back)
    (hw' : s'.writers k = front ++ back) (hfirst : ∀ u ∈ s.writers k, w.1 ≤ u.1)
    (hp : s'.primary k = w.2) (hm : s'.mirror k = s.mirror k) (ht : s'.turns = s.turns) :
    KeyInv s' k := by
  have hsub : ∀ u ∈ s'.writers k, u ∈ s.writers k := by
    intro u hu
    rw [hw'] at hu
    rw [hw]
    rcases mem_append.1 hu with hu | hu
    · exact mem_append_left _ hu
    · exact mem_append_right _ (mem_cons_of_mem _ hu)
  constructor
  · intro hnone
    rw [hw', append_eq_nil_iff] at hnone
    rw [hp, hm]
    symm
    apply h.newest w
    · rw [hw]
      simp
    · rw [hw, hnone.1, hnone.2]
      simp
  · intro u hu hmax
    rw [hm]
    apply h.newest u (hsub u hu)
    intro x hx
    rw [hw] at hx
    rcases mem_append.1 hx with hx | hx
    · exact hmax x (by rw [hw']; exact mem_append_left _ hx)
    · rcases mem_cons.1 hx with rfl | hx
      · exact hfirst u (hsub u hu)
      · exact hmax x (by rw [hw']; exact mem_append_right _ hx)
  · intro u hu
    rw [ht]
    exact h.turns u (hsub u hu)

/-! ## The steps -/

/-- The writers when one of the calls is replaced. -/
theorem writers_split {s : System K V} {front back : List (Task K V)}
    (h : s.tasks = front ++ t :: back) (k : K) :
    ∃ pre post, s.writers k = pre ++ ((t.final k).map fun v => (t.turn, v)).toList ++ post ∧
      ∀ s' : System K V, ∀ t' : Task K V, s'.tasks = front ++ t' :: back →
        s'.writers k = pre ++ ((t'.final k).map fun v => (t'.turn, v)).toList ++ post := by
  have hsplit : ∀ s' : System K V, ∀ t' : Task K V, s'.tasks = front ++ t' :: back →
      s'.writers k = front.filterMap (fun t => (t.final k).map fun v => (t.turn, v)) ++
        ((t'.final k).map fun v => (t'.turn, v)).toList ++
        back.filterMap (fun t => (t.final k).map fun v => (t.turn, v)) := by
    intro s' t' hs'
    rw [System.writers, hs', filterMap_append, filterMap_cons, append_assoc]
    cases t'.final k <;> rfl
  exact ⟨_, _, hsplit s t h, hsplit⟩

/-- A call that changes without touching `k`. -/
theorem KeyInv.replace {t t' : Task K V} (h : KeyInv s k) (hi : s.tasks[i]? = some t)
    (hs' : s'.tasks = s.tasks.set i t') (hf : t'.final k = t.final k)
    (hturn : (t.final k).isSome = true → t'.turn = t.turn)
    (hp : t.final k = none → s'.primary k = s.primary k) (hm : s'.mirror k = s.mirror k)
    (ht : s.turns ≤ s'.turns) : KeyInv s' k := by
  obtain ⟨front, back, hsplit, hset⟩ := set_split hi
  obtain ⟨pre, post, hw, hw'⟩ := writers_split hsplit k
  cases hv : t.final k with
  | none =>
    refine h.same ?_ (fun _ => hp hv) hm ht
    rw [hw' s' t' (hs'.trans (hset t')), hw, hf, hv]
    rfl
  | some v =>
    have hsame : s'.writers k = s.writers k := by
      rw [hw' s' t' (hs'.trans (hset t')), hw, hf, hturn (by rw [hv]; rfl)]
    refine h.same hsame ?_ hm ht
    intro hnone
    rw [hw, hv] at hnone
    simp at hnone

/-- The accepted operations of a batch are those that count for an accepted key. -/
theorem last_durable (ops : List (KvOp K V)) (hk : classify k = true) :
    last k ((durableOps classify ops).map KvOp.write) = last k (ops.map KvOp.write) := by
  have hmap : (durableOps classify ops).map KvOp.write =
      (ops.map KvOp.write).filter fun w => classify w.key := by
    rw [filter_map]
    rfl
  rw [hmap]
  apply last_filter
  intro w _ hw
  rw [hw, hk]

/-- An ephemeral batch writes no mirrored key. -/
theorem last_ephemeral (ops : List (KvOp K V)) (hk : classify k = true) :
    last k ((ephemeralOps classify ops).map KvOp.write) = none := by
  rw [last_eq_none_iff]
  intro w hw hkey
  obtain ⟨op, hop, rfl⟩ := mem_map.1 hw
  have hnot := (mem_filter.1 hop).2
  rw [hkey, hk] at hnot
  exact absurd hnot (by decide)

/-- On an accepted key a call leaves the same in the primary as in the mirror. -/
theorem last_published (call : Call K V) (hk : classify k = true) :
    last k ((call.published classify).map KvOp.write) =
      last k ((call.mirrored classify).map KvOp.write) := by
  cases call with
  | set key value => exact (last_durable [.set key value] hk).symm
  | remove key => exact (last_durable [.remove key] hk).symm
  | transact ops =>
    rw [Call.published, map_append, last_append, last_ephemeral ops hk, Option.or_none]
    rfl

/-- A new call has no accepted key to write before its mirror write. -/
theorem final_enter (call : Call K V) (hk : classify k = true) :
    Task.final ⟨call, call.enter classify, 0⟩ k = none := by
  have hsingle : ∀ op : KvOp K V, classify op.write.key = false → last k [op.write] = none := by
    intro op hop
    apply last_cons_of_ne
    rintro rfl
    rw [hop] at hk
    exact absurd hk (by decide)
  match call with
  | .set key value =>
    cases hc : classify key with
    | true => simp [Task.final, Task.pending, Call.enter, hc]
    | false => simpa [Task.final, Task.pending, Call.enter, hc] using hsingle (.set key value) hc
  | .remove key =>
    cases hc : classify key with
    | true => simp [Task.final, Task.pending, Call.enter, hc]
    | false => simpa [Task.final, Task.pending, Call.enter, hc] using hsingle (.remove key) hc
  | .transact [] => rfl
  | .transact (_ :: _) => rfl

section

variable (h : KeyInv s k) (hk : classify k = true)
include h hk

/-- A call begins. -/
theorem KeyInv.start (call : Call K V) : KeyInv (step classify s (.start call)) k := by
  refine h.same ?_ (fun _ => rfl) rfl (Nat.le_refl _)
  rw [step, System.writers, filterMap_append, filterMap_cons, final_enter call hk]
  simp [System.writers]

/-- The mirror has the batch. -/
theorem KeyInv.mirrored (hi : s.tasks[i]? = some t) (hstage : t.stage = .mirroring) :
    KeyInv (s.commit classify i t) k := by
  have hnone : t.final k = none := by simp [Task.final, Task.pending, hstage]
  have hafter : Task.final { t with stage := .writing (t.call.published classify), turn := s.turns } k
      = last k ((t.call.mirrored classify).map KvOp.write) := last_published t.call hk
  have hmirror : (s.commit classify i t).mirror k =
      (last k ((t.call.mirrored classify).map KvOp.write)).getD (s.mirror k) := apply_eq _ _ _
  cases hlast : last k ((t.call.mirrored classify).map KvOp.write) with
  | none =>
    rw [hlast] at hafter hmirror
    refine h.replace hi rfl (hafter.trans hnone.symm) ?_ (fun _ => rfl) hmirror (Nat.le_succ _)
    intro hsome
    rw [hnone] at hsome
    simp at hsome
  | some v =>
    rw [hlast] at hafter hmirror
    obtain ⟨front, back, hsplit, hset⟩ := set_split hi
    obtain ⟨pre, post, hw, hw'⟩ := writers_split hsplit k
    have hnew := hw' (s.commit classify i t) _ (hset _)
    rw [hafter] at hnew
    rw [hnone] at hw
    have hbefore : s.writers k = pre ++ post := by
      rw [hw]
      simp
    have hthen : (s.commit classify i t).writers k = pre ++ (s.turns, v) :: post := by
      rw [hnew]
      simp
    exact h.commit hbefore hthen hmirror rfl

/-- The primary has a write, in its turn. -/
theorem KeyInv.accessed (hi : s.tasks[i]? = some t) (horder : InOrder classify s (.primary i)) :
    KeyInv { s with primary := (t.access s.primary).2,
                    tasks := s.tasks.set i (t.access s.primary).1 } k := by
  have hturn := t.access_turn s.primary
  rcases t.access_cases s.primary with ⟨hpend, hprim⟩ | ⟨op, rest, hpend, hrest, hprim⟩
  · refine h.replace hi rfl ?_ (fun _ => hturn) (fun _ => ?_) rfl (Nat.le_refl _)
    · rw [Task.final, hpend, Task.final]
    · show (t.access s.primary).2 k = s.primary k
      rw [hprim]
  have hfinal : t.final k = last k (op.write :: rest.map KvOp.write) := by
    rw [Task.final, hpend, map_cons]
  have hafter : (t.access s.primary).1.final k = last k (rest.map KvOp.write) := by
    rw [Task.final, hrest]
  by_cases hkey : op.write.key = k
  · subst hkey
    rw [last_cons_self] at hfinal
    cases hlast : last op.write.key (rest.map KvOp.write) with
    | some v =>
      -- a later operation of the call writes the key again
      rw [hlast] at hfinal
      refine h.replace hi rfl (hafter.trans (hlast.trans hfinal.symm)) (fun _ => hturn) ?_ rfl
        (Nat.le_refl _)
      intro hnone
      rw [hfinal] at hnone
      simp at hnone
    | none =>
      rw [hlast] at hfinal
      obtain ⟨front, back, hsplit, hset⟩ := set_split hi
      obtain ⟨pre, post, hw, hw'⟩ := writers_split hsplit op.write.key
      have hnew := hw' { s with primary := (t.access s.primary).2,
                                tasks := s.tasks.set i (t.access s.primary).1 } _ (hset _)
      rw [hafter, hlast] at hnew
      rw [hfinal] at hw
      have hbefore : s.writers op.write.key = pre ++ (t.turn, op.write.value) :: post := by
        rw [hw]
        simp
      have htarget : op.write.key ∈ t.target := by simp [Task.target, hpend]
      refine h.publish hbefore ?_ (horder t hi op.write.key htarget hk) ?_ rfl rfl
      · rw [hnew]
        simp
      · show (t.access s.primary).2 op.write.key = op.write.value
        rw [hprim, update_self]
  · rw [last_cons_of_ne hkey] at hfinal
    refine h.replace hi rfl (hafter.trans hfinal.symm) (fun _ => hturn) (fun _ => ?_) rfl
      (Nat.le_refl _)
    show (t.access s.primary).2 k = s.primary k
    rw [hprim, update_of_ne (Ne.symm hkey)]

end

/-- **One step keeps the invariant** if a write to the primary comes in its order. -/
theorem Inv.step (h : Inv classify s) {e : Event K V} (he : InOrder classify s e) :
    Inv classify (step classify s e) := by
  intro k hk
  cases e with
  | start call => exact (h k hk).start hk call
  | mirror i ok =>
    rw [Mirrored.step]
    cases hi : s.tasks[i]? with
    | none => exact h k hk
    | some t =>
      dsimp only
      split
      · exact (h k hk).mirrored hk hi ‹_›
      · refine (h k hk).replace hi rfl ?_ (fun _ => rfl) (fun _ => rfl) rfl (Nat.le_refl _)
        simp [Task.final, Task.pending, ‹t.stage = _›]
      · exact h k hk
  | primary i =>
    rw [Mirrored.step]
    cases hi : s.tasks[i]? with
    | none => exact h k hk
    | some t => exact (h k hk).accessed hk hi he

/-- A new store. -/
theorem opened_inv (mirror : K → Option V) : Inv classify (opened classify mirror) := by
  intro k hk
  refine ⟨fun _ => ?_, fun w hw => ?_, fun w hw => ?_⟩
  · show hydrate classify mirror k = mirror k
    rw [hydrate, if_pos hk]
  · simp [opened, System.writers] at hw
  · simp [opened, System.writers] at hw

/-- At rest nothing is pending. -/
theorem AtRest.writers (h : AtRest s) (k : K) : s.writers k = [] := by
  rw [System.writers, filterMap_eq_nil_iff]
  intro t ht
  have hover := h t ht
  rw [Task.isOver] at hover
  split at hover
  · rename_i outcome hstage
    simp [Task.final, Task.pending, hstage]
  · exact absurd hover (by decide)

omit [DecidableEq K] in
/-- What a restart would load is what the readers of the accepted keys see. -/
theorem hydrate_eq_iff {p m : K → Option V} :
    hydrate classify m = hydrate classify p ↔ ∀ k, classify k = true → p k = m k := by
  constructor
  · intro h k hk
    have hat := congrFun h k
    rw [hydrate, hydrate, if_pos hk, if_pos hk] at hat
    exact hat.symm
  · intro h
    funext k
    by_cases hk : classify k = true
    · rw [hydrate, hydrate, if_pos hk, if_pos hk, h k hk]
    · rw [hydrate, hydrate, if_neg hk, if_neg hk]

/-! ## Calls that fail -/

/-- The call an event belongs to. -/
def Event.caller : Event K V → Option Nat
  | .start _ => none
  | .mirror i _ | .primary i => some i

/-- The call has returned an error. -/
def Failed (s : System K V) (i : Nat) : Prop :=
  ∃ t, s.tasks[i]? = some t ∧ t.stage = .returned .failed

/-- The call is behind its mirror write, or has none to do. -/
def Task.Past (t : Task K V) : Prop := t.stage ≠ .mirroring ∧ t.stage ≠ .returned .failed

def Past (s : System K V) (i : Nat) : Prop := ∃ t, s.tasks[i]? = some t ∧ t.Past

omit [DecidableEq K] in
/-- A task that advances is past its mirror write. -/
theorem Task.Past.advance (t : Task K V) (rest : List (KvOp K V)) (flag : Bool) :
    (t.advance rest flag).Past := by
  cases rest with
  | cons op rest => exact ⟨by simp [Task.advance], by simp [Task.advance]⟩
  | nil =>
    refine ⟨by simp [Task.advance], ?_⟩
    rw [Task.advance, Task.outcome]
    cases t.call <;> simp

/-- An access changes nothing, or the task is past its mirror write. -/
theorem Task.access_past (t : Task K V) (primary : K → Option V) :
    (t.access primary).2 = primary ∧ (t.access primary).1 = t ∨ (t.access primary).1.Past := by
  unfold Task.access
  split
  · split
    · exact .inr (Task.Past.advance t _ true)
    · exact .inr ⟨by simp, by simp⟩
  · exact .inr (Task.Past.advance t _ _)
  · exact .inr (Task.Past.advance t _ _)
  · exact .inr (Task.Past.advance t _ _)
  · exact .inl ⟨rfl, rfl⟩
  · exact .inl ⟨rfl, rfl⟩

/-- **A step of a call.**  Afterwards it is behind its mirror write, or both sides are left alone
and the call is where it was, unless its mirror write has failed. -/
theorem step_task (s : System K V) {e : Event K V} (he : e.caller = some i) :
    step classify s e = s ∨ ∃ t t', s.tasks[i]? = some t ∧
      (step classify s e).tasks = s.tasks.set i t' ∧ (t'.Past ∨ (t.stage = .mirroring ∨ t' = t) ∧
        (step classify s e).primary = s.primary ∧ (step classify s e).mirror = s.mirror) := by
  cases e with
  | start call => simp [Event.caller] at he
  | mirror j ok =>
    obtain rfl : j = i := Option.some.inj he
    rw [step]
    cases hj : s.tasks[j]? with
    | none => exact .inl rfl
    | some t =>
      dsimp only
      split
      · exact .inr ⟨t, _, rfl, rfl, .inl ⟨by simp, by simp⟩⟩
      · exact .inr ⟨t, _, rfl, rfl, .inr ⟨.inl ‹_›, rfl, rfl⟩⟩
      · exact .inl rfl
  | primary j =>
    obtain rfl : j = i := Option.some.inj he
    rw [step]
    cases hj : s.tasks[j]? with
    | none => exact .inl rfl
    | some t =>
      refine .inr ⟨t, _, rfl, rfl, ?_⟩
      rcases t.access_past s.primary with ⟨hprim, hsame⟩ | hpast
      · exact .inr ⟨.inr hsame, hprim, rfl⟩
      · exact .inl hpast

/-- A call behind its mirror write stays there. -/
theorem Past.step (h : Past s i) (e : Event K V) : Past (step classify s e) i := by
  obtain ⟨t, hi, ht⟩ := h
  cases he : e.caller with
  | none =>
    cases e with
    | start call => exact ⟨t, getElem?_concat_of hi _, ht⟩
    | _ => cases he
  | some j =>
    rcases step_task s he with heq | ⟨u, u', hj, htasks, hu⟩
    · rw [heq]
      exact ⟨t, hi, ht⟩
    by_cases hij : i = j
    · subst hij
      obtain rfl : t = u := Option.some.inj (hi.symm.trans hj)
      refine ⟨u', htasks ▸ set_self hi _, ?_⟩
      rcases hu with hpast | ⟨hstage | rfl, -⟩
      · exact hpast
      · exact absurd hstage ht.1
      · exact ht
    · exact ⟨t, htasks ▸ (set_other hij _).trans hi, ht⟩

/-! ## The store as a whole -/

/-- **Memory and mirror.**  In a run whose writes of accepted keys reach the primary in the
order in which they reached the mirror, the two sides have the same accepted entries
whenever no call is under way, and a restart would load what readers see.  In every run, no
step of a call that ends in an error changes a side. -/
theorem mirrored_store_agrees (classify : K → Bool) (mirror : K → Option V) :
    (∀ es, Along (step classify) (InOrder classify) (opened classify mirror) es →
      AtRest (run (step classify) (opened classify mirror) es) →
      (∀ k, classify k = true → (run (step classify) (opened classify mirror) es).primary k =
        (run (step classify) (opened classify mirror) es).mirror k) ∧
      hydrate classify (run (step classify) (opened classify mirror) es).mirror =
        hydrate classify (run (step classify) (opened classify mirror) es).primary) ∧
    ∀ before e after i, e.caller = some i →
      Failed (run (step classify) (opened classify mirror) (before ++ e :: after)) i →
      (run (step classify) (opened classify mirror) (before ++ [e])).primary =
        (run (step classify) (opened classify mirror) before).primary ∧
      (run (step classify) (opened classify mirror) (before ++ [e])).mirror =
        (run (step classify) (opened classify mirror) before).mirror := by
  constructor
  · intro es hes hrest
    have hinv : Inv classify (run (step classify) (opened classify mirror) es) :=
      along_invariant (fun _ _ h he => h.step he) (opened_inv mirror) hes
    have hagree : ∀ k, classify k = true →
        (run (step classify) (opened classify mirror) es).primary k =
          (run (step classify) (opened classify mirror) es).mirror k :=
      fun k hk => (hinv k hk).settled (hrest.writers k)
    exact ⟨hagree, hydrate_eq_iff.2 hagree⟩
  · intro before e after i he hfailed
    rw [run_concat]
    rcases step_task (run (step classify) (opened classify mirror) before) he with
      heq | ⟨t, t', hi, htasks, hpast | ⟨-, hsame⟩⟩
    · rw [heq]
      exact ⟨rfl, rfl⟩
    · -- a call behind its mirror write cannot end in an error
      have hpast : Past _ i := ⟨t', htasks ▸ set_self hi _, hpast⟩
      rw [run_append, run_cons] at hfailed
      obtain ⟨t, ht, hstage⟩ := hfailed
      obtain ⟨u, hu, hnot⟩ := @run_invariant _ _ (step classify) (fun s => Past s i)
        (fun _ e h => h.step e) _ hpast after
      rw [hu] at ht
      exact absurd hstage (Option.some.inj ht ▸ hnot.2)
    · exact hsame

/-- Two writes of one key and a failed removal that overlap. -/
def overlapping : List (Event Nat Nat) :=
  [.start (.set 7 1), .start (.set 7 2), .start (.remove 7), .mirror 0 true, .mirror 2 false,
    .mirror 1 true, .primary 0, .primary 1, .primary 1]

/-- Two overlapping writes to a key, applied in their turn, agree at the end. -/
theorem mirrored_store_agrees_overlapping :
    (run (step fun _ => true) (opened (fun _ => true) fun _ => none) overlapping).primary 7 =
      some 2 ∧
    (run (step fun _ => true) (opened (fun _ => true) fun _ => none) overlapping).primary 7 =
      (run (step fun _ => true) (opened (fun _ => true) fun _ => none) overlapping).mirror 7 :=
  ⟨rfl, ((mirrored_store_agrees (fun _ => true) fun _ => none).1 overlapping (by decide)
    (by decide)).1 7 rfl⟩

/-- The second call is the last to write the mirror and the first to write the primary. -/
theorem mirrored_store_differs :
    AtRest (run (step fun _ => true) (opened (fun _ => true) fun _ => none)
      [.start (.set 7 1), .start (.set 7 2), .mirror 0 true, .mirror 1 true, .primary 1,
        .primary 0, .primary 0] : System Nat Nat) ∧
    (run (step fun _ => true) (opened (fun _ => true) fun _ => none)
      [.start (.set 7 1), .start (.set 7 2), .mirror 0 true, .mirror 1 true, .primary 1,
        .primary 0, .primary 0] : System Nat Nat).primary 7 = some 1 ∧
    (run (step fun _ => true) (opened (fun _ => true) fun _ => none)
      [.start (.set 7 1), .start (.set 7 2), .mirror 0 true, .mirror 1 true, .primary 1,
        .primary 0, .primary 0] : System Nat Nat).mirror 7 = some 2 := by
  exact ⟨by decide, rfl, rfl⟩

end ShamirDb.Mirrored
