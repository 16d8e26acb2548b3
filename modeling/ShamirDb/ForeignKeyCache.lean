/-
# The cache of the foreign-key graph

The foreign keys of a repository, by parent and by child table, are collected by a scan of all
tables and cached (`fk_reverse_cache.rs`).  The cache is one pointer to an immutable state.  A
lookup that finds it empty takes the build lock, captures the pointer and scans; it publishes the
graph only if the pointer is still the captured one.  An invalidation puts an empty state in its
place (`rcu`, which is repeated until it meets no other change).

Hence a lookup that begins after an invalidation gets a graph whose scan began after it, and every
graph is the result of one scan, in both views.
-/
import ShamirDb.Machine
import ShamirDb.TaskList
import Mathlib.Data.List.Infix
import Mathlib.Logic.Function.Basic

namespace ShamirDb.ForeignKeyCache

open List Function TaskList Machine

/-! ## The graph -/

/-- `FkAction`. -/
inductive FkAction where
  | noAction | restrict | cascade | setNull
  deriving DecidableEq

/-- `ReverseFkEntry`: a field of a child table that references a parent table. -/
structure ReverseFkEntry where
  childTable : String
  childField : String
  parentRefField : String
  onDelete : FkAction
  onUpdate : FkAction
  deriving DecidableEq

/-- `TaggedReverseFkEntry`: an entry with the parent table it references. -/
structure TaggedReverseFkEntry where
  parentTable : String
  entry : ReverseFkEntry
  deriving DecidableEq

/-- `CacheState`: the entries of a parent table, and the parents of a child table. -/
structure CacheState where
  byParent : String → List ReverseFkEntry
  byChild : String → List String

/-- One round of the loop of `try_publish`. -/
def CacheState.add (c : CacheState) (tagged : TaggedReverseFkEntry) : CacheState where
  byParent := update c.byParent tagged.parentTable
    (c.byParent tagged.parentTable ++ [tagged.entry])
  byChild := update c.byChild tagged.entry.childTable
    ((c.byChild tagged.entry.childTable).insert tagged.parentTable)

/-- Both indices of a scan's entries. -/
def CacheState.build (entries : List TaggedReverseFkEntry) : CacheState :=
  entries.foldl CacheState.add ⟨fun _ => [], fun _ => []⟩

/-- The graph of a scan: it has all the entries, and its two views agree. -/
structure CacheState.IsGraphOf (c : CacheState) (entries : List TaggedReverseFkEntry) : Prop where
  complete : ∀ p, c.byParent p =
    (entries.filter fun tagged => tagged.parentTable = p).map TaggedReverseFkEntry.entry
  agree : ∀ child p, p ∈ c.byChild child ↔ ∃ e ∈ c.byParent p, e.childTable = child

/-- An entry is added on both sides. -/
theorem CacheState.IsGraphOf.add {c : CacheState} {entries : List TaggedReverseFkEntry}
    (h : c.IsGraphOf entries) (tagged : TaggedReverseFkEntry) :
    (c.add tagged).IsGraphOf (entries ++ [tagged]) where
  complete p := by
    rw [filter_append, map_append, ← h.complete p]
    by_cases hp : p = tagged.parentTable
    · subst hp
      simp [CacheState.add]
    · simp [CacheState.add, hp, Ne.symm hp]
  agree child p := by
    have hchild : p ∈ (c.add tagged).byChild child ↔
        p ∈ c.byChild child ∨ child = tagged.entry.childTable ∧ p = tagged.parentTable := by
      by_cases hc : child = tagged.entry.childTable
      · subst hc
        simp [CacheState.add, mem_insert_iff, or_comm]
      · simp [CacheState.add, hc]
    have hparent : ∀ e, e ∈ (c.add tagged).byParent p ↔
        e ∈ c.byParent p ∨ p = tagged.parentTable ∧ e = tagged.entry := by
      intro e
      by_cases hp : p = tagged.parentTable
      · subst hp
        simp [CacheState.add]
      · simp [CacheState.add, hp]
    rw [hchild, h.agree child p]
    constructor
    · rintro (⟨e, he, rfl⟩ | ⟨rfl, rfl⟩)
      · exact ⟨e, (hparent e).2 (.inl he), rfl⟩
      · exact ⟨_, (hparent _).2 (.inr ⟨rfl, rfl⟩), rfl⟩
    · rintro ⟨e, he, rfl⟩
      rcases (hparent e).1 he with he | ⟨rfl, rfl⟩
      · exact .inl ⟨e, he, rfl⟩
      · exact .inr ⟨rfl, rfl⟩

/-- The built cache is the graph of its entries. -/
theorem CacheState.build_isGraphOf (entries : List TaggedReverseFkEntry) :
    (CacheState.build entries).IsGraphOf entries := by
  induction entries using reverseRecOn with
  | nil => exact ⟨fun _ => rfl, fun _ _ => by simp [CacheState.build]⟩
  | append_singleton entries tagged ih =>
    rw [CacheState.build, foldl_append]
    exact ih.add tagged

/-! ## Lookups and invalidations -/

/-- An allocated `VersionedState`.  Pointers are compared by address; the address of a state that
somebody still holds is not used again. -/
structure Arc where
  address : Nat
  generation : Nat
  cache : Option CacheState

/-- Where a call of `get_or_build_snapshot` is. -/
inductive Stage where
  | started
  /-- Waits for the build lock. -/
  | missed
  | locked
  /-- Scans; the number counts the scans in the order they began in. -/
  | scanning (captured : Arc) (scan : Nat)
  | scanned (captured : Arc) (scan : Nat) (entries : List TaggedReverseFkEntry)
  | returned (snapshot : Arc)
  | failed
  | cancelled

structure System where
  current : Arc
  /-- The next free address. -/
  next : Nat
  /-- The lookup that holds the build lock. -/
  holder : Option Nat
  lookups : List Stage
  begun : Nat
  /-- What the scans that succeeded have found. -/
  results : List (Nat × List TaggedReverseFkEntry)

inductive Event where
  | lookup
  /-- The load before the lock. -/
  | load (i : Nat)
  | lock (i : Nat)
  /-- The load under the lock, from which on the lookup scans. -/
  | capture (i : Nat)
  /-- The scan ends; `none` is an error. -/
  | scanned (i : Nat) (result : Option (List TaggedReverseFkEntry))
  | publish (i : Nat)
  /-- The caller drops the lookup at an `await`. -/
  | cancel (i : Nat)
  | invalidate

namespace System

/-- `FkReverseCache::new`. -/
def new : System := ⟨⟨0, 0, none⟩, 1, none, [], 0, []⟩

def goto (s : System) (i : Nat) (stage : Stage) : System :=
  { s with lookups := s.lookups.set i stage }

/-- The lookup is over and its guard is dropped. -/
def finish (s : System) (i : Nat) (stage : Stage) : System :=
  { s.goto i stage with holder := if s.holder = some i then none else s.holder }

/-- A new state becomes the current one. -/
def store (s : System) (generation : Nat) (cache : Option CacheState) : System :=
  { s with current := ⟨s.next, generation, cache⟩, next := s.next + 1 }

/-- `invalidate` and the steps of `get_or_build_snapshot`. -/
def step (s : System) : Event → System
  | .lookup => { s with lookups := s.lookups ++ [.started] }
  | .load i =>
    match s.lookups[i]? with
    | some .started => s.goto i (if s.current.cache.isSome then .returned s.current else .missed)
    | _ => s
  | .lock i =>
    match s.lookups[i]?, s.holder with
    | some .missed, none => { s.goto i .locked with holder := some i }
    | _, _ => s
  | .capture i =>
    match s.lookups[i]? with
    | some .locked =>
      if s.current.cache.isSome then s.finish i (.returned s.current)
      else { s.goto i (.scanning s.current s.begun) with begun := s.begun + 1 }
    | _ => s
  | .scanned i result =>
    match s.lookups[i]? with
    | some (.scanning captured scan) =>
      match result with
      | none => s.finish i .failed
      | some entries =>
        { s.goto i (.scanned captured scan entries) with
          results := s.results ++ [(scan, entries)] }
    | _ => s
  | .publish i =>
    match s.lookups[i]? with
    | some (.scanned captured _ entries) =>
      -- `try_publish`; after a loss the lookup begins again
      if s.current.address = captured.address then
        let s' := s.store (captured.generation + 1) (some (CacheState.build entries))
        s'.finish i (.returned s'.current)
      else s.finish i .missed
    | _ => s
  | .cancel i =>
    match s.lookups[i]? with
    | some .missed | some (.scanning _ _) => s.finish i .cancelled
    | _ => s
  | .invalidate => s.store (s.current.generation + 1) none

end System

variable {s s' : System} {a n l i : Nat} {stage : Stage}

/-- The state holds the graph of a scan that is not before the scan `n`. -/
def Graph (n : Nat) (s : System) (arc : Arc) : Prop :=
  ∃ k entries c, n ≤ k ∧ (k, entries) ∈ s.results ∧ arc.cache = some c ∧ c.IsGraphOf entries

/-- What is known of a lookup: one that captured a state from the address `a` on scans from the
scan `n` on, and one from `l` on has got a graph of such a scan. -/
def StageOk (a n l : Nat) (s : System) (i : Nat) : Stage → Prop
  | .scanning captured k => captured.address < s.next ∧ (a ≤ captured.address → n ≤ k)
  | .scanned captured k entries => captured.address < s.next ∧ (a ≤ captured.address → n ≤ k) ∧
      (k, entries) ∈ s.results
  | .returned arc => l ≤ i → Graph n s arc
  | _ => True

/-- Everything from the address `a` on comes from the scans from `n` on. -/
structure Since (a n l : Nat) (s : System) : Prop where
  address : a ≤ s.current.address ∧ s.current.address < s.next
  begun : n ≤ s.begun
  current : s.current.cache = none ∨ Graph n s s.current
  lookups : ∀ i stage, s.lookups[i]? = some stage → StageOk a n l s i stage

theorem Graph.mono {arc : Arc} (h : Graph n s arc) (hresults : ∀ r ∈ s.results, r ∈ s'.results) :
    Graph n s' arc :=
  let ⟨k, entries, c, hk, hmem, hc⟩ := h
  ⟨k, entries, c, hk, hresults _ hmem, hc⟩

/-- A stage stays right. -/
theorem StageOk.mono (h : StageOk a n l s i stage) (hnext : s.next ≤ s'.next)
    (hresults : ∀ r ∈ s.results, r ∈ s'.results) : StageOk a n l s' i stage := by
  cases stage with
  | scanning captured k => exact ⟨h.1.trans_le hnext, h.2⟩
  | scanned captured k entries => exact ⟨h.1.trans_le hnext, h.2.1, hresults _ h.2.2⟩
  | returned arc => exact fun hl => (h hl).mono hresults
  | started | missed | locked | failed | cancelled => trivial

section

variable (h : Since a n l s)
include h

/-- One lookup goes on. -/
theorem Since.goto {stage' : Stage} {holder : Option Nat} {begun : Nat}
    {results : List (Nat × List TaggedReverseFkEntry)} (hi : s.lookups[i]? = some stage)
    (hbegun : s.begun ≤ begun) (hresults : ∀ r ∈ s.results, r ∈ results)
    (hok : StageOk a n l { s with begun, results } i stage') :
    Since a n l { s.goto i stage' with holder, begun, results } where
  address := h.address
  begun := h.begun.trans hbegun
  current := h.current.imp_right (·.mono hresults)
  lookups j st hst := by
    rcases set_cases hi hst with ⟨rfl, rfl⟩ | ⟨-, hst⟩
    · cases st <;> exact hok
    · exact (h.lookups j st hst).mono le_rfl hresults

/-- A new state is empty or the graph of a scan from `n` on. -/
theorem Since.store {generation : Nat} {cache : Option CacheState}
    (hcache : cache = none ∨ Graph n s ⟨s.next, generation, cache⟩) :
    Since a n l (s.store generation cache) where
  address := ⟨h.address.1.trans h.address.2.le, Nat.lt_succ_self _⟩
  begun := h.begun
  current := hcache
  lookups j st hst := (h.lookups j st hst).mono (Nat.le_succ _) fun _ => id

/-- **One step** keeps what was known. -/
theorem Since.step (e : Event) : Since a n l (s.step e) := by
  have hgraph : s.current.cache.isSome = true → Graph n s s.current := by
    intro hsome
    refine h.current.resolve_left fun hnone => ?_
    simp [hnone] at hsome
  cases e with
  | lookup =>
    refine ⟨h.address, h.begun, h.current, fun j st hst => ?_⟩
    rcases concat_cases hst with hst | ⟨-, rfl⟩
    · exact (h.lookups j st hst).mono le_rfl fun _ => id
    · trivial
  | load i =>
    rw [System.step]
    split
    · rename_i hi
      refine h.goto hi le_rfl (fun _ => id) ?_
      split
      · exact fun _ => hgraph ‹_›
      · trivial
    · exact h
  | lock i =>
    rw [System.step]
    split
    · rename_i hi _
      exact h.goto hi le_rfl (fun _ => id) trivial
    · exact h
  | capture i =>
    rw [System.step]
    split
    · rename_i hi
      split
      · exact h.goto hi le_rfl (fun _ => id) fun _ => hgraph ‹_›
      · exact h.goto hi (Nat.le_succ _) (fun _ => id) ⟨h.address.2, fun _ => h.begun⟩
    · exact h
  | scanned i result =>
    rw [System.step]
    split
    · rename_i captured k hi
      obtain ⟨hbound, hk⟩ := h.lookups i _ hi
      cases result with
      | none => exact h.goto hi le_rfl (fun _ => id) trivial
      | some entries =>
        exact h.goto hi le_rfl (fun _ => mem_append_left _) ⟨hbound, hk, by simp⟩
    · exact h
  | publish i =>
    rw [System.step]
    split
    · rename_i captured k entries hi
      obtain ⟨-, hk, hmem⟩ := h.lookups i _ hi
      split
      · rename_i hsame
        -- nothing was stored since the capture, so the scan is not before `n`
        have hnew : ∀ arc : Arc, arc.cache = some (CacheState.build entries) → Graph n s arc :=
          fun arc harc => ⟨k, entries, _, hk (hsame ▸ h.address.1), hmem, harc,
            CacheState.build_isGraphOf entries⟩
        exact (h.store (.inr (hnew _ rfl))).goto hi le_rfl (fun _ => id) fun _ => hnew _ rfl
      · exact h.goto hi le_rfl (fun _ => id) trivial
    · exact h
  | cancel i =>
    rw [System.step]
    split
    · rename_i hi
      exact h.goto hi le_rfl (fun _ => id) trivial
    · rename_i hi
      exact h.goto hi le_rfl (fun _ => id) trivial
    · exact h
  | invalidate => exact h.store (.inl rfl)

/-- Every run. -/
theorem since_run (es : List Event) : Since a n l (run System.step s es) :=
  run_invariant (fun _ e h => h.step e) h es

end

/-- A new cache. -/
theorem since_new : Since 0 0 0 .new :=
  ⟨⟨le_rfl, Nat.one_pos⟩, le_rfl, .inl rfl, fun _ _ h => absurd h (by simp [System.new])⟩

/-- After an invalidation nothing is left of the scans before it. -/
theorem Since.invalidate (h : Since 0 0 0 s) :
    Since s.next s.begun s.lookups.length (s.step .invalidate) where
  address := ⟨le_rfl, Nat.lt_succ_self _⟩
  begun := le_rfl
  current := .inl rfl
  lookups i stage hi := by
    have hok := h.lookups i stage hi
    have hlt := (List.getElem?_eq_some_iff.1 hi).1
    cases stage with
    | scanning captured k =>
      exact ⟨Nat.lt_succ_of_lt hok.1, fun hle => absurd hok.1 (Nat.not_lt.2 hle)⟩
    | scanned captured k entries =>
      exact ⟨Nat.lt_succ_of_lt hok.1, fun hle => absurd hok.1 (Nat.not_lt.2 hle), hok.2.2⟩
    | returned arc => exact fun hle => absurd hlt (Nat.not_lt.2 hle)
    | started | missed | locked | failed | cancelled => trivial

/-- **The cached graph is never stale.**  Every lookup that returns gets the whole graph of one
scan that succeeded, in both views; a lookup that began after an invalidation gets that of a scan
that began after it; and a scan that fails changes neither the cache nor the results. -/
theorem fk_graph_never_stale (es : List Event) :
    (∀ (i : Nat) (arc : Arc), (run System.step .new es).lookups[i]? = some (.returned arc) →
      Graph 0 (run System.step .new es) arc) ∧
    (∀ es₁ es₂, es = es₁ ++ .invalidate :: es₂ →
      ∀ (i : Nat) (arc : Arc), (run System.step .new es₁).lookups.length ≤ i →
        (run System.step .new es).lookups[i]? = some (.returned arc) →
        Graph (run System.step .new es₁).begun (run System.step .new es) arc) ∧
    ∀ i, ((run System.step .new es).step (.scanned i none)).current =
        (run System.step .new es).current ∧
      ((run System.step .new es).step (.scanned i none)).results =
        (run System.step .new es).results := by
  refine ⟨fun i arc hi => ?_, ?_, fun i => ?_⟩
  · exact (since_run since_new es).lookups i _ hi (Nat.zero_le i)
  · rintro es₁ es₂ rfl i arc hle hi
    rw [run_append] at hi ⊢
    exact (since_run (since_run since_new es₁).invalidate es₂).lookups i _ hi hle
  · rw [System.step]
    split <;> exact ⟨rfl, rfl⟩

/-- A field of `orders` that references `customers`. -/
def ordersCustomer : TaggedReverseFkEntry :=
  ⟨"customers", ⟨"orders", "customer", "id", .restrict, .noAction⟩⟩

/-- A field of `orders` that references `shops`, added later. -/
def ordersShop : TaggedReverseFkEntry := ⟨"shops", ⟨"orders", "shop", "id", .cascade, .noAction⟩⟩

/-- An invalidation between the capture and the publication of a scan that found one foreign key:
the publication is refused, and a lookup that begins after the invalidation scans again and gets
the graph with both foreign keys. -/
theorem fk_graph_never_stale_refused :
    Graph 1 (run System.step .new [.lookup, .load 0, .lock 0, .capture 0, .invalidate,
        .lookup, .load 1, .scanned 0 (some [ordersCustomer]), .publish 0, .lock 1, .capture 1,
        .scanned 1 (some [ordersCustomer, ordersShop]), .publish 1])
      ⟨2, 2, some (CacheState.build [ordersCustomer, ordersShop])⟩ :=
  (fk_graph_never_stale _).2.1 [.lookup, .load 0, .lock 0, .capture 0] _ rfl 1 _ (by decide) rfl

end ShamirDb.ForeignKeyCache
