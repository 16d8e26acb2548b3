/-
# The record counter

`COUNT(*)` without a filter is answered from `RecordCounter` (`record_counter.rs`): a count in
memory, which is loaded from the store on first use, and a stored copy, which `persist` writes if
the two differ.

A write changes the rows first.  Then the count is changed by a delta that the writer took from
what it had read: one for a new row, none for a row it found, minus one for a row it deletes
(`tx_insert.rs`, `tx_update.rs`, `tx_delete.rs`).  The delta of a commit is a step of its own
(`apply_tracked_counter_phase`, or the drainer for a commit that was cut off); it can be refused,
and then it is lost.  A restart forgets the count in memory, and recovery skips the deltas.

Nothing compares the count with the rows.  This module keeps the account: by how much the count is
off after any run is the sum of what each step contributes.
-/
import ShamirDb.Machine
import ShamirDb.AggregateShortcuts

namespace ShamirDb.RecordCounter

open List Machine Query

/-! ## Rows -/

/-- A row is removed from a table. -/
def removeRow (table : Table) (id : RecordId) : Table where
  rows := table.rows.filter fun row => row.1 ≠ id
  ascending := table.ascending.filter _

/-- A row is put into a table, in the place of one with its id. -/
def putRow (table : Table) (id : RecordId) (record : Value) : Table where
  rows := (table.rows.filter fun row => row.1.bytes < id.bytes) ++
    (id, record) :: table.rows.filter fun row => id.bytes < row.1.bytes
  ascending := by
    refine pairwise_append.2 ⟨table.ascending.filter _,
      pairwise_cons.2 ⟨?_, table.ascending.filter _⟩, ?_⟩
    · intro row hrow
      exact of_decide_eq_true (mem_filter.1 hrow).2
    · intro a ha b hb
      have hlt : a.1.bytes < id.bytes := of_decide_eq_true (mem_filter.1 ha).2
      rcases mem_cons.1 hb with rfl | hb
      · exact hlt
      · exact List.lt_trans hlt (of_decide_eq_true (mem_filter.1 hb).2)

/-- One if the table has a row with this id. -/
def occupied (table : Table) (id : RecordId) : Nat := if (table.get id).isSome then 1 else 0

theorem count_eq_occupied (table : Table) (id : RecordId) :
    table.rows.countP (fun row => decide (row.1 = id)) = occupied table id := by
  have hcount : table.rows.countP (fun row => decide (row.1 = id)) =
      (table.rows.map Prod.fst).count id := by
    rw [count, countP_map]
    rfl
  rw [hcount, table.nodup_ids.count, occupied]
  refine if_congr ?_ rfl rfl
  rw [Option.isSome_iff_exists, mem_map]
  constructor
  · rintro ⟨row, hrow, rfl⟩
    exact ⟨row.2, table.get_eq_some.2 hrow⟩
  · rintro ⟨record, hget⟩
    exact ⟨_, table.get_eq_some.1 hget, rfl⟩

/-- A removal takes the row, if it is there. -/
theorem length_removeRow (table : Table) (id : RecordId) :
    (removeRow table id).rows.length + occupied table id = table.rows.length := by
  have h := length_eq_countP_add_countP (fun row : Row => decide (row.1 = id)) (l := table.rows)
  rw [count_eq_occupied] at h
  rw [h, removeRow, ← countP_eq_length_filter, Nat.add_comm]
  simp

/-- The rows before, after and at an id. -/
theorem length_eq_split (rows : List Row) (id : RecordId) :
    rows.length = rows.countP (fun row => row.1.bytes < id.bytes) +
      rows.countP (fun row => id.bytes < row.1.bytes) +
      rows.countP fun row => decide (row.1 = id) := by
  induction rows with
  | nil => rfl
  | cons row rows ih =>
    simp only [countP_cons, length_cons, decide_eq_true_eq]
    by_cases hlt : row.1.bytes < id.bytes
    · have hne : row.1 ≠ id := fun h => List.lt_irrefl _ (h ▸ hlt)
      simp only [hlt, List.lt_asymm hlt, hne, if_true, if_false]
      omega
    by_cases hgt : id.bytes < row.1.bytes
    · have hne : row.1 ≠ id := fun h => List.lt_irrefl _ (h ▸ hgt)
      simp only [hgt, List.lt_asymm hgt, hne, if_true, if_false]
      omega
    · have heq := RecordId.ext_bytes (List.le_antisymm (List.not_lt.1 hgt) (List.not_lt.1 hlt))
      simp only [heq, List.lt_irrefl, if_true, if_false]
      omega

/-- A write adds a row, if it was not there. -/
theorem length_putRow (table : Table) (id : RecordId) (record : Value) :
    (putRow table id record).rows.length + occupied table id = table.rows.length + 1 := by
  have hput : (putRow table id record).rows.length =
      table.rows.countP (fun row => row.1.bytes < id.bytes) +
        (table.rows.countP (fun row => id.bytes < row.1.bytes) + 1) := by
    rw [putRow, length_append, length_cons, countP_eq_length_filter, countP_eq_length_filter]
  have hsplit := length_eq_split table.rows id
  rw [count_eq_occupied] at hsplit
  omega

/-! ## The counter -/

/-- The count in memory, if it is loaded; the value last written; and the stored copy. -/
structure Counter where
  cache : Option Nat
  lastPersisted : Nat
  stored : Option Nat
  deriving DecidableEq

/-- The error when the copy is loaded, if there is one, and whether it cannot be written. -/
structure Faults where
  load : Option String
  write : Bool
  deriving DecidableEq

namespace Counter

/-- `RecordCounter::new`. -/
def new (stored : Option Nat) : Counter := ⟨none, 0, stored⟩

/-- What `get` returns when it succeeds; no stored copy means a new table. -/
def value (c : Counter) : Nat := c.cache.getD (c.stored.getD 0)

/-- `ensure_cache`: the counter with the count in memory, and the count. -/
def ensureCache (c : Counter) (faults : Faults) : Except String (Counter × Nat) :=
  match c.cache with
  | some n => .ok (c, n)
  | none =>
    match faults.load with
    | some error => .error error
    | none => .ok (⟨some (c.stored.getD 0), c.stored.getD 0, c.stored⟩, c.stored.getD 0)

/-- `increment`; the loop around the compare-and-swap ends with the value it read last. -/
def increment (c : Counter) (faults : Faults) (delta : Int) : Counter × Except String Unit :=
  match c.ensureCache faults with
  | .error error => (c, .error error)
  | .ok (c, cur) =>
    if delta = 0 then (c, .ok ())
    else if 0 < delta then
      if cur + delta.natAbs < 2 ^ 64 then ({ c with cache := some (cur + delta.natAbs) }, .ok ())
      else (c, .error s!"Record count overflow: current={cur}, delta={delta}")
    else if delta.natAbs ≤ cur then ({ c with cache := some (cur - delta.natAbs) }, .ok ())
    else (c, .error s!"Record count cannot go below zero: current={cur}, delta={delta}")

/-- `persist_admitted`. -/
def persist (c : Counter) (faults : Faults) : Counter :=
  match c.ensureCache faults with
  | .error _ => c
  | .ok (c, cur) =>
    if cur = c.lastPersisted || faults.write then c
    else { c with lastPersisted := cur, stored := some cur }

/-- `set_to_admitted`. -/
def setTo (c : Counter) (faults : Faults) (n : Nat) : Counter :=
  match c.ensureCache faults with
  | .error _ => c
  | .ok (c, _) => persist { c with cache := some n } faults

/-- The cache is filled with the stored value. -/
theorem ensureCache_spec {c c' : Counter} {faults : Faults} {n : Nat}
    (h : c.ensureCache faults = .ok (c', n)) :
    c'.cache = some n ∧ n = c.value := by
  unfold ensureCache at h
  split at h
  case h_1 m hm =>
    obtain ⟨rfl, rfl⟩ := Prod.mk.inj (Except.ok.inj h)
    exact ⟨hm, by simp [value, hm]⟩
  case h_2 hnone =>
    split at h
    case h_1 => simp at h
    case h_2 =>
      obtain ⟨rfl, rfl⟩ := Prod.mk.inj (Except.ok.inj h)
      exact ⟨rfl, by simp [value, hnone]⟩

/-- An increment that succeeds adds the delta; one that is refused leaves the count. -/
theorem value_increment (c : Counter) (faults : Faults) (delta : Int) :
    ((c.increment faults delta).1.value : Int) =
      c.value + if (c.increment faults delta).2.isOk then delta else 0 := by
  unfold increment
  split
  case h_1 => simp [Except.isOk, Except.toBool]
  case h_2 c' cur h =>
    obtain ⟨hcache, rfl⟩ := ensureCache_spec h
    have hvalue : c'.value = c.value := by simp [value, hcache]
    have hset : ∀ m, ({ c' with cache := some m } : Counter).value = m := fun _ => rfl
    split
    case isTrue hzero => simp [hvalue, hzero]
    case isFalse hzero =>
      split
      case isTrue hpos =>
        split
        · simp only [hset, Except.isOk, Except.toBool, if_true]
          omega
        · simp [hvalue, Except.isOk, Except.toBool]
      case isFalse hpos =>
        split
        · simp only [hset, Except.isOk, Except.toBool, if_true]
          omega
        · simp [hvalue, Except.isOk, Except.toBool]

/-- `persist` leaves the count. -/
theorem value_persist (c : Counter) (faults : Faults) : (c.persist faults).value = c.value := by
  unfold persist
  split
  case h_1 => rfl
  case h_2 c' cur h =>
    obtain ⟨hcache, rfl⟩ := ensureCache_spec h
    split <;> simp [value, hcache]

/-- `set_to` sets the count if it is loaded. -/
theorem value_setTo (c : Counter) (faults : Faults) (n : Nat) :
    (c.setTo faults n).value =
      if (c.ensureCache faults).isOk then n else c.value := by
  unfold setTo
  split
  case h_1 h => simp [h, Except.isOk, Except.toBool]
  case h_2 c' cur h =>
    rw [value_persist, h]
    rfl

end Counter

/-! ## Writes -/

/-- A staged write.  `found` is what the writer read: a delete that finds no row stages nothing. -/
inductive RowOp where
  | insert (id : RecordId) (record : Value)
  | set (id : RecordId) (record : Value) (found : Bool)
  | delete (id : RecordId)

namespace RowOp

/-- The `counter_delta` of the staged mutation. -/
def delta : RowOp → Int
  | .insert _ _ => 1
  | .set _ _ found => if found then 0 else 1
  | .delete _ => -1

def apply (table : Table) : RowOp → Table
  | .insert id record | .set id record _ => putRow table id record
  | .delete id => removeRow table id

/-- By how much the delta is off: the row is not what the writer has read. -/
def offBy (table : Table) : RowOp → Int
  | .insert id _ => occupied table id
  | .set id _ found => (if found then -1 else 0) + occupied table id
  | .delete id => occupied table id - 1

/-- The change of the number of rows, with the part that the delta is off. -/
theorem length_apply (table : Table) (op : RowOp) :
    ((op.apply table).rows.length : Int) + op.offBy table = table.rows.length + op.delta := by
  cases op with
  | insert id record =>
    have := length_putRow table id record
    simp only [apply, offBy, delta]
    omega
  | set id record found =>
    have := length_putRow table id record
    simp only [apply, offBy, delta]
    split <;> omega
  | delete id =>
    have := length_removeRow table id
    simp only [apply, offBy, delta]
    omega

end RowOp

/-- By how much the deltas of a commit are off. -/
def offBy (table : Table) : List RowOp → Int
  | [] => 0
  | op :: ops => op.offBy table + offBy (op.apply table) ops

/-- The rows after a list of operations. -/
theorem length_foldl_apply (table : Table) (ops : List RowOp) :
    ((ops.foldl RowOp.apply table).rows.length : Int) + offBy table ops =
      table.rows.length + (ops.map RowOp.delta).sum := by
  induction ops generalizing table with
  | nil => simp [offBy]
  | cons op ops ih =>
    have hfirst := op.length_apply table
    have hrest := ih (op.apply table)
    simp only [foldl_cons, offBy, map_cons, sum_cons]
    omega

/-! ## Runs -/

/-- A table, its counter, and the deltas of commits that have not been counted. -/
structure System where
  table : Table
  counter : Counter
  uncounted : List Int

inductive Event where
  | commit (ops : List RowOp)
  /-- The delta of a commit is counted. -/
  | count (i : Nat) (faults : Faults)
  /-- The table of a delta is not found. -/
  | lose (i : Nat)
  | persist (faults : Faults)
  /-- The doctor sets the count. -/
  | setTo (n : Nat) (faults : Faults)
  | restart

/-- A delta that is refused is not tried again. -/
def step (s : System) : Event → System
  | .commit ops => { s with
      table := ops.foldl RowOp.apply s.table
      uncounted := s.uncounted ++ [(ops.map RowOp.delta).sum] }
  | .count i faults =>
    match s.uncounted[i]? with
    | none => s
    | some delta => { s with
        counter := (s.counter.increment faults delta).1
        uncounted := s.uncounted.eraseIdx i }
  | .lose i => { s with uncounted := s.uncounted.eraseIdx i }
  | .persist faults => { s with counter := s.counter.persist faults }
  | .setTo n faults => { s with counter := s.counter.setTo faults n }
  | .restart => { s with counter := .new s.counter.stored, uncounted := [] }

theorem ascending_nil : ([] : List Row).Pairwise fun a b => a.1.bytes < b.1.bytes :=
  List.Pairwise.nil

/-- A new table. -/
def opened : System := ⟨⟨[], ascending_nil⟩, .new none, []⟩

/-- By how much the count, with what is still to be counted, is above the number of rows. -/
def System.surplus (s : System) : Int :=
  s.counter.value + s.uncounted.sum - s.table.rows.length

/-- What a step contributes: deltas that do not fit the rows, deltas that are refused or lost, the
value that the doctor sets, and at a restart what was neither counted nor stored. -/
def drift (s : System) : Event → Int
  | .commit ops => offBy s.table ops
  | .count i faults =>
    match s.uncounted[i]? with
    | none => 0
    | some delta => if (s.counter.increment faults delta).2.isOk then 0 else -delta
  | .lose i => -(s.uncounted[i]?.getD 0)
  | .persist _ => 0
  | .setTo n faults =>
    if (s.counter.ensureCache faults).isOk then n - s.counter.value else 0
  | .restart => s.counter.stored.getD 0 - s.counter.value - s.uncounted.sum

/-- What the steps of a run contribute. -/
def drifts (s : System) : List Event → Int
  | [] => 0
  | e :: es => drift s e + drifts (step s e) es

theorem sum_eraseIdx {deltas : List Int} {i : Nat} {d : Int} (h : deltas[i]? = some d) :
    (deltas.eraseIdx i).sum + d = deltas.sum := by
  obtain ⟨hi, rfl⟩ := List.getElem?_eq_some_iff.1 h
  rw [Int.add_comm, CommMonoid.add_sum_eraseIdx hi]

/-- One step changes the surplus by its drift. -/
theorem surplus_step (s : System) (e : Event) : (step s e).surplus = s.surplus + drift s e := by
  cases e with
  | commit ops =>
    have := length_foldl_apply s.table ops
    simp only [System.surplus, step, drift, sum_append, sum_singleton]
    omega
  | count i faults =>
    simp only [step, drift]
    split
    case h_1 => exact (Int.add_zero _).symm
    case h_2 delta hi =>
      have hsum := sum_eraseIdx hi
      have hvalue := s.counter.value_increment faults delta
      simp only [System.surplus]
      by_cases hok : (s.counter.increment faults delta).2.isOk = true
      · rw [if_pos hok] at hvalue ⊢
        omega
      · rw [if_neg hok] at hvalue ⊢
        omega
  | lose i =>
    simp only [System.surplus, step, drift]
    cases hi : s.uncounted[i]? with
    | none =>
      rw [eraseIdx_of_length_le (getElem?_eq_none_iff.1 hi), Option.getD_none]
      omega
    | some delta =>
      have := sum_eraseIdx hi
      rw [Option.getD_some]
      omega
  | persist faults => simp [System.surplus, step, drift, Counter.value_persist]
  | setTo n faults =>
    simp only [System.surplus, step, drift, Counter.value_setTo]
    split <;> omega
  | restart =>
    simp only [System.surplus, step, drift, Counter.new, Counter.value, Option.getD_none, sum_nil]
    omega

/-- **The account of a run**: the surplus is what the steps have contributed. -/
theorem surplus_run (s : System) (es : List Event) :
    (run step s es).surplus = s.surplus + drifts s es := by
  induction es generalizing s with
  | nil => simp [drifts]
  | cons e es ih =>
    rw [run_cons, ih, surplus_step, drifts]
    omega

/-- **When `COUNT(*)` is right**: after a run of a new table whose deltas have all been counted,
the shortcut returns what the scan returns exactly if the contributions add up to nothing. -/
theorem countAll_eq_scan_iff (ctx : FilterContext) (lower : Lowercase) {digest : Digest}
    (es : List Event) (hash : HashIndexes digest (run step opened es).table)
    (sorted : SortedIndexes (run step opened es).table) (aliasName : Option String)
    (hcounted : (run step opened es).uncounted = []) :
    aggregateShortcut ctx ⟨_, hash, sorted, (run step opened es).counter.value⟩
        ⟨.countAll, aliasName, none⟩ =
      some (aggregateScan ctx lower (run step opened es).table ⟨.countAll, aliasName, none⟩) ↔
      drifts opened es = 0 := by
  have hsurplus := surplus_run opened es
  have hnew : opened.surplus = 0 := rfl
  rw [hnew, System.surplus, hcounted, sum_nil] at hsurplus
  simp only [aggregateShortcut, aggregateScan, Option.some.injEq, Prod.mk.injEq, true_and,
    AggregateValue.count.injEq]
  omega

/-- A write fits the rows if its row is there exactly when the writer has found it. -/
def RowOp.Fits (table : Table) : RowOp → Prop
  | .insert id _ => table.get id = none
  | .set id _ found => found = (table.get id).isSome
  | .delete id => (table.get id).isSome

/-- A write that fits contributes nothing. -/
theorem RowOp.Fits.offBy {table : Table} {op : RowOp} (h : op.Fits table) :
    op.offBy table = 0 := by
  cases op with
  | insert id record =>
    have hnone : table.get id = none := h
    simp [RowOp.offBy, occupied, hnone]
  | set id record found =>
    obtain rfl : found = (table.get id).isSome := h
    simp only [RowOp.offBy, occupied]
    split <;> rfl
  | delete id =>
    have hsome : (table.get id).isSome = true := h
    simp [RowOp.offBy, occupied, hsome]

/-- All writes of a commit fit, each in its turn. -/
def Fit (table : Table) : List RowOp → Prop
  | [] => True
  | op :: ops => op.Fits table ∧ Fit (op.apply table) ops

/-- **A commit whose writers have read what is there contributes nothing.** -/
theorem Fit.offBy {table : Table} {ops : List RowOp} (h : Fit table ops) :
    offBy table ops = 0 := by
  induction ops generalizing table with
  | nil => rfl
  | cons op ops ih =>
    obtain ⟨hfirst, hrest⟩ := h
    rw [RecordCounter.offBy, hfirst.offBy, ih hrest, Int.add_zero]

/-- Two transactions that both found a row and delete it count it twice. -/
example (record : Value) : drifts opened [.commit [.insert firstId record],
    .count 0 ⟨none, false⟩, .commit [.insert secondId record], .count 0 ⟨none, false⟩,
    .commit [.delete firstId], .count 0 ⟨none, false⟩,
    .commit [.delete firstId], .count 0 ⟨none, false⟩] = -1 := rfl

end ShamirDb.RecordCounter
