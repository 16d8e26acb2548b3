/-
# Vectors staged by transactions

A transaction does not touch the graphs of its table's vector indexes.  Each write stages
the vectors of the new row in one list and vector deletes in another, both without the index
they are for; the commit then promotes the two lists into every vector index, all deletes
before all inserts.

The four ways a row is written differ in the deletes they stage: `delete_tx` stages one per
index under which the old row has a vector, `update_tx` one per index under which the old row
has a vector and the new one does not, `insert_tx` and the byte path `update_tx_bytes` none.

A row is seen as what an index can extract from its fields: a vector, or nothing.  A graph is
its live map from records to vectors; a batch with a vector of another dimension is refused
as a whole.  Transactions run one after the other.
-/
import ShamirDb.KeyedWrites
import ShamirDb.Machine

namespace ShamirDb.VectorStaging

open Machine KeyedWrites List Function

/-! ## Indexes and transactions -/

/-- The vectors a row carries, by field. -/
abbrev Row (F X : Type*) := F → Option (List X)

structure Index (F : Type*) where
  field : F
  dim : Nat
  deriving DecidableEq

/-- `staged_vector`: the vector at the index's field, if it has the index's dimension. -/
def Index.staged {F X : Type*} (index : Index F) (row : Row F X) : Option (List X) :=
  match row index.field with
  | some v => if v.length = index.dim then some v else none
  | none => none

/-- A transaction: the rows it sees from outside, those it wrote, and the two lists. -/
structure Tx (F X R : Type*) where
  base : R → Option (Row F X)
  writes : R → Option (Option (Row F X))
  vectors : List (R × List X)
  deletes : List R

/-- A vector index of the table with its graph. -/
structure Slot (F X R : Type*) where
  index : Index F
  graph : R → Option (List X)

structure Table (F X R : Type*) where
  rows : R → Option (Row F X)
  slots : List (Slot F X R)
  tx : Tx F X R
  /-- All promotes so far succeeded. -/
  promoted : Bool

inductive Op (F X R : Type*) where
  | insert (rid : R) (row : Row F X)
  | update (rid : R) (row : Row F X)
  | updateBytes (rid : R) (row : Row F X)
  | delete (rid : R)

inductive Event (F X R : Type*) where
  | op (op : Op F X R)
  | abort
  | commit

variable {F X R : Type*} [DecidableEq R]

namespace Tx

def start (rows : R → Option (Row F X)) : Tx F X R := ⟨rows, fun _ => none, [], []⟩

/-- `read_one_tx`: the transaction's own write, or the row from outside. -/
def read (tx : Tx F X R) (rid : R) : Option (Row F X) := (tx.writes rid).getD (tx.base rid)

def write (tx : Tx F X R) (rid : R) (row : Option (Row F X)) : Tx F X R :=
  { tx with writes := update tx.writes rid (some row) }

/-- `stage_vectors`. -/
def stageVectors (indexes : List (Index F)) (rid : R) (row : Row F X) (tx : Tx F X R) : Tx F X R :=
  { tx with vectors := tx.vectors ++ indexes.filterMap fun ix => (ix.staged row).map (rid, ·) }

/-- `stage_vector_delete`. -/
def stageVectorDelete (indexes : List (Index F)) (rid : R) (row : Row F X) (tx : Tx F X R) :
    Tx F X R :=
  { tx with deletes := tx.deletes ++
      (indexes.filter fun ix => (ix.staged row).isSome).map fun _ => rid }

/-- `stage_vector_deletes_on_update`. -/
def stageVectorDeletesOnUpdate (indexes : List (Index F)) (rid : R) (old new : Row F X)
    (tx : Tx F X R) : Tx F X R :=
  { tx with deletes := tx.deletes ++
      (indexes.filter fun ix => (ix.staged old).isSome && (ix.staged new).isNone).map fun _ => rid }

/-- One write.  An insert has a fresh record; the byte path needs an existing one. -/
def stage (indexes : List (Index F)) (tx : Tx F X R) : Op F X R → Tx F X R
  | .insert rid row =>
    match tx.read rid with
    | none => (tx.stageVectors indexes rid row).write rid (some row)
    | some _ => tx
  | .update rid row =>
    match tx.read rid with
    | some old => ((tx.stageVectors indexes rid row).stageVectorDeletesOnUpdate indexes rid old
        row).write rid (some row)
    | none => (tx.stageVectors indexes rid row).write rid (some row)
  | .updateBytes rid row =>
    match tx.read rid with
    | some _ => (tx.stageVectors indexes rid row).write rid (some row)
    | none => tx
  | .delete rid =>
    match tx.read rid with
    | some old => (tx.stageVectorDelete indexes rid old).write rid none
    | none => tx

def removals (tx : Tx F X R) : List (Write R (Option (List X))) :=
  tx.deletes.map fun rid => ⟨rid, none⟩

def upserts (tx : Tx F X R) : List (Write R (Option (List X))) :=
  tx.vectors.map fun x => ⟨x.1, some x.2⟩

end Tx

/-! ## Promotion -/

/-- `promote_graph_in_turn`: the deletes, then the batch of inserts, which is refused if a
vector has another dimension. -/
def Slot.promote (tx : Tx F X R) (slot : Slot F X R) : Slot F X R × Bool :=
  if tx.vectors.all fun x => x.2.length == slot.index.dim then
    ({ slot with graph := apply tx.upserts (apply tx.removals slot.graph) }, true)
  else ({ slot with graph := apply tx.removals slot.graph }, false)

/-- `apply_vector_graph_batch`: the indexes one after the other, up to the first error. -/
def promoteAll (tx : Tx F X R) : List (Slot F X R) → List (Slot F X R) × Bool
  | [] => ([], true)
  | slot :: rest =>
    match slot.promote tx with
    | (slot', true) => (slot' :: (promoteAll tx rest).1, (promoteAll tx rest).2)
    | (slot', false) => (slot' :: rest, false)

def Table.indexes (t : Table F X R) : List (Index F) := t.slots.map Slot.index

/-- The rows are committed whether or not the promotes succeed. -/
def step (t : Table F X R) : Event F X R → Table F X R
  | .op op => { t with tx := t.tx.stage t.indexes op }
  | .abort => { t with tx := Tx.start t.rows }
  | .commit =>
    { rows := t.tx.read
      slots := (promoteAll t.tx t.slots).1
      tx := Tx.start t.tx.read
      promoted := t.promoted && (promoteAll t.tx t.slots).2 }

/-- An empty table with its vector indexes. -/
def created (indexes : List (Index F)) : Table F X R :=
  ⟨fun _ => none, indexes.map fun ix => ⟨ix, fun _ => none⟩, Tx.start fun _ => none, true⟩

/-- Every index has a live vector for exactly the rows that carry one of its dimension at
its field, and it is that vector. -/
def Matches (t : Table F X R) : Prop :=
  ∀ slot ∈ t.slots, ∀ rid, slot.graph rid = (t.rows rid).bind slot.index.staged

/-! ## Orderly writes -/

/-- All indexes see the same in the row. -/
def Agree (indexes : List (Index F)) (row : Row F X) : Prop :=
  ∀ ix ∈ indexes, ∀ jx ∈ indexes, ix.staged row = jx.staged row

/-- No index sees a vector in the row. -/
def Bare (indexes : List (Index F)) (row : Row F X) : Prop :=
  ∀ ix ∈ indexes, ix.staged row = none

/-- The indexes agree on the new row; a row of which the transaction has staged a vector is
not left without one, and the byte path does not drop a vector. -/
def Orderly (t : Table F X R) : Event F X R → Prop
  | .op (.insert _ row) => Agree t.indexes row
  | .op (.update rid row) => Agree t.indexes row ∧
      (Bare t.indexes row → ∀ x ∈ t.tx.vectors, x.1 ≠ rid)
  | .op (.updateBytes rid row) => Agree t.indexes row ∧
      (Bare t.indexes row → (∀ x ∈ t.tx.vectors, x.1 ≠ rid) ∧
        ∀ old ∈ t.tx.read rid, Bare t.indexes old)
  | .op (.delete rid) => ∀ x ∈ t.tx.vectors, x.1 ≠ rid
  | .abort | .commit => True

instance [DecidableEq X] (indexes : List (Index F)) (row : Row F X) :
    Decidable (Agree indexes row) :=
  inferInstanceAs (Decidable (∀ ix ∈ indexes, ∀ jx ∈ indexes, ix.staged row = jx.staged row))

instance [DecidableEq X] (indexes : List (Index F)) (row : Row F X) :
    Decidable (Bare indexes row) :=
  inferInstanceAs (Decidable (∀ ix ∈ indexes, ix.staged row = none))

instance decidableOrderly [DecidableEq X] (t : Table F X R) : ∀ e, Decidable (Orderly t e)
  | .op (.insert _ row) => inferInstanceAs (Decidable (Agree t.indexes row))
  | .op (.update rid row) => inferInstanceAs (Decidable (Agree t.indexes row ∧
      (Bare t.indexes row → ∀ x ∈ t.tx.vectors, x.1 ≠ rid)))
  | .op (.updateBytes rid row) => inferInstanceAs (Decidable (Agree t.indexes row ∧
      (Bare t.indexes row → (∀ x ∈ t.tx.vectors, x.1 ≠ rid) ∧
        ∀ old ∈ t.tx.read rid, Bare t.indexes old)))
  | .op (.delete rid) => inferInstanceAs (Decidable (∀ x ∈ t.tx.vectors, x.1 ≠ rid))
  | .abort => isTrue trivial
  | .commit => isTrue trivial

/-! ## What the lists of a transaction say -/

/-- The two lists as they are promoted: for each record the last entry counts. -/
def Tx.promotion (tx : Tx F X R) : List (Write R (Option (List X))) := tx.removals ++ tx.upserts

/-- Of a transaction under way: the lists lead from the committed vectors to those of the
rows it sees. -/
structure TxOk (indexes : List (Index F)) (rows : R → Option (Row F X)) (tx : Tx F X R) : Prop where
  base : tx.base = rows
  agree : ∀ rid, ∀ row ∈ tx.read rid, Agree indexes row
  dims : ∀ x ∈ tx.vectors, ∀ ix ∈ indexes, x.2.length = ix.dim
  leads : ∀ ix ∈ indexes, ∀ rid, (tx.read rid).bind ix.staged =
    (last rid tx.promotion).getD ((rows rid).bind ix.staged)

variable {indexes : List (Index F)} {rows : R → Option (Row F X)} {tx : Tx F X R} {rid : R}

/-- A transaction reads what it wrote. -/
theorem read_write_self (tx : Tx F X R) (rid : R) (row : Option (Row F X)) :
    (tx.write rid row).read rid = row := by
  simp [Tx.read, Tx.write]

/-- Other rows are read as before. -/
theorem read_write_of_ne {other : R} (h : other ≠ rid) (tx : Tx F X R) (row : Option (Row F X)) :
    (tx.write rid row).read other = tx.read other := by
  simp [Tx.read, Tx.write, update_of_ne h]

/-- Writes that all give one record the same value. -/
theorem last_const {β : Type*} {k : R} {b : β} {ws : List (Write R β)} (hne : ws ≠ [])
    (h : ∀ w ∈ ws, w = ⟨k, b⟩) : last k ws = some b := by
  induction ws with
  | nil => exact absurd rfl hne
  | cons w ws ih =>
    obtain rfl := h w mem_cons_self
    have hcons : last k ((⟨k, b⟩ : Write R β) :: ws) = some ((last k ws).getD b) :=
      last_cons_self (⟨k, b⟩ : Write R β) ws
    rw [hcons]
    cases ws with
    | nil => rfl
    | cons u us =>
      rw [ih (by simp) fun x hx => h x (mem_cons_of_mem _ hx)]
      rfl

/-- The transaction with more entries in its lists. -/
def Tx.extend (tx : Tx F X R) (vs : List (R × List X)) (ds : List R) : Tx F X R :=
  { tx with vectors := tx.vectors ++ vs, deletes := tx.deletes ++ ds }

omit [DecidableEq R] in
/-- Nothing is staged. -/
theorem extend_nil (tx : Tx F X R) : tx.extend [] [] = tx := by
  simp [Tx.extend]

variable {row : Row F X} {old : Row F X} {v : List X} {t : Table F X R} {ds : List R}

/-- **One write of `rid`**, with the entries it adds for it. -/
theorem TxOk.extend (h : TxOk indexes rows tx) {vs : List (R × List X)} {row : Option (Row F X)}
    (hvs : ∀ x ∈ vs, x.1 = rid) (hds : ∀ r ∈ ds, r = rid) (hagree : ∀ r ∈ row, Agree indexes r)
    (hdims : ∀ x ∈ vs, ∀ ix ∈ indexes, x.2.length = ix.dim)
    (hlast : ∀ ix ∈ indexes, row.bind ix.staged =
      (last rid (tx.extend vs ds).promotion).getD ((rows rid).bind ix.staged)) :
    TxOk indexes rows ((tx.extend vs ds).write rid row) := by
  constructor
  · exact h.base
  · intro other r hr
    by_cases ho : other = rid
    · subst ho
      rw [read_write_self] at hr
      exact hagree r hr
    · rw [read_write_of_ne ho] at hr
      exact h.agree other r hr
  · exact forall_mem_append.2 ⟨h.dims, hdims⟩
  · intro ix hix other
    by_cases ho : other = rid
    · subst ho
      rw [read_write_self]
      exact hlast ix hix
    have hnov : last other (vs.map fun x => (⟨x.1, some x.2⟩ : Write R (Option (List X)))) =
        none := by
      rw [last_eq_none_iff]
      intro w hw
      obtain ⟨x, hx, rfl⟩ := mem_map.1 hw
      exact fun heq => ho (heq.symm.trans (hvs x hx))
    have hnod : last other (ds.map fun r => (⟨r, none⟩ : Write R (Option (List X)))) = none := by
      rw [last_eq_none_iff]
      intro w hw
      obtain ⟨r, hr, rfl⟩ := mem_map.1 hw
      exact fun heq => ho (heq.symm.trans (hds r hr))
    have hsame : last other ((tx.extend vs ds).write rid row).promotion =
        last other tx.promotion := by
      simp only [Tx.promotion, Tx.removals, Tx.upserts, Tx.extend, Tx.write, map_append,
        last_append, hnov, hnod, Option.none_or]
    rw [read_write_of_ne ho, hsame]
    exact h.leads ix hix other

omit [DecidableEq R] in
/-- Indexes that agree see no vector, or all the same. -/
theorem agree_cases (h : Agree indexes row) :
    Bare indexes row ∨ indexes ≠ [] ∧ ∃ v, ∀ ix ∈ indexes, ix.staged row = some v := by
  cases indexes with
  | nil => exact .inl fun ix hix => absurd hix (by simp)
  | cons jx rest =>
    cases hj : jx.staged row with
    | none => exact .inl fun ix hix => (h ix hix jx mem_cons_self).trans hj
    | some v =>
      exact .inr ⟨by simp, v, fun ix hix => (h ix hix jx mem_cons_self).trans hj⟩

omit [DecidableEq R] in
/-- A staged vector has the dimension of the index. -/
theorem staged_length {ix : Index F} (h : ix.staged row = some v) : v.length = ix.dim := by
  rw [Index.staged] at h
  split at h
  · split at h
    · rename_i hlen
      rw [← Option.some.inj h]
      exact hlen
    · simp at h
  · simp at h

/-- What `stage_vectors` adds for a row. -/
def stagedOf (indexes : List (Index F)) (rid : R) (row : Row F X) : List (R × List X) :=
  indexes.filterMap fun ix => (ix.staged row).map (rid, ·)

section

omit [DecidableEq R]

/-- Staged vectors are those of the row. -/
theorem stagedOf_key {x : R × List X} (hx : x ∈ stagedOf indexes rid row) : x.1 = rid := by
  obtain ⟨ix, -, hmap⟩ := mem_filterMap.1 hx
  obtain ⟨v, -, rfl⟩ := Option.map_eq_some_iff.1 hmap
  rfl

/-- A row without a vector stages none. -/
theorem stagedOf_bare (h : Bare indexes row) : stagedOf indexes rid row = [] := by
  rw [stagedOf, filterMap_eq_nil_iff]
  intro ix hix
  rw [h ix hix]
  rfl

/-- All staged vectors of a row are the same. -/
theorem stagedOf_eq (h : ∀ ix ∈ indexes, ix.staged row = some v) {x : R × List X}
    (hx : x ∈ stagedOf indexes rid row) : x = (rid, v) := by
  obtain ⟨ix, hix, hmap⟩ := mem_filterMap.1 hx
  rw [h ix hix] at hmap
  exact (Option.some.inj hmap).symm

end

section

variable (h : TxOk indexes rows tx)
include h

/-- **A row with a vector** is written: it is the last one staged for the record. -/
theorem TxOk.writeVector (hne : indexes ≠ []) (hv : ∀ ix ∈ indexes, ix.staged row = some v)
    (hds : ∀ r ∈ ds, r = rid) :
    TxOk indexes rows ((tx.extend (stagedOf indexes rid row) ds).write rid (some row)) := by
  refine h.extend (fun x hx => stagedOf_key hx) hds ?_ ?_ ?_
  · intro r hr ix hix jx hjx
    obtain rfl : row = r := Option.some.inj hr
    rw [hv ix hix, hv jx hjx]
  · intro x hx ix hix
    rw [stagedOf_eq hv hx]
    exact staged_length (hv ix hix)
  intro ix hix
  have hnonempty : stagedOf indexes rid row ≠ [] := by
    obtain ⟨jx, hjx⟩ := exists_mem_of_ne_nil _ hne
    apply ne_nil_of_mem
    exact mem_filterMap.2 ⟨jx, hjx, by rw [hv jx hjx]; rfl⟩
  have hlast : last rid ((stagedOf indexes rid row).map fun x =>
      (⟨x.1, some x.2⟩ : Write R (Option (List X)))) = some (some v) := by
    apply last_const (by simpa using hnonempty)
    intro w hw
    obtain ⟨x, hx, rfl⟩ := mem_map.1 hw
    rw [stagedOf_eq hv hx]
  have hprom : last rid (tx.extend (stagedOf indexes rid row) ds).promotion = some (some v) := by
    simp only [Tx.promotion, Tx.upserts, Tx.extend, map_append, last_append,
      hlast, Option.some_or]
  rw [hprom]
  exact hv ix hix

/-- The record is left without a vector, and had none. -/
theorem TxOk.writeBare {row : Option (Row F X)}
    (hold : ∀ ix ∈ indexes, (tx.read rid).bind ix.staged = none)
    (hnew : ∀ r ∈ row, Bare indexes r) : TxOk indexes rows (tx.write rid row) := by
  rw [← extend_nil tx]
  refine h.extend (by simp) (by simp) (fun r hr ix hix jx hjx => ?_) (by simp) fun ix hix => ?_
  · rw [hnew r hr ix hix, hnew r hr jx hjx]
  · rw [extend_nil, ← h.leads ix hix rid, hold ix hix]
    cases row with
    | none => rfl
    | some r => exact hnew r rfl ix hix

/-- A row without a vector, after a staged delete. -/
theorem TxOk.writeDropped {row : Option (Row F X)} (hnew : ∀ r ∈ row, Bare indexes r)
    (hds : ∀ r ∈ ds, r = rid) (hne : ds ≠ []) (hfirst : ∀ x ∈ tx.vectors, x.1 ≠ rid) :
    TxOk indexes rows ((tx.extend [] ds).write rid row) := by
  refine h.extend (by simp) hds (fun r hr ix hix jx hjx => ?_) (by simp) ?_
  · rw [hnew r hr ix hix, hnew r hr jx hjx]
  intro ix hix
  have hups : last rid tx.upserts = none := by
    rw [last_eq_none_iff]
    intro w hw
    obtain ⟨x, hx, rfl⟩ := mem_map.1 hw
    exact hfirst x hx
  have hlast : last rid (ds.map fun r => (⟨r, none⟩ : Write R (Option (List X)))) =
      some none := by
    apply last_const (by simpa using hne)
    intro w hw
    obtain ⟨r, hr, rfl⟩ := mem_map.1 hw
    rw [hds r hr]
  have hprom : last rid (tx.extend [] ds).promotion = some none := by
    rw [Tx.upserts] at hups
    simp only [Tx.promotion, Tx.removals, Tx.upserts, Tx.extend, map_append,
      append_nil, last_append, hups, hlast, Option.none_or, Option.some_or]
  rw [hprom]
  cases row with
  | none => rfl
  | some r => exact hnew r rfl ix hix

end

/-- What `stage_vector_deletes_on_update` adds. -/
def droppedOf (indexes : List (Index F)) (rid : R) (old new : Row F X) : List R :=
  (indexes.filter fun ix => (ix.staged old).isSome && (ix.staged new).isNone).map fun _ => rid

def deletedOf (indexes : List (Index F)) (rid : R) (old : Row F X) : List R :=
  (indexes.filter fun ix => (ix.staged old).isSome).map fun _ => rid

section

omit [DecidableEq R]

/-- Staged deletes are those of the row. -/
theorem deletedOf_key {r : R} (hr : r ∈ deletedOf indexes rid old) : r = rid := by
  obtain ⟨ix, -, rfl⟩ := mem_map.1 hr
  rfl

/-- Likewise at an update. -/
theorem droppedOf_key {old new : Row F X} {r : R} (hr : r ∈ droppedOf indexes rid old new) :
    r = rid := by
  obtain ⟨ix, -, rfl⟩ := mem_map.1 hr
  rfl

/-- An update that drops the vector deletes it. -/
theorem droppedOf_bare {old new : Row F X} (h : Bare indexes new) :
    droppedOf indexes rid old new = deletedOf indexes rid old := by
  rw [droppedOf]
  congr 1
  apply filter_congr
  intro ix hix
  rw [h ix hix]
  simp

/-- A row without a vector has none to delete. -/
theorem deletedOf_bare (h : Bare indexes old) : deletedOf indexes rid old = [] := by
  rw [deletedOf, map_eq_nil_iff, filter_eq_nil_iff]
  intro ix hix
  rw [h ix hix]
  simp

/-- One with a vector has. -/
theorem deletedOf_ne_nil (hne : indexes ≠ []) (h : ∀ ix ∈ indexes, ix.staged old = some v) :
    deletedOf indexes rid old ≠ [] := by
  obtain ⟨jx, hjx⟩ := exists_mem_of_ne_nil _ hne
  apply ne_nil_of_mem
  refine mem_map.2 ⟨jx, mem_filter.2 ⟨hjx, ?_⟩, rfl⟩
  rw [h jx hjx]
  rfl

end

/-- A row loses its vector. -/
theorem TxOk.writeGone (h : TxOk indexes rows tx) {row : Option (Row F X)}
    (hold : tx.read rid = some old) (hnew : ∀ r ∈ row, Bare indexes r)
    (hfirst : ∀ x ∈ tx.vectors, x.1 ≠ rid) :
    TxOk indexes rows ((tx.extend [] (deletedOf indexes rid old)).write rid row) := by
  rcases agree_cases (h.agree rid old hold) with hbare | ⟨hne, v, hv⟩
  · rw [deletedOf_bare hbare, extend_nil]
    refine h.writeBare (fun ix hix => ?_) hnew
    rw [hold]
    exact hbare ix hix
  · exact h.writeDropped hnew (fun r hr => deletedOf_key hr) (deletedOf_ne_nil hne hv) hfirst

/-- A row gets a vector. -/
theorem TxOk.writeNew (h : TxOk indexes rows tx) (hagree : Agree indexes row)
    (hold : Bare indexes row → ∀ ix ∈ indexes, (tx.read rid).bind ix.staged = none) :
    TxOk indexes rows ((tx.stageVectors indexes rid row).write rid (some row)) := by
  have hext : tx.stageVectors indexes rid row = tx.extend (stagedOf indexes rid row) [] := by
    simp [Tx.stageVectors, Tx.extend, stagedOf]
  rw [hext]
  rcases agree_cases hagree with hbare | ⟨hne, v, hv⟩
  · rw [stagedOf_bare hbare, extend_nil]
    refine h.writeBare (hold hbare) ?_
    rintro r ⟨⟩
    exact hbare
  · exact h.writeVector hne hv (by simp)

/-- **An orderly write** keeps the lists in step with the rows. -/
theorem TxOk.stage (h : TxOk t.indexes rows t.tx) {op : Op F X R} (hop : Orderly t (.op op)) :
    TxOk t.indexes rows (t.tx.stage t.indexes op) := by
  cases op with
  | insert rid row =>
    rw [Tx.stage]
    split
    case h_1 hread => exact h.writeNew hop fun _ ix _ => by rw [hread]; rfl
    case h_2 => exact h
  | update rid row =>
    obtain ⟨hagree, hfirst⟩ := hop
    rw [Tx.stage]
    split
    case h_1 old hread =>
      have hext : (t.tx.stageVectors t.indexes rid row).stageVectorDeletesOnUpdate t.indexes rid
          old row = t.tx.extend (stagedOf t.indexes rid row) (droppedOf t.indexes rid old row) := rfl
      rw [hext]
      rcases agree_cases hagree with hbare | ⟨hne, v, hv⟩
      · rw [stagedOf_bare hbare, droppedOf_bare hbare]
        refine h.writeGone hread ?_ (hfirst hbare)
        rintro r ⟨⟩
        exact hbare
      · exact h.writeVector hne hv fun r hr => droppedOf_key hr
    case h_2 hread => exact h.writeNew hagree fun _ ix _ => by rw [hread]; rfl
  | updateBytes rid row =>
    obtain ⟨hagree, hdrop⟩ := hop
    rw [Tx.stage]
    split
    case h_1 old hread =>
      refine h.writeNew hagree fun hbare ix hix => ?_
      rw [hread]
      exact (hdrop hbare).2 old hread ix hix
    case h_2 => exact h
  | delete rid =>
    rw [Tx.stage]
    split
    case h_1 old hread =>
      have hext : t.tx.stageVectorDelete t.indexes rid old =
          t.tx.extend [] (deletedOf t.indexes rid old) := by
        simp [Tx.stageVectorDelete, Tx.extend, deletedOf]
      rw [hext]
      exact h.writeGone hread (by simp) hop
    case h_2 => exact h

/-- A new transaction. -/
theorem TxOk.start (hagree : ∀ rid, ∀ row ∈ rows rid, Agree indexes row) :
    TxOk indexes rows (Tx.start rows) :=
  ⟨rfl, hagree, by simp [Tx.start], fun _ _ _ => rfl⟩

/-! ## Commits -/

/-- All staged vectors fit and are promoted. -/
theorem promoteAll_eq {slots : List (Slot F X R)}
    (h : ∀ x ∈ tx.vectors, ∀ slot ∈ slots, x.2.length = slot.index.dim) :
    promoteAll tx slots =
      (slots.map fun slot => { slot with graph := apply tx.promotion slot.graph }, true) := by
  induction slots with
  | nil => rfl
  | cons slot rest ih =>
    have hdims : (tx.vectors.all fun x => x.2.length == slot.index.dim) = true := by
      rw [all_eq_true]
      intro x hx
      exact beq_iff_eq.2 (h x hx slot mem_cons_self)
    have hrest := ih fun x hx u hu => h x hx u (mem_cons_of_mem _ hu)
    rw [promoteAll, Slot.promote, if_pos hdims]
    simp only [hrest, map_cons, Tx.promotion, apply_append]

/-- The table between two steps. -/
structure Inv (t : Table F X R) : Prop where
  tx : TxOk t.indexes t.rows t.tx
  agree : ∀ rid, ∀ row ∈ t.rows rid, Agree t.indexes row
  matched : Matches t
  promoted : t.promoted = true

/-- A commit. -/
theorem Inv.commit (h : Inv t) : Inv (step t .commit) := by
  have hdims : ∀ x ∈ t.tx.vectors, ∀ slot ∈ t.slots, x.2.length = slot.index.dim :=
    fun x hx slot hslot => h.tx.dims x hx slot.index (mem_map.2 ⟨slot, hslot, rfl⟩)
  have hpromote := promoteAll_eq hdims
  have hindexes : (step t .commit).indexes = t.indexes := by
    rw [Table.indexes, step]
    simp only [hpromote, map_map]
    rfl
  have hagree : ∀ rid, ∀ row ∈ t.tx.read rid, Agree (step t .commit).indexes row := by
    rw [hindexes]
    exact h.tx.agree
  refine ⟨TxOk.start hagree, hagree, ?_, ?_⟩
  · intro slot hslot rid
    rw [step, hpromote] at hslot
    obtain ⟨old, hold, rfl⟩ := mem_map.1 hslot
    show apply t.tx.promotion old.graph rid = (t.tx.read rid).bind old.index.staged
    rw [apply_eq, h.matched old hold rid, h.tx.leads old.index (mem_map.2 ⟨old, hold, rfl⟩) rid]
  · rw [step]
    simp only [hpromote, h.promoted, Bool.and_self]

/-- **One orderly step.** -/
theorem Inv.step (h : Inv t) {e : Event F X R} (he : Orderly t e) : Inv (step t e) := by
  cases e with
  | op op => exact ⟨h.tx.stage he, h.agree, h.matched, h.promoted⟩
  | abort => exact ⟨TxOk.start h.agree, h.agree, h.matched, h.promoted⟩
  | commit => exact h.commit

/-- A new table. -/
theorem created_inv (indexes : List (Index F)) : Inv (created indexes : Table F X R) := by
  refine ⟨TxOk.start (by simp [created]), by simp [created], ?_, rfl⟩
  intro slot hslot rid
  obtain ⟨ix, -, rfl⟩ := mem_map.1 hslot
  rfl

/-- **Vector indexes match the committed rows.**  In a run of orderly steps every promote
succeeds, and every index of the table has a live vector for exactly the committed rows that
carry one of its dimension at its field, namely that vector. -/
theorem vector_indexes_match (indexes : List (Index F)) (es : List (Event F X R))
    (hes : Along step Orderly (created indexes) es) :
    (run step (created indexes) es).promoted = true ∧ Matches (run step (created indexes) es) := by
  have hinv : Inv (run step (created indexes) es) :=
    along_invariant (fun _ _ h he => h.step he) (created_inv indexes) hes
  exact ⟨hinv.promoted, hinv.matched⟩

/-- A row with the vectors `v` at field 0 and `w` at field 1. -/
def vectorRow (v w : Option (List Nat)) : Row Nat Nat :=
  fun field => if field = 0 then v else if field = 1 then w else none

/-- Two transactions: an insert that is changed at once, and later a replacement of one row and
the removal of another one. -/
def orderlyRun : List (Event Nat Nat Nat) :=
  [.op (.insert 1 (vectorRow (some [1, 2]) none)), .op (.updateBytes 1 (vectorRow (some [3, 4]) none)),
    .op (.insert 2 (vectorRow (some [5, 6]) none)), .commit,
    .op (.delete 2), .op (.delete 1), .op (.update 1 (vectorRow (some [7, 8]) none)), .commit]

/-- A vector that is replaced in a later transaction is the one in the graph. -/
theorem vector_indexes_match_replaced :
    (run step (created [⟨0, 2⟩]) orderlyRun).slots.map (fun slot => slot.graph 1) =
      [some [7, 8]] ∧
    Matches (run step (created [⟨0, 2⟩]) orderlyRun) :=
  ⟨by decide, (vector_indexes_match [⟨0, 2⟩] orderlyRun (by decide)).2⟩

/-- Three runs whose promotes all succeed: a row inserted and deleted in one transaction, a
vector dropped over the byte path, and a row with two vectors under two indexes. -/
theorem vector_indexes_differ :
    (let t := run step (created [⟨0, 2⟩] : Table Nat Nat Nat)
      [.op (.insert 1 (vectorRow (some [1, 2]) none)), .op (.delete 1), .commit]
     t.promoted = true ∧ (t.rows 1).isNone = true ∧
      t.slots.map (fun slot => slot.graph 1) = [some [1, 2]]) ∧
    (let t := run step (created [⟨0, 2⟩] : Table Nat Nat Nat)
      [.op (.insert 1 (vectorRow (some [1, 2]) none)), .commit,
        .op (.updateBytes 1 (vectorRow none none)), .commit]
     t.promoted = true ∧ (t.rows 1).bind (Index.staged ⟨0, 2⟩) = none ∧
      t.slots.map (fun slot => slot.graph 1) = [some [1, 2]]) ∧
    (let t := run step (created [⟨0, 2⟩, ⟨1, 2⟩] : Table Nat Nat Nat)
      [.op (.insert 1 (vectorRow (some [1, 2]) (some [3, 4]))), .commit]
     t.promoted = true ∧ (t.rows 1).bind (Index.staged ⟨0, 2⟩) = some [1, 2] ∧
      t.slots.map (fun slot => slot.graph 1) = [some [3, 4], some [3, 4]]) := by
  decide

end ShamirDb.VectorStaging
