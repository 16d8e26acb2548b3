/-
# The pages of a past version

A seek AS OF a version that ends with a page has walked the postings of that version: while the
counter is not above the version the index mirrors it, and so each posting the walk meets is
the next one of the version.  Where the order of the index agrees with the comparison of the
query, the rows of the walk are the page that the full scan at the version would cut.
-/
import ShamirDb.AsOfMirror

namespace ShamirDb.AsOf

open Machine List Option
open Query

variable {d : SortedDef} {s s' : System} {direction : OrderDirection} {a b c k : Bytes}
  {keys : List Bytes}

/-! ## The order of the walk -/

theorem keyBefore_irrefl (k : Bytes) : keyBefore direction k k = false := by
  cases direction <;> exact decide_eq_false (List.lt_irrefl k)

theorem keyBefore_trans (hab : keyBefore direction a b = true)
    (hbc : keyBefore direction b c = true) : keyBefore direction a c = true := by
  cases direction with
  | asc => exact decide_eq_true (List.lt_trans (of_decide_eq_true hab) (of_decide_eq_true hbc))
  | desc => exact decide_eq_true (List.lt_trans (of_decide_eq_true hbc) (of_decide_eq_true hab))

theorem keyBefore_asymm (hab : keyBefore direction a b = true) : keyBefore direction b a = false := by
  by_contra hba
  have htrans := keyBefore_trans hab (Bool.not_eq_false _ ▸ hba)
  simp [keyBefore_irrefl] at htrans

/-- The order of the keys is total. -/
theorem keyBefore_total (hab : keyBefore direction a b = false)
    (hba : keyBefore direction b a = false) : a = b := by
  have hle : ∀ {x y : Bytes}, decide (x < y) = false → y ≤ x := fun h =>
    List.not_lt.1 (of_decide_eq_false h)
  cases direction with
  | asc => exact List.le_antisymm (hle hba) (hle hab)
  | desc => exact List.le_antisymm (hle hab) (hle hba)

/-- A key that is not past `b` comes before what is past `b`. -/
theorem keyBefore_of_not (hab : keyBefore direction b a = false)
    (hbc : keyBefore direction b c = true) : keyBefore direction a c = true := by
  cases h : keyBefore direction a b with
  | true => exact keyBefore_trans h hbc
  | false =>
    rw [keyBefore_total h hab]
    exact hbc

/-- The order of the keys is that of the rows. -/
theorem keyBefore_iff {a b : Row} {k' : Bytes} (ha : d.posting a = some k)
    (hb : d.posting b = some k') : keyBefore direction k k' = true ↔ d.Before direction a b := by
  cases direction with
  | asc => exact (decide_eq_true_iff).trans (posting_lt_iff ha hb)
  | desc => exact (decide_eq_true_iff).trans (posting_lt_iff hb ha)

theorem firstKey_eq_none (h : firstKey direction keys = none) : keys = [] := by
  cases keys with
  | nil => rfl
  | cons k keys =>
    rw [firstKey] at h
    split at h <;> simp at h

/-- The first key comes before all others. -/
theorem firstKey_eq_some (h : firstKey direction keys = some k) :
    k ∈ keys ∧ ∀ k' ∈ keys, keyBefore direction k' k = false := by
  induction keys generalizing k with
  | nil => simp [firstKey] at h
  | cons x keys ih =>
    rw [firstKey] at h
    cases hrest : firstKey direction keys with
    | none =>
      rw [hrest, some.injEq] at h
      subst h
      rw [firstKey_eq_none hrest]
      refine ⟨mem_singleton_self _, fun k' hk' => ?_⟩
      rw [mem_singleton.1 hk', keyBefore_irrefl]
    | some y =>
      obtain ⟨hmem, hleast⟩ := ih hrest
      simp only [hrest, some.injEq] at h
      by_cases hyx : keyBefore direction y x = true
      · rw [if_pos hyx] at h
        subst h
        refine ⟨mem_cons_of_mem _ hmem, fun k' hk' => ?_⟩
        rcases mem_cons.1 hk' with rfl | hk'
        · exact keyBefore_asymm hyx
        · exact hleast k' hk'
      · rw [if_neg hyx] at h
        subst h
        refine ⟨mem_cons_self, fun k' hk' => ?_⟩
        rcases mem_cons.1 hk' with rfl | hk'
        · exact keyBefore_irrefl _
        · by_contra hk
          rw [Bool.not_eq_false] at hk
          exact hyx (keyBefore_of_not (hleast k' hk') hk)

/-! ## The rows of a version -/

/-- The row has that value at the version. -/
abbrev HasRow (s : System) (v : Nat) (row : Row) : Prop := s.valueAt v row.1 = some row.2

variable {key : Bytes} {row : Row} {v i : Nat}

/-- The rows of a version. -/
theorem mem_rowsAt : row ∈ s.rowsAt v ↔ HasRow s v row := by
  obtain ⟨id, r⟩ := row
  rw [System.rowsAt, mem_filterMap]
  constructor
  · rintro ⟨id', -, hid'⟩
    obtain ⟨r', hr', heq⟩ := map_eq_some_iff.1 hid'
    obtain ⟨rfl, rfl⟩ := Prod.mk.inj heq
    exact hr'
  intro h
  refine ⟨id, ?_, by rw [show s.valueAt v id = some r from h]; rfl⟩
  rw [System.ids, mem_dedup, mem_append, mem_flatMap]
  -- the value was there at the start, or a commit gave it
  rcases OverwriteLog.value_cases Commit.newValue s.base.get
    (s.commits.filter fun c => decide (c.version ≤ v)) id with hbase | ⟨c, hc, hnew⟩
  · have hget : s.base.get id = some r := hbase.symm.trans h
    exact .inl (mem_map_of_mem (s.base.get_eq_some.1 hget))
  · obtain ⟨front, back, hrows, -⟩ := lookup_eq_some_iff.1 hnew
    refine .inr ⟨c, (mem_filter.1 hc).1, ?_⟩
    rw [hrows]
    simp

/-- No row is listed twice. -/
theorem nodup_rowsAt (s : System) (v : Nat) : (s.rowsAt v).Nodup := by
  refine List.Nodup.filterMap ?_ (nodup_dedup _)
  intro id id' row hid hid'
  obtain ⟨r, -, rfl⟩ := map_eq_some_iff.1 hid
  obtain ⟨r', -, heq⟩ := map_eq_some_iff.1 hid'
  exact (Prod.mk.inj heq).1.symm

/-! ## The walk -/

/-- The walk is not past the key. -/
def Seek.Reached (seek : Seek) (key : Bytes) : Prop :=
  ∃ cur, seek.cursor = some cur ∧ keyBefore seek.query.order.direction cur key = false

/-- The rows of a walk are those of the version up to the cursor. -/
structure Walked (d : SortedDef) (s : System) (seek : Seek) : Prop where
  ordered : seek.matched.Pairwise (d.Before seek.query.order.direction)
  members : ∀ row, row ∈ seek.matched ↔ HasRow s seek.version row ∧ ∃ key,
    d.posting row = some key ∧ inRange d.name seek.encoded seek.query key = true ∧ seek.Reached key
  complete : seek.exhausted = true → ∀ row, HasRow s seek.version row → ∀ key,
    d.posting row = some key → inRange d.name seek.encoded seek.query key = true → seek.Reached key

/-- What a run keeps about a seek. -/
structure SeekOk (d : SortedDef) (s : System) (seek : Seek) : Prop where
  visible : s.Visible seek.version
  short : seek.matched.length ≤ seek.query.limit
  running : seek.outcome = none → seek.flagged = false → s.counter ≤ seek.version → Walked d s seek
  ended : ∀ page, seek.outcome = some (.page page) → page = seek.matched ∧ Walked d s seek ∧
    (seek.exhausted = true ∨ seek.matched.length = seek.query.limit)

/-- **The page of a walk** is the page of the full scan, if the orders agree. -/
theorem Walked.isPage {seek : Seek} (h : Walked d s seek)
    (hshort : seek.matched.length ≤ seek.query.limit)
    (hend : seek.exhausted = true ∨ seek.matched.length = seek.query.limit)
    (hagrees : Agrees d seek.query seek.encoded (s.rowsAt seek.version)) :
    SortedPages.IsPage seek.query.order.After ((s.rowsAt seek.version).filter seek.query.past) 0
      seek.query.limit seek.matched := by
  have hnodup : seek.matched.Nodup := h.ordered.imp fun hab heq => by
    subst heq
    exact hab.asymm hab
  have hrows := (nodup_rowsAt s seek.version).filter seek.query.past
  have hmem : ∀ row, row ∈ (s.rowsAt seek.version).filter seek.query.past ↔
      HasRow s seek.version row ∧ ∃ key, d.posting row = some key ∧
        inRange d.name seek.encoded seek.query key = true := by
    intro row
    rw [mem_filter, mem_rowsAt]
    exact and_congr_right fun hrow => hagrees.past row (mem_rowsAt.2 hrow)
  have hbefore : ∀ a ∈ (s.rowsAt seek.version).filter seek.query.past,
      ∀ b ∈ (s.rowsAt seek.version).filter seek.query.past,
        d.Before seek.query.order.direction a b → ¬ seek.query.order.After a b := by
    intro a ha b hb
    obtain ⟨ha, hpa⟩ := mem_filter.1 ha
    obtain ⟨hb, hpb⟩ := mem_filter.1 hb
    exact hagrees.ordered a ha b hb hpa hpb
  generalize (s.rowsAt seek.version).filter seek.query.past = rows at *
  have hsub : ∀ row ∈ seek.matched, row ∈ rows := by
    intro row hrow
    obtain ⟨hhas, key, hkey, hin, -⟩ := (h.members row).1 hrow
    exact (hmem row).2 ⟨hhas, key, hkey, hin⟩
  have htake : seek.matched.take seek.query.limit = seek.matched := take_of_length_le hshort
  have hleads : SortedPages.Leads seek.query.order.After rows seek.query.limit seek.matched := by
    refine ⟨?_, ?_, ?_⟩
    · rcases hend with hend | hend
      · -- at the end of the range all rows have been met
        have hall : ∀ row ∈ rows, row ∈ seek.matched := by
          intro row hrow
          obtain ⟨hhas, key, hkey, hin⟩ := (hmem row).1 hrow
          exact (h.members row).2 ⟨hhas, key, hkey, hin, h.complete hend row hhas key hkey hin⟩
        have := (subperm_of_subset hrows hall).length_le
        omega
      · omega
    · rw [htake]
      exact h.ordered.imp_of_mem fun ha hb => hbefore _ (hsub _ ha) _ (hsub _ hb)
    · rw [htake]
      intro a ha b hb hnot
      obtain ⟨-, key, hkey, -, cur, hcur, hreached⟩ := (h.members a).1 ha
      obtain ⟨hhas, key', hkey', hin'⟩ := (hmem b).1 hb
      -- the walk has not come to `b` yet
      have hpast : keyBefore seek.query.order.direction cur key' = true := by
        by_contra hnotPast
        rw [Bool.not_eq_true] at hnotPast
        exact hnot ((h.members b).2 ⟨hhas, key', hkey', hin', cur, hcur, hnotPast⟩)
      exact hbefore a (hsub a ha) b hb
        ((keyBefore_iff hkey hkey').1 (keyBefore_of_not hreached hpast))
  have hpage := hleads.isPage hrows hnodup hsub (Nat.zero_add seek.query.limit).le
  rwa [drop_zero, htake] at hpage

/-! ## One posting of the walk -/

/-- The postings that the walk may meet next. -/
def candidates (d : SortedDef) (s : System) (seek : Seek) : List Bytes :=
  s.keys.filter fun k => inRange d.name seek.encoded seek.query k &&
    seek.cursor.all fun cur => keyBefore seek.query.order.direction cur k

/-- A candidate is in range and not reached. -/
theorem mem_candidates {seek : Seek} : key ∈ candidates d s seek ↔
    key ∈ s.keys ∧ inRange d.name seek.encoded seek.query key = true ∧ ¬ seek.Reached key := by
  rw [candidates]
  unfold Seek.Reached
  cases seek.cursor with
  | none => simp
  | some cur => simp

/-- While the index mirrors the version, its postings are those of the rows. -/
theorem Mirrors.mem_keys (h : Mirrors d s v) (hrow : HasRow s v row)
    (hkey : d.posting row = some key) : key ∈ s.keys := by
  refine (h key).2 ⟨row.1, ?_⟩
  rw [hrow]
  exact hkey

/-- A key of the mirror belongs to a row. -/
theorem Mirrors.exists_row (h : Mirrors d s v) (hkey : key ∈ s.keys) :
    ∃ row, HasRow s v row ∧ d.posting row = some key := by
  obtain ⟨id, hpost⟩ := (h key).1 hkey
  obtain ⟨r, hr, hpost⟩ := bind_eq_some_iff.1 hpost
  exact ⟨(id, r), hr, hpost⟩

section

variable {seek : Seek} (h : Walked d s seek) (hmirrors : Mirrors d s seek.version)
include h hmirrors

/-- At the end of the range every row has been reached. -/
theorem Walked.exhaust (hnone : candidates d s seek = []) :
    Walked d s { seek with exhausted := true } where
  ordered := h.ordered
  members := h.members
  complete := by
    intro _ row hrow key hkey hin
    by_contra hnot
    have hmem : key ∈ candidates d s seek :=
      mem_candidates.2 ⟨hmirrors.mem_keys hrow hkey, hin, hnot⟩
    rw [hnone] at hmem
    exact absurd hmem not_mem_nil

theorem Walked.advance (hexhausted : seek.exhausted = false) (hrow : HasRow s seek.version row)
    (hkey : d.posting row = some key) (hmem : key ∈ candidates d s seek)
    (hleast : ∀ k ∈ candidates d s seek, keyBefore seek.query.order.direction k key = false) :
    Walked d s { seek with cursor := some key, matched := seek.matched ++ [row] } := by
  obtain ⟨-, hin, hnot⟩ := mem_candidates.1 hmem
  -- what was reached comes before the new posting
  have hreached : ∀ k, seek.Reached k → keyBefore seek.query.order.direction k key = true := by
    rintro k ⟨cur, hcur, hk⟩
    refine keyBefore_of_not hk ?_
    by_contra hcurKey
    exact hnot ⟨cur, hcur, Bool.not_eq_true _ ▸ hcurKey⟩
  have hone : ∀ row', HasRow s seek.version row' → d.posting row' = some key → row' = row := by
    intro row' hrow' hkey'
    have hid : row'.1 = row.1 := some.inj ((posting_decode hkey').symm.trans (posting_decode hkey))
    have hvalue : row'.2 = row.2 := by
      rw [HasRow, hid] at hrow'
      exact some.inj (hrow'.symm.trans hrow)
    exact Prod.ext hid hvalue
  refine ⟨?_, fun row' => ?_, fun hex => ?_⟩
  · refine pairwise_append.2 ⟨h.ordered, pairwise_singleton _ _, fun a ha b hb => ?_⟩
    obtain ⟨-, k, hk, -, hr⟩ := (h.members a).1 ha
    rw [mem_singleton.1 hb]
    exact (keyBefore_iff hk hkey).1 (hreached k hr)
  · rw [mem_append, mem_singleton]
    constructor
    · rintro (hold | rfl)
      · obtain ⟨hhas, k, hk, hkin, hr⟩ := (h.members row').1 hold
        exact ⟨hhas, k, hk, hkin, key, rfl, keyBefore_asymm (hreached k hr)⟩
      · exact ⟨hrow, key, hkey, hin, key, rfl, keyBefore_irrefl _⟩
    · rintro ⟨hhas, k, hk, hkin, cur, hcur, hnotPast⟩
      obtain rfl := some.inj hcur
      by_cases hr : seek.Reached k
      · exact .inl ((h.members row').2 ⟨hhas, k, hk, hkin, hr⟩)
      · refine .inr (hone row' hhas ?_)
        have hcand : k ∈ candidates d s seek :=
          mem_candidates.2 ⟨hmirrors.mem_keys hhas hk, hkin, hr⟩
        rw [hk, keyBefore_total (hleast k hcand) hnotPast]
  · rw [hexhausted] at hex
    simp at hex

end

/-- A seek that has seen nothing. -/
theorem Walked.start (q : KeysetQuery) (encoded : Bytes) (v : Nat) (outcome : Option Outcome) :
    Walked d s ⟨q, encoded, v, none, [], false, false, outcome⟩ where
  ordered := List.Pairwise.nil
  members := by simp [Seek.Reached]
  complete := by simp

/-! ## Steps beside a seek -/

/-- What the rest of the system leaves a seek: the counter does not fall, and the rows of the
visible versions stay. -/
structure Keeps (s s' : System) : Prop where
  counter : s.counter ≤ s'.counter
  visible : ∀ v, s.Visible v → s'.Visible v
  value : ∀ v, s.Visible v → s'.valueAt v = s.valueAt v

/-- A step keeps what a seek has walked. -/
theorem Walked.keep {seek : Seek} (h : Walked d s seek) (hk : Keeps s s')
    (hv : s.Visible seek.version) : Walked d s' seek := by
  have hrow : ∀ row, HasRow s' seek.version row ↔ HasRow s seek.version row := by
    intro row
    rw [HasRow, hk.value _ hv]
  refine ⟨h.ordered, fun row => ?_, fun hex row hhas => ?_⟩
  · rw [h.members, hrow]
  · exact h.complete hex row ((hrow row).1 hhas)

/-- A step keeps a seek. -/
theorem SeekOk.keep {seek : Seek} (h : SeekOk d s seek) (hk : Keeps s s') : SeekOk d s' seek where
  visible := hk.visible _ h.visible
  short := h.short
  running := fun hout hflag hcounter =>
    (h.running hout hflag (hk.counter.trans hcounter)).keep hk h.visible
  ended := by
    intro page hpage
    obtain ⟨heq, hwalked, hend⟩ := h.ended page hpage
    exact ⟨heq, hwalked.keep hk h.visible, hend⟩

/-- A step that leaves the commits alone. -/
theorem Keeps.of_commits (hcommits : s'.commits = s.commits) (hbase : s'.base = s.base)
    (hcounter : s.counter ≤ s'.counter) (hlast : s.lastVersion ≤ s'.lastVersion)
    (hsettled : ∀ v ∈ s.settled, v ∈ s'.settled) : Keeps s s' where
  counter := hcounter
  visible := by
    rintro v ⟨hv, hall⟩
    refine ⟨hv.trans hlast, fun c hc hcv => hsettled _ (hall c ?_ hcv)⟩
    rwa [hcommits] at hc
  value := by
    intro v _
    funext id
    rw [System.valueAt, System.valueAt, System.valueBy, System.valueBy, hcommits, hbase]

/-- A commit keeps what seeks have seen. -/
theorem Keeps.commit (changes : ChangeSet) (seen : RecordId → Option Value) :
    Keeps s (s.commit d changes seen) where
  counter := le_rfl
  visible := by
    rintro v ⟨hv, hall⟩
    refine ⟨hv.trans (Nat.le_succ _), fun c hc hcv => ?_⟩
    rcases mem_append.1 hc with hc | hc
    · exact hall c hc hcv
    · rw [mem_singleton.1 hc] at hcv
      exact absurd (hcv.trans hv) (Nat.not_succ_le_self _)
  value := by
    rintro v ⟨hv, -⟩
    funext id
    show OverwriteLog.value _ s.base.get ((s.commits ++ [_]).filter _) id = _
    rw [filter_append, filter_cons_of_neg, filter_nil, append_nil]
    · rfl
    · rw [decide_eq_true_iff]
      exact fun hle => absurd (hle.trans hv) (Nat.not_succ_le_self _)

/-! ## Runs -/

/-- The invariant of the whole system. -/
structure SystemOk (d : SortedDef) (s : System) : Prop where
  index : Inv d s
  seeks : ∀ seek ∈ s.seeks, SeekOk d s seek

/-- A seek is replaced by its next state. -/
theorem SystemOk.setSeek (h : SystemOk d s) {seek : Seek} (hseek : SeekOk d s seek) :
    SystemOk d (s.setSeek i seek) := by
  have hkeep : Keeps s (s.setSeek i seek) := .of_commits rfl rfl le_rfl le_rfl fun _ => id
  refine ⟨h.index.withSeeks _, fun seek' hseek' => ?_⟩
  rcases mem_or_eq_of_mem_set hseek' with hmem | rfl
  · exact (h.seeks seek' hmem).keep hkeep
  · exact hseek.keep hkeep

/-- A seek begins. -/
theorem SystemOk.seek (h : SystemOk d s) (q : KeysetQuery) (v : Nat) : SystemOk d (s.seek q v) := by
  unfold System.seek
  split
  case h_2 => exact h
  case h_1 encoded _ =>
    split
    case isFalse => exact h
    case isTrue hgate =>
      refine ⟨h.index.withSeeks _, fun seek hseek => ?_⟩
      have hkeep : Keeps s { s with seeks := s.seeks ++ [⟨q, encoded, v, none, [], false, false,
          if s.counter ≤ v then none else some .declined⟩] } :=
        .of_commits rfl rfl le_rfl le_rfl fun _ => id
      rcases mem_append.1 hseek with hmem | hmem
      · exact (h.seeks seek hmem).keep hkeep
      · rw [mem_singleton.1 hmem]
        refine ⟨hkeep.visible _ hgate.1, Nat.zero_le _, fun _ _ _ => .start _ _ _ _, fun page hpage => ?_⟩
        split at hpage <;> simp at hpage

section

variable (h : SystemOk d s) {seek : Seek} (hseek : s.seeks[i]? = some seek)
  (hrun : seek.outcome = none)
include h hseek hrun

/-- A seek takes its next key. -/
theorem SystemOk.next (hexhausted : seek.exhausted = false)
    (hroom : seek.matched.length < seek.query.limit) (cell : Nat) :
    SystemOk d (s.next d i seek cell) := by
  have hok := h.seeks seek (mem_of_getElem? hseek)
  -- a walk that is not flagged is on an index that mirrors the version
  have hmirrors : s.counter ≤ seek.version → Mirrors d s seek.version :=
    fun hcounter => h.index.mirrors hok.visible hcounter
  have hended : ∀ page, seek.outcome ≠ some (.page page) := by
    simp [hrun]
  unfold System.next
  dsimp only
  split
  case h_1 hfirst =>
    refine h.setSeek ⟨hok.visible, hok.short, fun hout hflag hcounter => ?_,
      fun page hpage => absurd hpage (hended page)⟩
    exact (hok.running hout hflag hcounter).exhaust (hmirrors hcounter) (firstKey_eq_none hfirst)
  case h_2 key hfirst =>
    obtain ⟨hmem, hleast⟩ := firstKey_eq_some hfirst
    have hcand : key ∈ candidates d s seek := hmem
    split
    case h_1 => exact h
    case h_2 id hid =>
      -- the posting is that of a row of the version
      have hrow : s.counter ≤ seek.version → ∃ r, s.valueAt seek.version id = some r ∧
          d.posting (id, r) = some key := by
        intro hcounter
        obtain ⟨⟨id', r⟩, hrow, hkey⟩ := (hmirrors hcounter).exists_row (mem_candidates.1 hcand).1
        obtain rfl : id = id' := some.inj (hid.symm.trans (posting_decode hkey))
        exact ⟨r, hrow, hkey⟩
      split
      case h_1 hnone =>
        refine h.setSeek ⟨hok.visible, hok.short, fun _ _ hcounter => ?_,
          fun page hpage => absurd hpage (hended page)⟩
        obtain ⟨r, hr, -⟩ := hrow hcounter
        rw [hnone] at hr
        simp at hr
      case h_2 r hr =>
        split
        case isTrue =>
          refine h.setSeek ⟨hok.visible, ?_, fun hout hflag hcounter => ?_,
            fun page hpage => absurd hpage (hended page)⟩
          · rw [length_append]
            exact hroom
          · obtain ⟨r', hr', hkey⟩ := hrow hcounter
            obtain rfl : r = r' := some.inj (hr.symm.trans hr')
            exact (hok.running hout hflag hcounter).advance (hmirrors hcounter) hexhausted hr hkey
              hcand hleast
        case isFalse =>
          exact h.setSeek ⟨hok.visible, hok.short, fun _ hflag => absurd hflag (by simp),
            fun page hpage => absurd hpage (hended page)⟩

/-- A seek ends. -/
theorem SystemOk.finish (hend : seek.exhausted = true ∨ seek.matched.length = seek.query.limit) :
    SystemOk d (s.finish i seek) := by
  have hok := h.seeks seek (mem_of_getElem? hseek)
  refine h.setSeek ⟨hok.visible, hok.short, nofun, fun page hpage => ?_⟩
  by_cases hdecline : seek.flagged = true ∨ seek.version < s.counter
  · rw [if_pos hdecline] at hpage
    simp at hpage
  · rw [if_neg hdecline, some.injEq, Outcome.page.injEq] at hpage
    rw [not_or, Bool.not_eq_true, Nat.not_lt] at hdecline
    have hwalked := hok.running hrun hdecline.1 hdecline.2
    exact ⟨hpage.symm, ⟨hwalked.ordered, hwalked.members, hwalked.complete⟩, hend⟩

end

/-- **Every faithful step keeps the invariant.** -/
theorem SystemOk.step (h : SystemOk d s) (ev : Event) (hfaithful : Faithful d s ev) :
    SystemOk d (step d s ev) := by
  have hkept : ∀ {s' : System}, Inv d s' → Keeps s s' → s'.seeks = s.seeks → SystemOk d s' := by
    intro s' hinv hkeep hseeks
    refine ⟨hinv, fun seek hseek => ?_⟩
    rw [hseeks] at hseek
    exact (h.seeks seek hseek).keep hkeep
  cases ev with (try (rw [AsOf.step]; split) <;> try exact h)
  | commit changes seen => exact hkept (h.index.commit hfaithful) (.commit changes seen) rfl
  | abort =>
    exact hkept h.index.abort (.of_commits rfl rfl le_rfl (Nat.le_succ _) fun _ => id) rfl
  | bump v =>
    rename_i c hfind
    refine hkept (h.index.bump hfind) (.of_commits rfl rfl ?_ le_rfl fun _ => id) rfl
    dsimp only
    split
    · exact le_rfl
    · omega
  | apply v =>
    rename_i c hfind
    split
    case isFalse => exact h
    case isTrue hgo =>
      have hturn := hfaithful c hfind hgo.2
      obtain ⟨hc, rfl⟩ := find_spec hfind
      exact hkept (h.index.applyOps hc hgo.2 hturn (h.index.counted c hc (.inr hgo.1)))
        (.of_commits rfl rfl le_rfl le_rfl fun _ => id) rfl
  | replay v =>
    rename_i c hfind
    split
    case isFalse => exact h
    case isTrue hgo =>
      obtain ⟨hturn, hcount⟩ := hfaithful c hfind hgo
      obtain ⟨hc, rfl⟩ := find_spec hfind
      exact hkept (h.index.applyOps hc hgo hturn hcount)
        (.of_commits rfl rfl le_rfl le_rfl fun _ => id) rfl
  | settle v =>
    rename_i c hfind
    exact hkept (h.index.settle hfind (hfaithful c hfind))
      (.of_commits rfl rfl le_rfl le_rfl fun _ hv => mem_cons_of_mem _ hv) rfl
  | restart => exact ⟨h.index.restart hfaithful, fun seek hseek => absurd hseek not_mem_nil⟩
  | seek q v => exact h.seek q v
  | next i cell =>
    rename_i seek hseek
    split
    case isFalse => exact h
    case isTrue hgo => exact h.next hseek (isNone_iff_eq_none.1 hgo.1) hgo.2.1 hgo.2.2 cell
  | finish i =>
    rename_i seek hseek
    split
    case isFalse => exact h
    case isTrue hgo => exact h.finish hseek (isNone_iff_eq_none.1 hgo.1) hgo.2

/-- A new process. -/
theorem SystemOk.init (r : Ready d) : SystemOk d (.init d r) :=
  ⟨.init r, fun _ hseek => absurd hseek not_mem_nil⟩

/-- Every faithful run. -/
theorem SystemOk.after (r : Ready d) {es : List Event}
    (hes : Along (AsOf.step d) (Faithful d) (.init d r) es) : SystemOk d (AsOf.after d r es) :=
  along_invariant (fun _ ev h hfaithful => h.step ev hfaithful) (.init r) hes

/-- A seek at a version below the counter is declined when it starts. -/
theorem seek_declined (q : KeysetQuery) (hcounter : v < s.counter) :
    ∀ seek ∈ (step d s (.seek q v)).seeks, seek ∈ s.seeks ∨ seek.outcome = some .declined := by
  intro seek hseek
  rw [step, System.seek] at hseek
  split at hseek
  case h_2 => exact .inl hseek
  case h_1 =>
    split at hseek
    case isFalse => exact .inl hseek
    case isTrue =>
      rcases mem_append.1 hseek with hmem | hmem
      · exact .inl hmem
      · right
        rw [mem_singleton.1 hmem]
        exact if_neg (Nat.not_le.2 hcounter)

/-- One that is under way is declined when it ends. -/
theorem finish_declined {i : Nat} {seek seek' : Seek} (hseek : s.seeks[i]? = some seek)
    (hcounter : seek.version < s.counter) (hrun : seek.outcome = none)
    (hseek' : (step d s (.finish i)).seeks[i]? = some seek') :
    seek'.outcome = none ∨ seek'.outcome = some .declined := by
  rw [step, hseek] at hseek'
  dsimp only at hseek'
  split at hseek'
  case isFalse =>
    rw [hseek, some.injEq] at hseek'
    exact .inl (hseek' ▸ hrun)
  case isTrue =>
    right
    have hlength : i < s.seeks.length := (List.getElem?_eq_some_iff.1 hseek).1
    rw [System.finish, System.setSeek, getElem?_set_self hlength, some.injEq] at hseek'
    rw [← hseek']
    exact congrArg some (if_pos (.inr hcounter))

/-- **Pages of a past version.**  In a run whose steps are faithful, a seek that ends with a
page has the page that the full scan at its version would cut, if the order of the index agrees
with that of the query on the rows of the version.  At a visible version that the index does
not mirror a seek is declined, when it starts and when it ends. -/
theorem asOfSeek_pages (d : SortedDef) (r : Ready d) (es : List Event)
    (hes : Along (step d) (Faithful d) (.init d r) es) :
    (∀ seek ∈ (after d r es).seeks, ∀ page, seek.outcome = some (.page page) →
      Agrees d seek.query seek.encoded ((after d r es).rowsAt seek.version) →
      SortedPages.IsPage seek.query.order.After
        (((after d r es).rowsAt seek.version).filter seek.query.past) 0 seek.query.limit page) ∧
    ∀ v, (after d r es).Visible v → ¬ Mirrors d (after d r es) v →
      (∀ q, ∀ seek ∈ (step d (after d r es) (.seek q v)).seeks,
        seek ∈ (after d r es).seeks ∨ seek.outcome = some .declined) ∧
      ∀ i seek, (after d r es).seeks[i]? = some seek → seek.version = v → seek.outcome = none →
        ∀ seek', (step d (after d r es) (.finish i)).seeks[i]? = some seek' →
          seek'.outcome = none ∨ seek'.outcome = some .declined := by
  have hok := SystemOk.after r hes
  generalize after d r es = s at hok
  refine ⟨fun seek hseek page hpage hagrees => ?_, fun v hvisible hmirrors => ?_⟩
  · obtain ⟨rfl, hwalked, hend⟩ := (hok.seeks seek hseek).ended page hpage
    exact hwalked.isPage (hok.seeks seek hseek).short hend hagrees
  have hcounter : v < s.counter := by
    by_contra hle
    exact hmirrors (hok.index.mirrors hvisible (Nat.not_lt.1 hle))
  refine ⟨fun q => seek_declined q hcounter, fun i seek hseek hversion hrun seek' hseek' => ?_⟩
  exact finish_declined hseek (hversion ▸ hcounter) hrun hseek'

/-! ## Histories of one row -/

/-- An index on the field `n` of an empty table. -/
def emptyReady : Ready ⟨7, [1], true⟩ where
  base := ⟨[], List.Pairwise.nil⟩
  version := 0
  keys := []
  exact_postings := by simp

/-- The row is inserted. -/
def insertFirst (v : Value) : ChangeSet := ⟨[(firstId, some (.map [(1, v)]))], nodup_singleton _⟩

def deleteFirst : ChangeSet := ⟨[(firstId, none)], nodup_singleton _⟩

/-- The rows after `n = 5`, in ascending order. -/
def afterFive : KeysetQuery := ⟨oneOrder .asc, .int 5, none, 10⟩

/-- A commit and a seek at its version. -/
def insertAndSeek (v : Value) : List Event :=
  [.commit (insertFirst v) fun _ => none, .bump 1, .apply 1, .settle 1, .seek afterFive 1, .next 0 1, .next 0 1,
    .finish 0]

/-- The row is deleted after the version; the restart forgets this. -/
def deleteAndRestart : List Event :=
  [.commit (insertFirst (.int 7)) fun _ => none, .bump 1, .apply 1, .settle 1,
    .commit deleteFirst fun _ => some (.map [(1, .int 7)]), .bump 2, .apply 2, .settle 2, .restart,
    .seek afterFive 1, .next 0 0, .finish 0]

/-- Two updates of the row that were staged at version 1: the second leaves the posting of the
first behind. -/
def updateTwice : List Event :=
  [.commit (insertFirst (.int 7)) fun _ => none, .bump 1, .apply 1, .settle 1,
    .commit (insertFirst (.int 8)) fun _ => some (.map [(1, .int 7)]), .bump 2, .apply 2, .settle 2,
    .commit (insertFirst (.int 9)) fun _ => some (.map [(1, .int 7)]), .bump 3, .apply 3, .settle 3,
    .seek afterFive 3, .next 0 3, .next 0 3, .next 0 3, .finish 0]

/-- The page of a run with one row. -/
theorem asOfSeek_page_int :
    ∃ seek ∈ (after _ emptyReady (insertAndSeek (.int 7))).seeks,
      seek.outcome = some (.page [(firstId, .map [(1, .int 7)])]) ∧
      SortedPages.IsPage (oneOrder .asc).After
        (((after _ emptyReady (insertAndSeek (.int 7))).rowsAt 1).filter afterFive.past) 0 10
        [(firstId, .map [(1, .int 7)])] := by
  have hes : Along (step ⟨7, [1], true⟩) (Faithful ⟨7, [1], true⟩) (.init _ emptyReady)
      (insertAndSeek (.int 7)) := by
    decide +kernel
  obtain ⟨seek, hseeks, hquery, hversion, houtcome, hencoded⟩ : ∃ seek,
      (after _ emptyReady (insertAndSeek (.int 7))).seeks = [seek] ∧ seek.query = afterFive ∧
        seek.version = 1 ∧ seek.outcome = some (.page [(firstId, .map [(1, .int 7)])]) ∧
        encodeForSort (.int 5) = some seek.encoded := ⟨_, rfl, rfl, rfl, rfl, rfl⟩
  have hmem : seek ∈ (after _ emptyReady (insertAndSeek (.int 7))).seeks := by
    rw [hseeks]
    exact mem_singleton_self _
  have hrows : (after _ emptyReady (insertAndSeek (.int 7))).rowsAt 1 =
      [(firstId, .map [(1, .int 7)])] := rfl
  have hpage := (asOfSeek_pages _ emptyReady _ hes).1 seek hmem _ houtcome
  rw [hquery, hversion] at hpage
  refine ⟨seek, hmem, houtcome, hpage ?_⟩
  rw [hrows]
  refine ⟨fun row hrow => ?_, fun a ha b hb _ _ hab => ?_⟩
  · rw [mem_singleton.1 hrow]
    refine iff_of_true (by decide +kernel) ⟨_, rfl, ?_⟩
    rw [← some.inj hencoded]
    decide +kernel
  · rw [mem_singleton.1 ha, mem_singleton.1 hb] at hab
    exact absurd hab hab.asymm

/-- Three pages that the full scan would not cut, all at visible versions.  After a restart the
counter no longer knows of the delete, and the page lacks the deleted row.  A null is behind all
values in the comparison and before them in the index.  After two updates that were planned from
one old value the page has the row twice. -/
theorem asOfSeek_page_lacks_row :
    ((after _ emptyReady deleteAndRestart).Visible 1 ∧
      ¬ Mirrors ⟨7, [1], true⟩ (after _ emptyReady deleteAndRestart) 1 ∧
      ∃ seek ∈ (after _ emptyReady deleteAndRestart).seeks,
        seek.query = afterFive ∧ seek.version = 1 ∧ seek.outcome = some (.page []) ∧
        ¬ SortedPages.IsPage (oneOrder .asc).After
          (((after _ emptyReady deleteAndRestart).rowsAt 1).filter afterFive.past) 0 10 []) ∧
    ((after _ emptyReady (insertAndSeek .null)).Visible 1 ∧
      ∃ seek ∈ (after _ emptyReady (insertAndSeek .null)).seeks,
        seek.query = afterFive ∧ seek.version = 1 ∧ seek.outcome = some (.page []) ∧
        ¬ SortedPages.IsPage (oneOrder .asc).After
          (((after _ emptyReady (insertAndSeek .null)).rowsAt 1).filter afterFive.past) 0 10 []) ∧
    (after _ emptyReady updateTwice).Visible 3 ∧
      (after _ emptyReady updateTwice).rowsAt 3 = [(firstId, .map [(1, .int 9)])] ∧
      ∃ seek ∈ (after _ emptyReady updateTwice).seeks, seek.query = afterFive ∧ seek.version = 3 ∧
        seek.outcome = some
          (.page [(firstId, .map [(1, .int 9)]), (firstId, .map [(1, .int 9)])]) := by
  have hempty : ∀ (after : Row → Row → Prop) (row : Row),
      ¬ SortedPages.IsPage after [row] 0 10 [] := by
    rintro after row ⟨front, back, -, -, hlength, -⟩
    simp at hlength
  refine ⟨⟨by decide +kernel, ?_, _, mem_singleton_self _, rfl, rfl, rfl, hempty _ _⟩,
    ⟨by decide +kernel, _, mem_singleton_self _, rfl, rfl, rfl, hempty _ _⟩,
    by decide +kernel, rfl, _, mem_singleton_self _, rfl, rfl, rfl⟩
  intro hmirrors
  obtain ⟨key, hkey⟩ : ∃ key, (⟨7, [1], true⟩ : SortedDef).posting (firstId, .map [(1, .int 7)]) =
      some key := ⟨_, rfl⟩
  have hmem := (hmirrors key).2 ⟨firstId, hkey⟩
  exact absurd hmem not_mem_nil

end ShamirDb.AsOf
