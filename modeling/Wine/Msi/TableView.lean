import Wine.Lib.Runs
import Wine.Msi.StringTable

/-!
# Views of the tables of an MSI database

A row is an array of words, in which each column has one or two. Rows are looked up through an index
of the column, which is built at the first search and then kept. Setting a value and inserting a row
leave the index as it is.
-/

namespace Wine.Msi
open Wine.Lib

inductive MsiError
  | invalidParameter | noMoreItems | functionFailed | outOfMemory | notEnoughMemory | invalidData
  deriving DecidableEq, Repr

structure HashEntry where
  value : BitVec 32
  row : ℕ
  deriving DecidableEq, Repr

/-- `MSITABLE_HASH_TABLE_SIZE` -/
def tableHashSize : ℕ := 37

/-- The chains of an index. They are not changed once they are built, so that a pointer to an entry
is the part of its chain from the entry on, and a null pointer the empty list. -/
abbrev HashTable := ℕ → List HashEntry

structure ColumnInfo where
  type : BitVec 32
  offset : ℕ
  hashTable : Option HashTable

/-- `num_cols` is the length of `columns`, and `row_count` that of `data`. -/
structure TableView where
  columns : List ColumnInfo
  rowSize : ℕ
  data : List (List (BitVec 16))

namespace ColumnInfo

/-- `MSITYPE_STRING` -/
def isString (c : ColumnInfo) : Bool := c.type &&& 0x0800 ≠ 0

/-- `MSITYPE_KEY` -/
def isKey (c : ColumnInfo) : Bool := c.type &&& 0x2000 ≠ 0

/-- `MSITYPE_IS_BINARY` -/
def isBinary (c : ColumnInfo) : Bool := c.type &&& ~~~0x1000 = 0x0900

def bytesPerColumn (c : ColumnInfo) : ℕ :=
  if c.isString then 2 else (c.type &&& 0xff).toNat

/-- The value of a column in a row; there is none for a width other than 2 and 4. -/
def readInt (c : ColumnInfo) (row : List (BitVec 16)) : Option (BitVec 32) :=
  let offset := c.offset / 2
  match c.bytesPerColumn with
  | 4 => some ((row.getD offset 0).setWidth 32 + ((row.getD (offset + 1) 0).setWidth 32 <<< 16))
  | 2 => some ((row.getD offset 0).setWidth 32)
  | _ => none

def writeInt (c : ColumnInfo) (row : List (BitVec 16)) (val : BitVec 32) :
    Option (List (BitVec 16)) :=
  let offset := c.offset / 2
  match c.bytesPerColumn with
  | 4 => some ((row.set offset (val.setWidth 16)).set (offset + 1) ((val >>> 16).setWidth 16))
  | 2 => some (row.set offset (val.setWidth 16))
  | _ => none

end ColumnInfo

namespace HashTable

def addEntry (t : HashTable) (e : HashEntry) : HashTable :=
  Function.update t (e.value.toNat % tableHashSize) (t (e.value.toNat % tableHashSize) ++ [e])

/-- The loop that builds the index of a column. -/
def indexRows (c : ColumnInfo) : List (List (BitVec 16)) → ℕ → HashTable → HashTable
  | [], _, t => t
  | row :: rows, i, t =>
    indexRows c rows (i + 1) <| match c.readInt row with
      | some value => t.addEntry ⟨value, i⟩
      | none => t

end HashTable

namespace TableView

/-- Columns are numbered from 1 on. -/
def column (v : TableView) (col : ℕ) : Option ColumnInfo :=
  if col = 0 then none else v.columns[col - 1]?

/-- `TABLE_fetch_int` -/
def fetchInt (v : TableView) (row col : ℕ) : Except MsiError (BitVec 32) :=
  match v.column col with
  | none => .error .invalidParameter
  | some c =>
    match v.data[row]? with
    | none => .error .noMoreItems
    | some words =>
      if v.rowSize ≤ c.offset then .error .functionFailed
      else match c.readInt words with
        | some val => .ok val
        | none => .error .functionFailed

/-- `TABLE_set_int`, which does not check the row. -/
def setInt (v : TableView) (row col : ℕ) (val : BitVec 32) :
    Except Fault (Option MsiError × TableView) :=
  match v.column col with
  | none => .ok (some .invalidParameter, v)
  | some c =>
    if v.rowSize ≤ c.offset then .ok (some .functionFailed, v)
    else if c.bytesPerColumn ≠ 4 ∧ c.bytesPerColumn ≠ 2 then .ok (some .functionFailed, v)
    else
      match v.data[row]? with
      | none => .error .outOfBounds
      | some words =>
        match c.writeInt words val with
        | some words => .ok (none, { v with data := v.data.set row words })
        | none => .ok (some .functionFailed, v)

/-- `table_create_new_row`; `mem` is the outcome of its allocations. -/
def createNewRow (v : TableView) (mem : Bool) : Except MsiError (ℕ × TableView) :=
  if mem then
    .ok (v.data.length, { v with data := v.data ++ [List.replicate (v.rowSize / 2) 0] })
  else .error .notEnoughMemory

/-- The loop of `msi_table_modify_row` over the columns from `i` on, with the values that the record
has for them. -/
def setColumns (row : ℕ) : ℕ → List (BitVec 32) → TableView → Except Fault TableView
  | _, [], v => .ok v
  | i, val :: vals, v =>
    match v.setInt row (i + 1) val with
    | .error f => .error f
    | .ok (some _, v) => .ok v
    | .ok (none, v) => setColumns row (i + 1) vals v

/-- `TABLE_insert_row` of a record with the given values. -/
def insertRow (v : TableView) (vals : List (BitVec 32)) (mem : Bool) : Except Fault TableView :=
  match v.createNewRow mem with
  | .error _ => .ok v
  | .ok (row, v) => setColumns row 0 vals v

def setIndex (v : TableView) (col : ℕ) (t : HashTable) : TableView :=
  { v with columns := v.columns.modify (col - 1) fun c => { c with hashTable := some t } }

/-- What `TABLE_find_matching_rows` does with an index: the entry it stops at. -/
def nextEntry (t : HashTable) (val : BitVec 32) (handle : List HashEntry) : List HashEntry :=
  (if handle = [] then t (val.toNat % tableHashSize) else handle.tail).dropWhile
    fun e => e.value ≠ val

/-- The result for the entry that the search stops at. -/
def found (entry : List HashEntry) : Except MsiError ℕ :=
  match entry with
  | [] => .error .noMoreItems
  | e :: _ => .ok e.row

/-- `TABLE_find_matching_rows`: the row found, the handle and the view, which has an index then.
`mem` is the outcome of the allocation. -/
def findMatchingRows (v : TableView) (col : ℕ) (val : BitVec 32) (handle : List HashEntry)
    (mem : Bool) : Except MsiError ℕ × List HashEntry × TableView :=
  match v.column col with
  | none => (.error .invalidParameter, handle, v)
  | some c =>
    match c.hashTable with
    | some t => (found (nextEntry t val handle), nextEntry t val handle, v)
    | none =>
      if v.rowSize ≤ c.offset then (.error .functionFailed, handle, v)
      else if mem = false then (.error .outOfMemory, handle, v)
      else
        let t := HashTable.indexRows c v.data 0 fun _ => []
        (found (nextEntry t val handle), nextEntry t val handle, v.setIndex col t)

/-- The calls that continue an iteration until one fails: the rows they return, the error of the
last one and the view behind it. -/
def findFrom (col : ℕ) (val : BitVec 32) (mem : Bool) :
    ℕ → TableView → List HashEntry → Option (List ℕ × MsiError × TableView)
  | 0, _, _ => none
  | fuel + 1, v, handle =>
    match v.findMatchingRows col val handle mem with
    | (.error e, _, v) => some ([], e, v)
    | (.ok row, handle, v) =>
      (findFrom col val mem fuel v handle).map fun r => (row :: r.1, r.2)

/-- A complete iteration. -/
def findAll (v : TableView) (col : ℕ) (val : BitVec 32) (mem : Bool) :
    Option (List ℕ × MsiError × TableView) :=
  findFrom col val mem (v.data.length + 1) v []

end TableView

inductive ViewAction
  | setInt (row col : ℕ) (val : BitVec 32)
  | insertRow (vals : List (BitVec 32)) (mem : Bool)
  | findAll (col : ℕ) (val : BitVec 32) (mem : Bool)
  deriving DecidableEq, Repr

namespace TableView

def step (v : TableView) : ViewAction → Except Fault TableView
  | .setInt row col val => (v.setInt row col val).map (·.2)
  | .insertRow vals mem => v.insertRow vals mem
  | .findAll col val mem =>
    match v.findAll col val mem with
    | some r => .ok r.2.2
    | none => .error .endless

/-- Each column begins behind the words of those before it. -/
def Apart (v : TableView) : Prop :=
  v.columns.Pairwise fun c d => c.offset / 2 + c.bytesPerColumn / 2 ≤ d.offset / 2

/-- No column of the view was searched yet. -/
def Fresh (v : TableView) : Prop := ∀ c ∈ v.columns, c.hashTable = none

/-- The rows whose value in a column is the given one. -/
def rowsWith (v : TableView) (col : ℕ) (val : BitVec 32) : List ℕ :=
  (List.range v.data.length).filter fun row => v.fetchInt row col = .ok val

/-- What a column keeps of a value. -/
def kept (c : ColumnInfo) (val : BitVec 32) : BitVec 32 :=
  if c.bytesPerColumn = 2 then (val.setWidth 16).setWidth 32 else val

/-- A column that was searched keeps its values and gets no new rows; a column without values has
none to change. -/
def Steady (v : TableView) : ViewAction → Prop
  | .setInt row col val => ∀ c, v.column col = some c → c.hashTable = none ∨
      v.fetchInt row col = .ok (kept c val) ∨ c.bytesPerColumn ≠ 2 ∧ c.bytesPerColumn ≠ 4
  | .insertRow _ mem => mem = false ∨
      ∀ c ∈ v.columns, c.hashTable = none ∨ c.bytesPerColumn ≠ 2 ∧ c.bytesPerColumn ≠ 4
  | .findAll _ _ _ => True

/-- The index of a column as a search would build it now. -/
def indexOf (c : ColumnInfo) (data : List (List (BitVec 16))) : HashTable :=
  HashTable.indexRows c data 0 fun _ => []

/-- The indexes are those that a search would build now. -/
def Indexed (v : TableView) : Prop :=
  ∀ c ∈ v.columns, ∀ t, c.hashTable = some t → t = indexOf c v.data

/-- The entries of an index in the order in which they are added. -/
def entriesOf (c : ColumnInfo) : List (List (BitVec 16)) → ℕ → List HashEntry
  | [], _ => []
  | row :: rows, i =>
    match c.readInt row with
    | some value => ⟨value, i⟩ :: entriesOf c rows (i + 1)
    | none => entriesOf c rows (i + 1)

variable {v v' : TableView} {c d : ColumnInfo} {col row i fuel : ℕ} {val : BitVec 32} {mem : Bool}
  {rows rows' : List (List (BitVec 16))} {words words' : List (BitVec 16)} {t : HashTable}
  {l handle : List HashEntry}

theorem mem_of_column (h : v.column col = some c) : c ∈ v.columns := by
  unfold column at h
  split_ifs at h
  exact List.mem_of_getElem? h

theorem indexRows_eq (c : ColumnInfo) (rows : List (List (BitVec 16))) (i : ℕ) (t : HashTable)
    (b : ℕ) : HashTable.indexRows c rows i t b =
      t b ++ (entriesOf c rows i).filter fun e => e.value.toNat % tableHashSize = b := by
  induction rows generalizing i t with
  | nil => simp [HashTable.indexRows, entriesOf]
  | cons row rows ih =>
    rw [HashTable.indexRows, ih, entriesOf]
    cases c.readInt row with
    | none => rfl
    | some value =>
      simp only [HashTable.addEntry, List.filter_cons]
      by_cases hb : value.toNat % tableHashSize = b
      · subst hb
        simp
      · rw [Function.update_of_ne fun he => hb he.symm]
        simp [hb]

theorem indexOf_eq (c : ColumnInfo) (data : List (List (BitVec 16))) (b : ℕ) :
    indexOf c data b =
      (entriesOf c data 0).filter fun e => e.value.toNat % tableHashSize = b := by
  rw [indexOf, indexRows_eq, List.nil_append]

theorem entriesOf_congr (h : rows.map c.readInt = rows'.map d.readInt) (i : ℕ) :
    entriesOf c rows i = entriesOf d rows' i := by
  induction rows generalizing rows' i with
  | nil =>
    cases rows' with
    | nil => rfl
    | cons _ _ => cases h
  | cons row rows ih =>
    cases rows' with
    | nil => cases h
    | cons row' rows' =>
      obtain ⟨hrow, hrows⟩ := List.cons.inj h
      rw [entriesOf, entriesOf, hrow, ih hrows]

theorem entriesOf_none (h : ∀ row, c.readInt row = none) (rows : List (List (BitVec 16))) (i : ℕ) :
    entriesOf c rows i = [] := by
  induction rows generalizing i with
  | nil => rfl
  | cons row rows ih => rw [entriesOf, h, ih]

theorem length_entriesOf_le (c : ColumnInfo) (rows : List (List (BitVec 16))) (i : ℕ) :
    (entriesOf c rows i).length ≤ rows.length := by
  induction rows generalizing i with
  | nil => exact Nat.le_refl _
  | cons row rows ih =>
    rw [entriesOf]
    cases c.readInt row with
    | none => exact Nat.le_succ_of_le (ih _)
    | some value => exact Nat.succ_le_succ (ih _)

/-- The entries of a value stand for the rows that have it. -/
theorem entriesOf_filter (c : ColumnInfo) (val : BitVec 32) (data pre rows : List (List (BitVec 16)))
    (h : data = pre ++ rows) :
    ((entriesOf c rows pre.length).filter fun e => e.value = val).map (·.row) =
      (List.range' pre.length rows.length).filter
        fun j => (data[j]?).bind c.readInt = some val := by
  induction rows generalizing pre with
  | nil => rfl
  | cons row rows ih =>
    have hrest := ih (pre ++ [row]) (by rw [h, List.append_assoc, List.singleton_append])
    rw [List.length_append, List.length_singleton] at hrest
    have hrow : data[pre.length]? = some row := by simp [h]
    rw [entriesOf, List.length_cons, List.range'_succ, List.filter_cons, hrow, Option.bind_some,
      ← hrest]
    cases c.readInt row with
    | none => simp
    | some value =>
      by_cases hv : value = val <;> simp [hv]

/-! ## The search -/

theorem filter_of_dropWhile_nil (h : l.dropWhile (fun e => e.value ≠ val) = []) :
    l.filter (fun e => e.value = val) = [] := by
  induction l with
  | nil => rfl
  | cons a l ih =>
    rw [List.dropWhile_cons] at h
    by_cases ha : a.value = val
    · simp only [ha, ne_eq, not_true_eq_false, decide_false, Bool.false_eq_true, if_false] at h
      cases h
    · simp only [ha, ne_eq, not_false_eq_true, decide_true, if_true] at h
      rw [List.filter_cons_of_neg (by simpa using ha)]
      exact ih h

theorem filter_of_dropWhile_cons {e : HashEntry} {rest : List HashEntry}
    (h : l.dropWhile (fun e => e.value ≠ val) = e :: rest) :
    l.filter (fun e => e.value = val) = e :: rest.filter fun e => e.value = val := by
  induction l with
  | nil => cases h
  | cons a l ih =>
    rw [List.dropWhile_cons] at h
    by_cases ha : a.value = val
    · simp only [ha, ne_eq, not_true_eq_false, decide_false, Bool.false_eq_true, if_false] at h
      cases h
      simp [ha]
    · simp only [ha, ne_eq, not_false_eq_true, decide_true, if_true] at h
      rw [List.filter_cons_of_neg (by simpa using ha)]
      exact ih h

/-- An iteration over an index goes through the entries of the value that are left. -/
theorem findFrom_index (hc : v.column col = some c) (ht : c.hashTable = some t)
    (hl : l = if handle = [] then t (val.toNat % tableHashSize) else handle.tail)
    (hfuel : (l.filter fun e => e.value = val).length < fuel) :
    findFrom col val mem fuel v handle =
      some ((l.filter fun e => e.value = val).map (·.row), .noMoreItems, v) := by
  induction fuel generalizing handle l with
  | zero => exact absurd hfuel (Nat.not_lt_zero _)
  | succ fuel ih =>
    have hfind : v.findMatchingRows col val handle mem =
        (found (nextEntry t val handle), nextEntry t val handle, v) := by
      simp only [findMatchingRows, hc, ht]
    have hnext : nextEntry t val handle = l.dropWhile fun e => e.value ≠ val := by
      rw [nextEntry, hl]
    rw [findFrom, hfind]
    cases hd : nextEntry t val handle with
    | nil =>
      rw [filter_of_dropWhile_nil (hnext.symm.trans hd)]
      rfl
    | cons e rest =>
      have hfilter := filter_of_dropWhile_cons (hnext.symm.trans hd)
      rw [hfilter, List.length_cons] at hfuel
      have hrest : findFrom col val mem fuel v (e :: rest) =
          some ((rest.filter fun e => e.value = val).map (·.row), .noMoreItems, v) :=
        ih rfl (Nat.lt_of_succ_lt_succ hfuel)
      simp only [found, hrest, hfilter, Option.map_some, List.map_cons]

theorem column_setIndex (hc : v.column col = some c) :
    (v.setIndex col t).column col = some { c with hashTable := some t } := by
  unfold column at hc ⊢
  split_ifs at hc ⊢ with h0
  rw [setIndex, List.getElem?_modify_eq, hc]
  rfl

theorem findFrom_build (hc : v.column col = some c) (ht : c.hashTable = none)
    (ho : c.offset < v.rowSize) (fuel : ℕ) :
    findFrom col val true (fuel + 1) v [] =
      findFrom col val true (fuel + 1) (v.setIndex col (indexOf c v.data)) [] := by
  have hfind : v.findMatchingRows col val [] true =
      (v.setIndex col (indexOf c v.data)).findMatchingRows col val [] true := by
    simp only [findMatchingRows, hc, ht, if_neg (Nat.not_le.mpr ho), column_setIndex hc,
      Bool.true_eq_false, if_false, indexOf]
  rw [findFrom, findFrom, hfind]

theorem fetchInt_eq (hc : v.column col = some c) (ho : c.offset < v.rowSize) :
    v.fetchInt row col = .ok val ↔ (v.data[row]?).bind c.readInt = some val := by
  simp only [fetchInt, hc, if_neg (Nat.not_le.mpr ho)]
  cases v.data[row]? with
  | none => simp
  | some words =>
    cases hr : c.readInt words <;> simp [hr]

theorem rowsWith_eq (hc : v.column col = some c) (ho : c.offset < v.rowSize) :
    v.rowsWith col val = ((indexOf c v.data (val.toNat % tableHashSize)).filter
      fun e => e.value = val).map (·.row) := by
  rw [indexOf_eq, List.filter_filter]
  have hall : (entriesOf c v.data 0).filter (fun e => (e.value = val : Bool) &&
      (e.value.toNat % tableHashSize = val.toNat % tableHashSize : Bool)) =
      (entriesOf c v.data 0).filter fun e => e.value = val := by
    refine List.filter_congr fun e _ => ?_
    by_cases he : e.value = val <;> simp [he]
  have hscan := entriesOf_filter c val v.data [] v.data rfl
  rw [List.length_nil] at hscan
  rw [hall, hscan, rowsWith, List.range_eq_range']
  refine List.filter_congr fun j _ => ?_
  rw [decide_eq_decide]
  exact fetchInt_eq hc ho

/-- With an index that is up to date, or none, an iteration is a scan. -/
theorem findAll_eq (h : Indexed v) (hc : v.column col = some c) (ho : c.offset < v.rowSize) :
    ∃ v', v.findAll col val true = some (v.rowsWith col val, .noMoreItems, v') := by
  have hlen : ((indexOf c v.data (val.toNat % tableHashSize)).filter
      fun e => e.value = val).length < v.data.length + 1 := by
    refine Nat.lt_succ_of_le (Nat.le_trans (List.length_filter_le _ _) ?_)
    rw [indexOf_eq]
    exact Nat.le_trans (List.length_filter_le _ _) (length_entriesOf_le c v.data 0)
  rw [rowsWith_eq hc ho, findAll]
  cases ht : c.hashTable with
  | none =>
    rw [findFrom_build hc ht ho]
    exact ⟨_, findFrom_index (column_setIndex hc) rfl (if_pos rfl).symm hlen⟩
  | some t =>
    obtain rfl := h c (mem_of_column hc) t ht
    exact ⟨_, findFrom_index hc ht (if_pos rfl).symm hlen⟩

/-! ## Steps that keep the indexes -/

theorem indexOf_congr (h : rows.map c.readInt = rows'.map d.readInt) :
    indexOf c rows = indexOf d rows' := by
  funext b
  rw [indexOf_eq, indexOf_eq, entriesOf_congr h]

theorem readInt_of_width (h : c.bytesPerColumn ≠ 2 ∧ c.bytesPerColumn ≠ 4) :
    c.readInt words = none := by
  unfold ColumnInfo.readInt
  split
  · exact absurd ‹_› h.2
  · exact absurd ‹_› h.1
  · rfl

theorem indexOf_of_width (h : c.bytesPerColumn ≠ 2 ∧ c.bytesPerColumn ≠ 4) :
    indexOf c rows = fun _ => [] := by
  funext b
  rw [indexOf_eq, entriesOf_none fun row => readInt_of_width h]
  rfl

theorem setWidth_kept (x : BitVec 16) (h : x.setWidth 32 = (val.setWidth 16).setWidth 32) :
    val.setWidth 16 = x := by
  have h' := congrArg (BitVec.setWidth 16) h
  simpa using h'.symm

theorem low_of_pair (x y : BitVec 16) :
    (x.setWidth 32 + (y.setWidth 32 <<< 16) : BitVec 32).setWidth 16 = x ∧
      ((x.setWidth 32 + (y.setWidth 32 <<< 16) : BitVec 32) >>> 16).setWidth 16 = y := by
  have hx := x.isLt
  have hy := y.isLt
  have hsum : (x.setWidth 32 + (y.setWidth 32 <<< 16) : BitVec 32).toNat =
      x.toNat + y.toNat * 2 ^ 16 := by
    rw [BitVec.toNat_add, BitVec.toNat_shiftLeft, BitVec.toNat_setWidth, BitVec.toNat_setWidth,
      Nat.shiftLeft_eq]
    omega
  constructor
  · apply BitVec.eq_of_toNat_eq
    rw [BitVec.toNat_setWidth, hsum]
    omega
  · apply BitVec.eq_of_toNat_eq
    rw [BitVec.toNat_setWidth, BitVec.toNat_ushiftRight, hsum, Nat.shiftRight_eq_div_pow]
    omega

theorem set_getD_self (words : List (BitVec 16)) (k : ℕ) : words.set k (words.getD k 0) = words := by
  by_cases hk : k < words.length
  · rw [List.getD_eq_getElem?_getD, List.getElem?_eq_getElem hk, Option.getD_some,
      List.set_getElem_self]
  · exact List.set_eq_of_length_le (Nat.le_of_not_lt hk)

/-- A column that is given the value it has leaves the row as it is. -/
theorem writeInt_same (h : c.readInt words = some (kept c val)) :
    c.writeInt words val = some words := by
  unfold ColumnInfo.readInt at h
  unfold ColumnInfo.writeInt
  split at h
  · rename_i hw
    have hk : kept c val = val := if_neg (by omega)
    rw [hk] at h
    have hval := Option.some.inj h
    obtain ⟨hlow, hhigh⟩ := low_of_pair (words.getD (c.offset / 2) 0)
      (words.getD (c.offset / 2 + 1) 0)
    rw [hval] at hlow hhigh
    simp only [hlow, hhigh, set_getD_self]
  · rename_i hw
    have hk : kept c val = (val.setWidth 16).setWidth 32 := if_pos hw
    rw [hk] at h
    have hlow := setWidth_kept _ (Option.some.inj h)
    simp only [hlow, set_getD_self]
  · cases h

theorem getD_set_ne {k j : ℕ} (x : BitVec 16) (h : k ≠ j) :
    (words.set k x).getD j 0 = words.getD j 0 := by
  rw [List.getD_eq_getElem?_getD, List.getElem?_set_ne h, List.getD_eq_getElem?_getD]

/-- The words of the two columns do not meet. -/
def Disjoint (c d : ColumnInfo) : Prop :=
  c.offset / 2 + c.bytesPerColumn / 2 ≤ d.offset / 2 ∨
    d.offset / 2 + d.bytesPerColumn / 2 ≤ c.offset / 2

theorem getD_writeInt (h : c.writeInt words val = some words') {j : ℕ}
    (hj : j < c.offset / 2 ∨ c.offset / 2 + c.bytesPerColumn / 2 ≤ j) :
    words'.getD j 0 = words.getD j 0 := by
  unfold ColumnInfo.writeInt at h
  split at h
  · rename_i hw
    cases h
    rw [getD_set_ne _ (by omega), getD_set_ne _ (by omega)]
  · rename_i hw
    cases h
    rw [getD_set_ne _ (by omega)]
  · cases h

theorem readInt_writeInt (h : c.writeInt words val = some words') (hcd : Disjoint c d) :
    d.readInt words' = d.readInt words := by
  unfold Disjoint at hcd
  unfold ColumnInfo.readInt
  split
  · rename_i hw
    have hlow : words'.getD (d.offset / 2) 0 = words.getD (d.offset / 2) 0 :=
      getD_writeInt h (by omega)
    have hhigh : words'.getD (d.offset / 2 + 1) 0 = words.getD (d.offset / 2 + 1) 0 :=
      getD_writeInt h (by omega)
    simp only [hlow, hhigh]
  · rename_i hw
    have hlow : words'.getD (d.offset / 2) 0 = words.getD (d.offset / 2) 0 :=
      getD_writeInt h (by omega)
    simp only [hlow]
  · rfl

theorem Apart.disjoint (h : v.Apart) {i j : ℕ} (hi : v.columns[i]? = some c)
    (hj : v.columns[j]? = some d) (hij : i ≠ j) : Disjoint c d := by
  obtain ⟨hil, rfl⟩ := List.getElem?_eq_some_iff.mp hi
  obtain ⟨hjl, rfl⟩ := List.getElem?_eq_some_iff.mp hj
  have hp := List.pairwise_iff_getElem.mp h
  rcases Nat.lt_or_gt_of_ne hij with hlt | hlt
  · exact .inl (hp i j hil hjl hlt)
  · exact .inr (hp j i hjl hil hlt)

/-- What `TABLE_set_int` can do. -/
theorem setInt_cases {e : Option MsiError} (h : v.setInt row col val = .ok (e, v')) :
    v' = v ∨ ∃ c words words', v.column col = some c ∧ c.offset < v.rowSize ∧
      v.data[row]? = some words ∧
      c.writeInt words val = some words' ∧ v' = { v with data := v.data.set row words' } := by
  unfold setInt at h
  cases hc : v.column col with
  | none =>
    rw [hc] at h
    cases h
    exact .inl rfl
  | some c =>
    simp only [hc] at h
    split_ifs at h with ho hw
    · cases h
      exact .inl rfl
    · cases h
      exact .inl rfl
    · cases hd : v.data[row]? with
      | none =>
        rw [hd] at h
        cases h
      | some words =>
        simp only [hd] at h
        cases hwrite : c.writeInt words val with
        | none =>
          rw [hwrite] at h
          cases h
          exact .inl rfl
        | some words' =>
          rw [hwrite] at h
          cases h
          exact .inr ⟨c, words, words', rfl, Nat.lt_of_not_le ho, rfl, hwrite, rfl⟩

/-- The data may change where the indexes do not notice it. -/
theorem Indexed.of_data (h : Indexed v) (hcols : v'.columns = v.columns)
    (hdata : ∀ c ∈ v.columns, c.hashTable ≠ none → indexOf c v'.data = indexOf c v.data) :
    Indexed v' := by
  intro c hc t ht
  rw [hcols] at hc
  rw [hdata c hc (by rw [ht]; exact Option.some_ne_none t)]
  exact h c hc t ht

theorem Indexed.setInt {e : Option MsiError} (h : Indexed v) (ha : v.Apart)
    (hs : v.Steady (.setInt row col val)) (hset : v.setInt row col val = .ok (e, v')) :
    Indexed v' := by
  obtain rfl | ⟨c, words, words', hc, ho, hd, hw, rfl⟩ := setInt_cases hset
  · exact h
  refine h.of_data rfl fun d hd' hindex => indexOf_congr ?_
  obtain ⟨j, hj⟩ := List.getElem?_of_mem hd'
  have hrow : row < v.data.length := (List.getElem?_eq_some_iff.mp hd).1
  have hread : d.readInt words' = d.readInt words := by
    by_cases hcol : j = col - 1
    · subst hcol
      have hcj : v.columns[col - 1]? = some c := by
        unfold column at hc
        split_ifs at hc
        exact hc
      obtain rfl := Option.some.inj (hcj.symm.trans hj)
      rcases hs c hc with hnone | hsame | hwidth
      · exact absurd hnone hindex
      · rw [fetchInt_eq hc ho, hd, Option.bind_some] at hsame
        rw [writeInt_same hsame] at hw
        rw [← Option.some.inj hw]
      · rw [readInt_of_width hwidth, readInt_of_width hwidth]
    · have hcj : v.columns[col - 1]? = some c := by
        unfold column at hc
        split_ifs at hc
        exact hc
      exact readInt_writeInt hw (ha.disjoint hcj hj fun he => hcol he.symm)
  apply List.ext_getElem? 
  intro i
  rw [List.getElem?_map, List.getElem?_map]
  by_cases hi : i = row
  · subst hi
    rw [List.getElem?_set_self hrow, hd, Option.map_some, Option.map_some, hread]
  · rw [List.getElem?_set_ne fun he => hi he.symm]

theorem setInt_columns {e : Option MsiError} (h : v.setInt row col val = .ok (e, v')) :
    v'.columns = v.columns := by
  obtain rfl | ⟨-, -, -, -, -, -, -, rfl⟩ := setInt_cases h <;> rfl

theorem setColumns_columns {vals : List (BitVec 32)} (h : setColumns row i vals v = .ok v') :
    v'.columns = v.columns := by
  induction vals generalizing i v with
  | nil =>
    cases h
    rfl
  | cons val vals ih =>
    rw [setColumns] at h
    cases hs : v.setInt row (i + 1) val with
    | error f =>
      rw [hs] at h
      cases h
    | ok r =>
      obtain ⟨e, w⟩ := r
      rw [hs] at h
      have hw := setInt_columns hs
      cases e with
      | none => exact (ih h).trans hw
      | some e =>
        cases h
        exact hw

theorem insertRow_columns {vals : List (BitVec 32)} (h : v.insertRow vals mem = .ok v') :
    v'.columns = v.columns := by
  cases mem with
  | false =>
    cases h
    rfl
  | true =>
    have hset : setColumns v.data.length 0 vals
        { v with data := v.data ++ [List.replicate (v.rowSize / 2) 0] } = .ok v' := h
    exact (setColumns_columns hset).trans rfl

theorem Indexed.insertRow {vals : List (BitVec 32)} (h : Indexed v)
    (hs : v.Steady (.insertRow vals mem)) (hins : v.insertRow vals mem = .ok v') : Indexed v' := by
  rcases hs with rfl | hs
  · cases hins
    exact h
  · refine h.of_data (insertRow_columns hins) fun c hc hindex => ?_
    rcases hs c hc with hnone | hwidth
    · exact absurd hnone hindex
    · rw [indexOf_of_width hwidth, indexOf_of_width hwidth]

theorem Indexed.setIndex (h : Indexed v) (hc : v.column col = some c) :
    Indexed (v.setIndex col (indexOf c v.data)) := by
  intro d hd t ht
  have hcj : v.columns[col - 1]? = some c := by
    unfold column at hc
    split_ifs at hc
    exact hc
  obtain ⟨j, hj⟩ := List.getElem?_of_mem hd
  rw [TableView.setIndex, List.getElem?_modify, Option.map_eq_map, Option.map_eq_some_iff] at hj
  obtain ⟨b, hb, rfl⟩ := hj
  split_ifs at ht ⊢ with he
  · subst he
    obtain rfl := Option.some.inj (hcj.symm.trans hb)
    have hsame : indexOf { c with hashTable := some (indexOf c v.data) } v.data =
        indexOf c v.data := indexOf_congr rfl
    exact (Option.some.inj ht).symm.trans hsame.symm
  · exact h b (List.mem_of_getElem? hb) t ht

theorem Indexed.findMatchingRows (h : Indexed v) :
    Indexed (v.findMatchingRows col val handle mem).2.2 := by
  unfold TableView.findMatchingRows
  cases hc : v.column col with
  | none => exact h
  | some c =>
    dsimp only
    cases ht : c.hashTable with
    | some t => exact h
    | none =>
      dsimp only
      split_ifs
      · exact h
      · exact h
      · exact h.setIndex hc

theorem findFrom_invariant {I : TableView → Prop}
    (hfind : ∀ v handle, I v → I (v.findMatchingRows col val handle mem).2.2) (h : I v)
    {r : List ℕ × MsiError × TableView} (hr : findFrom col val mem fuel v handle = some r) :
    I r.2.2 := by
  induction fuel generalizing v handle r with
  | zero => cases hr
  | succ fuel ih =>
    rw [findFrom] at hr
    have hv := hfind v handle h
    generalize hm : v.findMatchingRows col val handle mem = m at hr hv
    obtain ⟨res, handle', w⟩ := m
    cases res with
    | error e =>
      cases hr
      exact hv
    | ok row =>
      obtain ⟨r', hr', rfl⟩ := Option.map_eq_some_iff.mp hr
      have hlast : I r'.2.2 := ih hv hr'
      exact hlast

theorem Apart.findMatchingRows (h : v.Apart) :
    (v.findMatchingRows col val handle mem).2.2.Apart := by
  unfold TableView.findMatchingRows
  cases hc : v.column col with
  | none => exact h
  | some c =>
    dsimp only
    cases ht : c.hashTable with
    | some t => exact h
    | none =>
      dsimp only
      split_ifs
      · exact h
      · exact h
      · unfold Apart
        rw [List.pairwise_iff_getElem]
        intro i j hi hj hij
        simp only [TableView.setIndex, List.length_modify] at hi hj
        have hp := List.pairwise_iff_getElem.mp h i j hi hj hij
        simp only [TableView.setIndex, List.getElem_modify]
        split_ifs <;> exact hp

/-- The indexes are up to date, and the columns of the view do not meet. -/
theorem step_keeps {a : ViewAction} (h : v.Apart ∧ Indexed v) (hs : v.Steady a)
    (hstep : v.step a = .ok v') : v'.Apart ∧ Indexed v' := by
  obtain ⟨ha, hi⟩ := h
  cases a with
  | setInt row col val =>
    rw [step] at hstep
    cases hset : v.setInt row col val with
    | error f =>
      rw [hset] at hstep
      cases hstep
    | ok r =>
      obtain ⟨e, w⟩ := r
      rw [hset] at hstep
      cases hstep
      refine ⟨?_, hi.setInt ha hs hset⟩
      unfold Apart
      rw [setInt_columns hset]
      exact ha
  | insertRow vals mem =>
    refine ⟨?_, hi.insertRow hs hstep⟩
    unfold Apart
    rw [insertRow_columns hstep]
    exact ha
  | findAll col val mem =>
    rw [step] at hstep
    cases hf : v.findAll col val mem with
    | none =>
      rw [hf] at hstep
      cases hstep
    | some r =>
      rw [hf] at hstep
      cases hstep
      exact findFrom_invariant (I := fun v => v.Apart ∧ Indexed v)
        (fun w handle hw => ⟨hw.1.findMatchingRows, hw.2.findMatchingRows⟩) ⟨ha, hi⟩ hf

/-- In a run that keeps the values of searched columns and inserts no rows once a column was
searched, each iteration returns what a scan would. -/
theorem findAll_run {v₀ : TableView} {as : List ViewAction} (ha : v₀.Apart) (hfresh : v₀.Fresh)
    (hr : Lib.Run step Steady v₀ as v) (hc : v.column col = some c) (ho : c.offset < v.rowSize) :
    ∃ v', v.findAll col val true = some (v.rowsWith col val, .noMoreItems, v') := by
  have hinv : v.Apart ∧ Indexed v := by
    refine hr.invariant ⟨ha, fun c hc t ht => ?_⟩ fun t a t' ht hok hst => step_keeps ht hok hst
    rw [hfresh c hc] at ht
    cases ht
  exact findAll_eq hinv.2 hc ho

/-- A view of a table with one column of strings. -/
def oneColumn (t : Option HashTable) (data : List (List (BitVec 16))) : TableView :=
  ⟨[⟨0x0800, 0, t⟩], 2, data⟩

theorem oneColumn_apart (t : Option HashTable) (data : List (List (BitVec 16))) :
    (oneColumn t data).Apart := List.pairwise_singleton _ _

theorem oneColumn_fresh (data : List (List (BitVec 16))) : (oneColumn none data).Fresh := by
  intro c hc
  cases List.mem_singleton.mp hc
  rfl

theorem oneColumn_insert (data : List (List (BitVec 16))) :
    (oneColumn none data).Steady (.insertRow [5] true) :=
  Or.inr fun c hc => Or.inl (oneColumn_fresh data c hc)

/-- The column is searched again after two rows were inserted and it was searched once. -/
theorem findAll_run_two : ∃ v v', Lib.Run step Steady (oneColumn none []) [.insertRow [5] true,
      .insertRow [5] true, .findAll 1 5 true] v ∧
    v.findAll 1 5 true = some (v.rowsWith 1 5, .noMoreItems, v') ∧ v.rowsWith 1 5 = [0, 1] := by
  let t := indexOf ⟨0x0800, 0, none⟩ [[5], [5]]
  have hfirst : Lib.Run step Steady (oneColumn none []) [.insertRow [5] true]
      (oneColumn none [[5]]) := Lib.Run.single (oneColumn_insert []) rfl
  have hsecond : Lib.Run step Steady (oneColumn none []) [.insertRow [5] true, .insertRow [5] true]
      (oneColumn none [[5], [5]]) := Lib.Run.snoc hfirst (oneColumn_insert [[5]]) rfl
  have hfind : (oneColumn none [[5], [5]]).Steady (.findAll 1 5 true) := True.intro
  have hlast : Lib.Run step Steady (oneColumn none [])
      [.insertRow [5] true, .insertRow [5] true, .findAll 1 5 true]
      (oneColumn (some t) [[5], [5]]) := Lib.Run.snoc hsecond hfind rfl
  have hc : (oneColumn (some t) [[5], [5]]).column 1 = some ⟨0x0800, 0, some t⟩ := rfl
  obtain ⟨v', hv'⟩ := findAll_run (oneColumn_apart none []) (oneColumn_fresh []) hlast hc
    (Nat.zero_lt_two)
  exact ⟨_, v', hlast, hv', by decide +kernel⟩

/-- A row that is inserted after a search is not found. -/
theorem findAll_stale :
    ¬∀ (v₀ v : TableView) (as : List ViewAction) (col : ℕ) (val : BitVec 32) (c : ColumnInfo),
      v₀.Apart → v₀.Fresh → Lib.Run step (fun _ _ => True) v₀ as v → v.column col = some c →
      c.offset < v.rowSize →
      ∃ v', v.findAll col val true = some (v.rowsWith col val, .noMoreItems, v') := by
  intro h
  have hfirst : Lib.Run step (fun _ _ => True) (oneColumn none []) [.findAll 1 5 true]
      (oneColumn (some fun _ => []) []) := Lib.Run.single True.intro rfl
  have hlast : Lib.Run step (fun _ _ => True) (oneColumn none [])
      [.findAll 1 5 true, .insertRow [5] true] (oneColumn (some fun _ => []) [[5]]) :=
    Lib.Run.snoc hfirst True.intro rfl
  obtain ⟨v', hv'⟩ := h _ _ _ 1 5 ⟨0x0800, 0, some fun _ => []⟩ (oneColumn_apart none [])
    (oneColumn_fresh []) hlast rfl Nat.zero_lt_two
  have hnone : (oneColumn (some fun _ => []) [[5]]).findAll 1 5 true =
      some ([], .noMoreItems, oneColumn (some fun _ => []) [[5]]) := rfl
  have hrows : (oneColumn (some fun _ => []) [[5]]).rowsWith 1 5 = [0] := rfl
  rw [hnone, hrows] at hv'
  cases hv'

end TableView
end Wine.Msi
