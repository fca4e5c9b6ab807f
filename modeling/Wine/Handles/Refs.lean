import Wine.Handles.Layout

/-!
# References held by handle tables

Between two calls, the reference count of an object is what the other parts of the server hold plus
the number of table entries for it. Inside a call there are also references in local variables,
which `Counted` lists. The exception is `close_handle` of an entry with a cached fd for a caller that
cannot close it: the entry is cleared, but its reference is not dropped.
-/

namespace Wine.Handles
open Wine.Lib
open Wine.Server (ObjId Access intMax)

/-! ## Counting entries -/

/-- The objects in the entries below `n`. -/
def entryObjects (e : ℕ → HandleEntry) (n : ℕ) : List ObjId :=
  (List.range n).filterMap fun i => (e i).ptr

theorem entryObjects_succ (e : ℕ → HandleEntry) (n : ℕ) :
    entryObjects e (n + 1) = entryObjects e n ++ (e n).ptr.toList := by
  simp only [entryObjects, List.range_succ, List.filterMap_append, List.filterMap_cons,
    List.filterMap_nil]
  cases (e n).ptr <;> rfl

theorem entryObjects_congr {e f : ℕ → HandleEntry} {n : ℕ}
    (h : ∀ i < n, (e i).ptr = (f i).ptr) : entryObjects e n = entryObjects f n := by
  induction n with
  | zero => rfl
  | succ n ih =>
    rw [entryObjects_succ, entryObjects_succ, ih fun i hi => h i (by omega), h n (by omega)]

theorem entryObjects_of_none {e : ℕ → HandleEntry} {n m : ℕ} (hm : n ≤ m)
    (h : ∀ i, n ≤ i → i < m → (e i).ptr = none) : entryObjects e m = entryObjects e n := by
  induction m, hm using Nat.le_induction with
  | base => rfl
  | succ m hm ih =>
    rw [entryObjects_succ, h m hm (by omega), Option.toList_none, List.append_nil]
    exact ih fun i hi hi' => h i hi (by omega)

/-- Replacing an entry moves the count of its object to that of the new one. -/
theorem count_entryObjects_update (e : ℕ → HandleEntry) {n i : ℕ} (hi : i < n) (x : HandleEntry)
    (o : ObjId) :
    (entryObjects (Function.update e i x) n).count o + (e i).ptr.toList.count o =
      (entryObjects e n).count o + x.ptr.toList.count o := by
  induction n with
  | zero => omega
  | succ n ih =>
    simp only [entryObjects_succ, List.count_append]
    rcases Nat.lt_succ_iff_lt_or_eq.mp hi with hi | rfl
    · rw [Function.update_of_ne (by omega)]
      have := ih hi
      omega
    · rw [Function.update_self, entryObjects_congr (f := e) fun j hj => by
        rw [Function.update_of_ne (by omega)]]
      omega

theorem objects_eq (t : HandleTable) :
    t.objects = entryObjects t.entries (t.last + 1).toNat := rfl

theorem objects_shrinkHandleTable (t : HandleTable) (mem : Bool) :
    (shrinkHandleTable t mem).objects = t.objects := by
  rw [objects_eq, objects_eq, shrinkHandleTable_entries, shrinkHandleTable_last]
  have hlt := lastUsed_lt t.entries (t.last + 1).toNat
  refine (entryObjects_of_none (by omega) fun i hi hi' => ?_).symm
  exact ptr_of_lastUsed_lt t.entries hi' (by omega)

/-! ## The free hint -/

/-- Every entry below the free hint is in use. -/
def HandleTable.Tight (t : HandleTable) : Prop :=
  ∀ i < t.free, (i : ℤ) ≤ t.last ∧ (t.entries i).ptr ≠ none

theorem HandleTable.Tight.search {t : HandleTable} (h : t.Tight) (hl : -1 ≤ t.last) :
    (t.search : ℤ) ≤ t.last + 1 := by
  by_contra hlt
  have hs := search_of_last_lt t (by omega)
  rcases Nat.eq_zero_or_pos t.free with hz | hpos
  · omega
  · have := (h (t.free - 1) (by omega)).1
    omega

theorem HandleTable.Tight.before_search {t : HandleTable} (h : t.Tight) {j : ℕ}
    (hj : j < t.search) : (t.entries j).ptr ≠ none := by
  rcases Nat.lt_or_ge j t.free with hf | hf
  · exact (h j hf).2
  · exact search_before t hf hj

theorem HandleTable.Tight.install {t : HandleTable} (h : t.Tight) {last : ℤ}
    (hlast : (t.search : ℤ) ≤ last) (o : ObjId) (access : Access) :
    ({ t with last := last }.install t.search o access).Tight := by
  intro i hi
  simp only [HandleTable.install] at hi ⊢
  refine ⟨by omega, ?_⟩
  rcases Nat.lt_succ_iff_lt_or_eq.mp hi with hlt | rfl
  · rw [Function.update_of_ne (by omega)]
    exact h.before_search hlt
  · simp only [Function.update_self, ne_eq, reduceCtorEq, not_false_eq_true]

theorem HandleTable.Tight.setEntry {t : HandleTable} (h : t.Tight) {i : ℕ} {e : HandleEntry}
    (he : e.ptr = (t.entries i).ptr) : (t.setEntry i e).Tight := by
  intro j hj
  refine ⟨(h j hj).1, ?_⟩
  rcases eq_or_ne j i with rfl | hne
  · simpa only [HandleTable.setEntry, Function.update_self, he] using (h j hj).2
  · simpa only [HandleTable.setEntry, Function.update_of_ne hne] using (h j hj).2

theorem HandleTable.Tight.shrink {t : HandleTable} (h : t.Tight) (mem : Bool) :
    (shrinkHandleTable t mem).Tight := by
  intro i hi
  rw [shrinkHandleTable_free] at hi
  rw [shrinkHandleTable_entries, shrinkHandleTable_last]
  exact ⟨le_lastUsed _ (by have := (h i hi).1; omega) (h i hi).2, (h i hi).2⟩

theorem HandleTable.Tight.close {t : HandleTable} (h : t.Tight) (i : ℕ) (mem : Bool) :
    (t.close i mem).Tight := by
  have hset : ({ t.setEntry i { t.entries i with ptr := none, fd := -1 } with
      free := if i < t.free then i else t.free } : HandleTable).Tight := by
    intro j hj
    have hj' : j < t.free ∧ j ≠ i := by
      simp only at hj
      split at hj <;> omega
    simpa only [HandleTable.setEntry, Function.update_of_ne hj'.2] using h j hj'.1
  simp only [HandleTable.close]
  split
  · exact hset.shrink mem
  · exact hset

theorem objects_close (t : HandleTable) (i : ℕ) (mem : Bool) :
    (t.close i mem).objects =
      (t.setEntry i { t.entries i with ptr := none, fd := -1 }).objects := by
  simp only [HandleTable.close]
  split
  · exact objects_shrinkHandleTable _ mem
  · rfl

/-! ## Counting references -/

def tableObjects : Option HandleTable → List ObjId
  | none => []
  | some t => t.objects

def State.tableIds (s : State) : Finset TableId := Finset.insertNone (Finset.range s.nextProcess)

/-- The number of table entries for `o`. -/
def State.tableRefs (s : State) (o : ObjId) : ℕ :=
  ∑ id ∈ s.tableIds, (tableObjects (s.table id)).count o

/-- `held` are the references in local variables. -/
structure Counted (s : State) (held : List ObjId) : Prop where
  refcount_eq : ∀ o, s.refcount o = s.others o + s.tableRefs o + held.count o
  table_none : ∀ p, s.nextProcess ≤ p → s.table (some p) = none
  table_ok : ∀ id t, s.table id = some t → t.Bounded ∧ t.Tight

def refOverflow (e : Fault) : Prop := e = .grabObject

theorem Counted.mem_tableIds {s : State} {held : List ObjId} (h : Counted s held) {id : TableId}
    {t : HandleTable} (ht : s.table id = some t) : id ∈ s.tableIds := by
  cases id with
  | none => exact Finset.none_mem_insertNone
  | some p =>
    refine Finset.some_mem_insertNone.mpr (Finset.mem_range.mpr ?_)
    by_contra hge
    rw [h.table_none p (not_lt.mp hge)] at ht
    cases ht

theorem tableRefs_setTable (s : State) {id : TableId} (hid : id ∈ s.tableIds)
    (t : Option HandleTable) (o : ObjId) :
    (s.setTable id t).tableRefs o + (tableObjects (s.table id)).count o =
      s.tableRefs o + (tableObjects t).count o := by
  have hids : (s.setTable id t).tableIds = s.tableIds := rfl
  simp only [State.tableRefs, hids]
  rw [← Finset.add_sum_erase _ _ hid, ← Finset.add_sum_erase _ _ hid]
  have hsum : ∑ x ∈ s.tableIds.erase id,
        (tableObjects ((s.setTable id t).table x)).count o =
      ∑ x ∈ s.tableIds.erase id, (tableObjects (s.table x)).count o := by
    refine Finset.sum_congr rfl fun x hx => ?_
    simp only [State.setTable, Function.update_of_ne (Finset.ne_of_mem_erase hx)]
  rw [hsum]
  simp only [State.setTable, Function.update_self]
  omega

theorem Counted.setTable {s : State} {held held' : List ObjId} (h : Counted s held) {id : TableId}
    (hid : id ∈ s.tableIds) {t : Option HandleTable}
    (ht : ∀ t', t = some t' → t'.Bounded ∧ t'.Tight)
    (hcount : ∀ o, (tableObjects t).count o + held'.count o =
      (tableObjects (s.table id)).count o + held.count o) :
    Counted (s.setTable id t) held' where
  refcount_eq o := by
    have := tableRefs_setTable s hid t o
    have := hcount o
    have := h.refcount_eq o
    change s.refcount o = s.others o + (s.setTable id t).tableRefs o + held'.count o
    omega
  table_none p hp := by
    have hne : some p ≠ id := by
      rintro rfl
      have hlt := Finset.mem_range.mp (Finset.some_mem_insertNone.mp hid)
      exact absurd hlt (by exact hp.not_gt)
    simpa only [State.setTable, Function.update_of_ne hne] using h.table_none p hp
  table_ok id' t' ht' := by
    rcases eq_or_ne id' id with rfl | hne
    · exact ht t' (by simpa only [State.setTable, Function.update_self] using ht')
    · exact h.table_ok id' t' (by simpa only [State.setTable, Function.update_of_ne hne] using ht')

theorem Counted.of_eq {s s' : State} {held : List ObjId} (h : Counted s held)
    (hr : s'.refcount = s.refcount) (ho : s'.others = s.others) (ht : s'.table = s.table)
    (hn : s'.nextProcess = s.nextProcess) : Counted s' held := by
  obtain ⟨r, o, t, n, e, l⟩ := s'
  subst hr ho ht hn
  exact ⟨h.refcount_eq, h.table_none, h.table_ok⟩

theorem wp_setError_counted {s : State} {held : List ObjId} (h : Counted s held) (e : ℕ) :
    wp (setError e) (fun _ s' => Counted s' held) refOverflow s := by
  simp only [setError, wp_modify]
  exact h.of_eq rfl rfl rfl rfl

theorem wp_grabObject_counted {s : State} {held : List ObjId} (h : Counted s held) (o : ObjId) :
    wp (grabObject o) (fun _ s' => Counted s' (o :: held)) refOverflow s := by
  simp only [grabObject, wp_bind, wp_get, wp_ite, wp_set, wp_throw]
  refine ⟨fun _ => ⟨fun o' => ?_, h.table_none, h.table_ok⟩, fun _ => rfl⟩
  have := h.refcount_eq o'
  change Function.update s.refcount o (s.refcount o + 1) o' =
    s.others o' + s.tableRefs o' + (o :: held).count o'
  rcases eq_or_ne o' o with rfl | hne
  · rw [Function.update_self, List.count_cons_self]
    omega
  · rw [Function.update_of_ne hne, List.count_cons_of_ne hne.symm]
    exact this

theorem wp_grabObject_table (s : State) (o : ObjId) :
    wp (grabObject o) (fun _ s' => s'.table = s.table ∧ s'.nextProcess = s.nextProcess)
      refOverflow s := by
  simp only [grabObject, wp_bind, wp_get, wp_ite, wp_set, wp_throw]
  exact ⟨fun _ => ⟨rfl, rfl⟩, fun _ => rfl⟩

theorem wp_releaseObject_counted {s : State} {held : List ObjId} {o : ObjId}
    (h : Counted s (o :: held)) :
    wp (releaseObject o) (fun _ s' => Counted s' held) refOverflow s := by
  have ho := h.refcount_eq o
  rw [List.count_cons_self] at ho
  simp only [releaseObject, wp_bind, wp_get, wp_ite, wp_set, wp_throw]
  refine ⟨fun hz => by omega, fun _ => ⟨fun o' => ?_, h.table_none, h.table_ok⟩⟩
  have := h.refcount_eq o'
  change Function.update s.refcount o (s.refcount o - 1) o' =
    s.others o' + s.tableRefs o' + held.count o'
  rcases eq_or_ne o' o with rfl | hne
  · rw [Function.update_self]
    omega
  · rw [List.count_cons_of_ne hne.symm] at this
    rw [Function.update_of_ne hne]
    exact this

theorem wp_forM_releaseObject_counted {s : State} {held os : List ObjId}
    (h : Counted s (os ++ held)) :
    wp (forM os releaseObject) (fun _ s' => Counted s' held) refOverflow s := by
  induction os generalizing s with
  | nil => exact h
  | cons o os ih =>
    simp only [List.forM_cons, wp_bind]
    exact wp_mono (wp_releaseObject_counted h) fun _ _ h' => ih h'

theorem wp_forM_grabObject_counted {s : State} {held os : List ObjId} (h : Counted s held) :
    wp (forM os grabObject) (fun _ s' => Counted s' (os ++ held)) refOverflow s := by
  induction os generalizing s held with
  | nil => exact h
  | cons o os ih =>
    simp only [List.forM_cons, wp_bind]
    refine wp_mono (wp_grabObject_counted h o) fun _ _ h' => wp_mono (ih h') fun _ s'' h'' => ?_
    refine ⟨fun o' => ?_, h''.table_none, h''.table_ok⟩
    have := h''.refcount_eq o'
    simp only [List.count_append, List.cons_append, List.count_cons] at this ⊢
    omega

end Wine.Handles
