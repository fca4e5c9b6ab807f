import Wine.Handles.Refs

/-!
# No handle table leaks or loses a reference

Each function of the handle tables keeps `Counted`, and so does every run in which no client closes
an entry whose cached fd cannot be returned to it.
-/

namespace Wine.Handles
open Wine.Lib
open Wine.Server (ObjId Access intMax)

section
variable {s : State} {held : List ObjId}

/-! ## Allocation -/

theorem wp_useEntry_counted (h : Counted s held) {id : TableId} {t t' : HandleTable}
    (ht : s.table id = some t) {i : ℕ} (o : ObjId) (access : Access)
    (hok : (t'.install i o access).Bounded ∧ (t'.install i o access).Tight)
    (hcount : ∀ o', (t'.install i o access).objects.count o' = t.objects.count o' +
      [o].count o') :
    wp (useEntry id t' i o access) (fun _ s' => Counted s' held) refOverflow s := by
  simp only [useEntry, wp_bind, wp_modify, wp_pure]
  refine wp_mono (wp_and (wp_grabObject_counted h o)
    (wp_grabObject_table s o)) fun _ s' h' => ?_
  have hid := h.mem_tableIds ht
  refine h'.1.setTable (by rwa [State.tableIds, h'.2.2]) (fun _ he => ?_) fun o' => ?_
  · cases he
    exact hok
  · have := hcount o'
    rw [h'.2.1, ht]
    simp only [tableObjects, List.count_cons, List.count_nil] at this ⊢
    omega

theorem objects_install {t : HandleTable} {i : ℕ} (hi : (i : ℤ) ≤ t.last)
    (hp : (t.entries i).ptr = none) (o : ObjId) (access : Access) (o' : ObjId) :
    (t.install i o access).objects.count o' = t.objects.count o' + [o].count o' := by
  have h := count_entryObjects_update t.entries (n := (t.last + 1).toNat) (i := i) (by omega)
    ⟨some o, access, -1⟩ o'
  rw [hp, Option.toList_none, List.count_nil] at h
  exact h

/-- With a tight hint, an entry that is not below `last` is the one after it. -/
theorem objects_install_last {t : HandleTable} {i : ℕ} (hi : (i : ℤ) = t.last + 1) (o : ObjId)
    (access : Access) (o' : ObjId) :
    ({ t with last := i }.install i o access).objects.count o' =
      t.objects.count o' + [o].count o' := by
  have hn : ((i : ℤ) + 1).toNat = (t.last + 1).toNat + 1 := by omega
  have hi' : (t.last + 1).toNat = i := by omega
  simp only [objects_eq, HandleTable.install, hn, entryObjects_succ, List.count_append, hi']
  rw [Function.update_self, entryObjects_congr (f := t.entries) fun j hj => by
    rw [Function.update_of_ne (by omega)]]
  rfl

theorem objects_grown {t : HandleTable} (h : t.Bounded) (fill : ℕ → HandleEntry) :
    (t.grown fill).objects = t.objects := by
  have := h.last_lt
  refine entryObjects_congr fun i hi => ?_
  simp only [HandleTable.grown] at hi ⊢
  rw [if_pos (by omega)]

theorem HandleTable.Tight.grown {t : HandleTable} (h : t.Tight) (hb : t.Bounded)
    (fill : ℕ → HandleEntry) : (t.grown fill).Tight := by
  intro i hi
  have hi' := h i hi
  have := hb.last_lt
  simp only [HandleTable.grown]
  rw [if_pos (by omega)]
  exact hi'

theorem search_grown {t : HandleTable} (hb : t.Bounded) (fill : ℕ → HandleEntry)
    (hs : t.last < t.search) : (t.grown fill).search = t.search := by
  have hle := hb.le_last
  have h1 := search_of_last_lt t hs
  have h2 : (t.grown fill).last < (t.grown fill).search := by
    by_contra hlt
    have hlast := hb.last_lt
    have hp := search_ptr (t.grown fill) (not_lt.mp hlt)
    have hge : t.free ≤ (t.grown fill).search := free_le_search (t.grown fill)
    have hlt' : ((t.grown fill).search : ℤ) ≤ t.last := not_lt.mp hlt
    have heq : (t.grown fill).entries (t.grown fill).search =
        t.entries (t.grown fill).search := if_pos (by omega)
    rw [heq] at hp
    exact search_before t hge (by omega) hp
  have h3 := search_of_last_lt (t.grown fill) h2
  exact h3.trans h1.symm

theorem wp_allocEntry_counted (h : Counted s held) {id : TableId} {t : HandleTable}
    (ht : s.table id = some t) (o : ObjId) (access : Access) (mem : Grown) :
    wp (allocEntry id t o access mem) (fun _ s' => Counted s' held) refOverflow s := by
  obtain ⟨hb, htight⟩ := h.table_ok id t ht
  have hle := hb.le_last
  have hlt := hb.last_lt
  have hsearch := htight.search hle
  unfold allocEntry
  rw [wp_ite, wp_ite]
  refine ⟨fun hfound => ?_, fun hnot => ⟨fun hroom => ?_, fun hfull => ?_⟩⟩
  · exact wp_useEntry_counted h ht o access
      ⟨hb.install (by omega) o access, htight.install hfound o access⟩
      (objects_install hfound (search_ptr t hfound) o access)
  · refine wp_useEntry_counted h ht o access ⟨?_, htight.install le_rfl o access⟩
      (objects_install_last (by omega) o access)
    exact HandleTable.Bounded.install (t := { t with last := t.search })
      ⟨hb.count_eq, by simp only; omega, by simp only; omega, hb.free_lt⟩ hroom o access
  · simp only [growHandleTable, wp_bind, wp_ite]
    refine ⟨fun _ => h, fun hmax => ?_⟩
    cases mem with
    | none => simpa only [wp_bind, wp_pure] using wp_setError_counted h _
    | some fill =>
      simp only [wp_pure]
      have hg := hb.grown (by omega) fill
      have hs := search_grown hb fill (by omega)
      have hcount : t.search < (t.grown fill).count := by
        have := hb.free_lt
        have := hb.count_pos
        change t.search < 2 * t.count
        omega
      refine wp_useEntry_counted h ht o access ⟨?_, ?_⟩ ?_
      · exact HandleTable.Bounded.install (t := { t.grown fill with last := t.search })
          ⟨hg.count_eq, by simp only; omega, by simp only; omega, hg.free_lt⟩ hcount o access
      · rw [← hs]
        exact (htight.grown hb fill).install le_rfl o access
      · rw [← objects_grown hb fill]
        exact objects_install_last (t := t.grown fill)
          (by change (t.search : ℤ) = t.last + 1; omega) o access

variable (mapAccess : ObjId → Access → Access)

theorem wp_allocHandle_counted (h : Counted s held) (p : ProcessId) (o : ObjId) (access : Access)
    (inherit : Bool) (mem : Grown) :
    wp (allocHandle mapAccess p o access inherit mem) (fun _ s' => Counted s' held)
      refOverflow s := by
  simp only [allocHandle, wp_bind, wp_get]
  cases ht : s.table (some p) with
  | none => simpa only [wp_bind, wp_pure] using wp_setError_counted h _
  | some t => exact wp_allocEntry_counted h ht o _ mem

theorem tight_allocHandleTable (id : TableId) (count : ℕ) :
    (allocHandleTable id count).Tight := fun _ hi => absurd hi (Nat.not_lt_zero _)

theorem counted_newTable (h : Counted s held) {id : TableId} (hid : id ∈ s.tableIds)
    (hnone : s.table id = none) : Counted (s.setTable id (some (allocHandleTable id 0))) held := by
  refine h.setTable hid (fun _ he => ?_) fun o => ?_
  · cases he
    exact ⟨bounded_allocHandleTable_zero id, tight_allocHandleTable id 0⟩
  · rw [hnone]
    rfl

theorem wp_allocGlobalHandle_counted (h : Counted s held) (o : ObjId) (access : Access)
    (memTable : Bool) (mem : Grown) :
    wp (allocGlobalHandle o access memTable mem) (fun _ s' => Counted s' held) refOverflow s := by
  simp only [allocGlobalHandle, wp_bind, wp_get]
  cases ht : s.table none with
  | none =>
    cases memTable with
    | false =>
      simp only [Bool.false_eq_true, if_false, wp_bind, wp_pure]
      exact wp_setError_counted h _
    | true =>
      simp only [if_true, wp_bind, wp_modify, wp_pure]
      exact wp_allocEntry_counted (counted_newTable h Finset.none_mem_insertNone ht)
        (Function.update_self ..) o access mem
  | some t =>
    simp only [wp_bind, wp_pure]
    exact wp_allocEntry_counted h ht o access mem

/-! ## Lookup and closing -/

theorem getHandle_table {p : ProcessId} {handle : ObjHandle} {f : Found}
    (h : s.getHandle p handle = some f) :
    s.table f.id = some f.table ∧ (f.index : ℤ) ≤ f.table.last ∧ f.entry.ptr = some f.obj := by
  unfold State.getHandle at h
  split at h
  · cases h
  · rename_i t ht
    split at h
    · cases h
    · split at h
      · cases h
      · cases h
        exact ⟨ht, by simp only; omega, ‹_›⟩

theorem wp_getHandleObj_counted (h : Counted s held) (thread process : ObjId) (p : ProcessId)
    (handle : ObjHandle) (access : Access) :
    wp (getHandleObj thread process p handle access)
      (fun r s' => Counted s' (r.toList ++ held)) refOverflow s := by
  unfold getHandleObj
  split
  · simp only [wp_bind, wp_pure]
    exact wp_grabObject_counted h _
  · simp only [wp_bind, wp_get]
    split
    · simp only [wp_bind, wp_pure]
      exact wp_setError_counted h _
    · simp only [wp_ite, wp_bind, wp_pure]
      exact ⟨fun _ => wp_setError_counted h _, fun _ => wp_grabObject_counted h _⟩

theorem wp_duplicateHandle_counted (h : Counted s held) (thread process : ObjId) (src : ProcessId)
    (srcHandle : ObjHandle) (dst : ProcessId) (access : Access) (inherit : Bool)
    (options : DuplicateOptions) (memTable : Bool) (mem : Grown) :
    wp (duplicateHandle mapAccess thread process src srcHandle dst access inherit options memTable
      mem) (fun _ s' => Counted s' held) refOverflow s := by
  simp only [duplicateHandle, wp_bind]
  refine wp_mono (wp_getHandleObj_counted h thread process src srcHandle 0) fun r s' h' => ?_
  cases r with
  | none => exact h'
  | some o =>
    simp only [wp_bind, wp_get]
    simp only [wp_ite, wp_bind, wp_pure]
    exact ⟨fun _ => wp_mono (wp_allocGlobalHandle_counted h' o _ memTable mem)
        fun _ _ h'' => wp_releaseObject_counted h'',
      fun _ => wp_mono (wp_allocHandle_counted mapAccess h' dst o _ inherit mem)
        fun _ _ h'' => wp_releaseObject_counted h''⟩

/-- Writing an entry without a change of its object. -/
theorem counted_setEntry (h : Counted s held) {id : TableId} {t : HandleTable}
    (ht : s.table id = some t) {i : ℕ} (hi : (i : ℤ) ≤ t.last) {e : HandleEntry}
    (he : e.ptr = (t.entries i).ptr) : Counted (s.setTable id (some (t.setEntry i e))) held := by
  obtain ⟨hb, htight⟩ := h.table_ok id t ht
  refine h.setTable (h.mem_tableIds ht) (fun _ hs => ?_) fun o => ?_
  · cases hs
    exact ⟨hb.setEntry i e, htight.setEntry he⟩
  · have := count_entryObjects_update t.entries (n := (t.last + 1).toNat) (i := i) (by omega) e o
    rw [he, Nat.add_right_cancel_iff] at this
    rw [ht]
    exact congrArg (· + held.count o) this

/-- The entry that `handle` names cannot be closed without losing a reference: nobody takes its
cached fd back. -/
def State.FdStuck (s : State) (p : ProcessId) (handle : ObjHandle) (fd closable : Bool) : Prop :=
  ∃ f, s.getHandle p handle = some f ∧ f.entry.access &&& reservedCloseProtect = 0 ∧
    closable = true ∧ fd = false ∧ f.entry.fd ≠ -1

theorem wp_closeHandle_counted (h : Counted s held) {p : ProcessId} {handle : ObjHandle}
    {fd closable : Bool} (hfd : ¬ s.FdStuck p handle fd closable) (mem : Bool) :
    wp (closeHandle p handle fd closable mem) (fun _ s' => Counted s' held) refOverflow s := by
  simp only [closeHandle, wp_bind, wp_get]
  cases hf : s.getHandle p handle with
  | none => simpa only [wp_bind, wp_pure] using wp_setError_counted h _
  | some f =>
    obtain ⟨ht, hi, hp⟩ := getHandle_table hf
    obtain ⟨hb, htight⟩ := h.table_ok f.id f.table ht
    simp only [wp_ite, wp_bind, wp_set, wp_pure]
    refine ⟨fun _ => wp_setError_counted h _, fun hclose => ⟨fun hstuck => ?_, fun _ => ?_⟩⟩
    · simp only [not_or, not_not, Bool.not_eq_true', Bool.not_eq_false] at hclose hstuck
      exact absurd ⟨f, hf, hclose.1, hclose.2, hstuck⟩ hfd
    · refine wp_releaseObject_counted (h.setTable (h.mem_tableIds ht) (fun _ he => ?_) fun o => ?_)
      · cases he
        exact ⟨bounded_close hb hi mem, htight.close f.index mem⟩
      · have hupd := count_entryObjects_update f.table.entries (n := (f.table.last + 1).toNat)
          (i := f.index) (by omega) { f.entry with ptr := none, fd := -1 } o
        have hclosed : (f.table.close f.index mem).objects.count o = (entryObjects
            (Function.update f.table.entries f.index { f.entry with ptr := none, fd := -1 })
            (f.table.last + 1).toNat).count o := by
          rw [objects_close]
          rfl
        have hptr : (f.table.entries f.index).ptr = some f.obj := hp
        rw [ht]
        simp only [tableObjects, objects_eq f.table, hclosed]
        simp only [hptr, Option.toList_some, Option.toList_none, List.count_nil, List.count_cons]
          at hupd ⊢
        omega

theorem wp_destroyHandleTable_counted (h : Counted s held) (p : ProcessId) :
    wp (destroyHandleTable p) (fun _ s' => Counted s' held) refOverflow s := by
  simp only [destroyHandleTable, wp_bind, wp_get]
  cases ht : s.table (some p) with
  | none => exact h
  | some t =>
    simp only [wp_bind, wp_set]
    refine wp_forM_releaseObject_counted (h.setTable (h.mem_tableIds ht) (fun _ he => ?_)
      fun o => ?_)
    · cases he
    · rw [ht, List.count_append]
      simp only [tableObjects, List.count_nil, Nat.zero_add]

/-! ## Inheritance and the remaining functions -/

/-- The new process does not exist before, so its table is the only one that changes. -/
theorem wp_copyHandleTable_counted (h : Counted s held) {p : ProcessId} (hp : some p ∈ s.tableIds)
    (hnone : s.table (some p) = none) {parent : HandleTable} (hb : parent.Bounded)
    (mem memShrink : Bool) :
    wp (copyHandleTable p parent mem memShrink) (fun _ s' => Counted s' held) refOverflow s := by
  unfold copyHandleTable
  cases mem with
  | false => exact wp_setError_counted h _
  | true =>
    simp only [Bool.not_true, Bool.false_eq_true, if_false, wp_bind, wp_modify]
    refine wp_mono (wp_and (wp_forM_grabObject_counted h)
      (wp_forM (I := fun s' => s'.table = s.table ∧ s'.nextProcess = s.nextProcess)
        (fun o _ s' hs' => wp_mono (wp_grabObject_table s' o) fun _ _ h' =>
          ⟨h'.1.trans hs'.1, h'.2.trans hs'.2⟩) ⟨rfl, rfl⟩)) fun _ s' h' => ?_
    refine h'.1.setTable (by rwa [State.tableIds, h'.2.2]) (fun _ he => ?_) fun o => ?_
    · cases he
      exact ⟨bounded_copied (some p) hb _ memShrink,
        HandleTable.Tight.shrink (fun _ hi => absurd hi (Nat.not_lt_zero _)) memShrink⟩
    · rw [h'.2.1, hnone]
      simp only [tableObjects, objects_shrinkHandleTable, List.count_append, List.count_nil]
      omega

theorem wp_setHandleUnixFd_counted (h : Counted s held) (p : ProcessId) (handle : ObjHandle)
    (fd : ℤ) : wp (setHandleUnixFd p handle fd) (fun _ s' => Counted s' held) refOverflow s := by
  simp only [setHandleUnixFd, wp_ite, wp_pure, wp_bind, wp_get]
  refine ⟨fun _ => h, fun _ => ?_⟩
  cases hf : s.getHandle p handle with
  | none => simpa only [wp_bind, wp_pure] using wp_setError_counted h _
  | some f =>
    obtain ⟨ht, hi, -⟩ := getHandle_table hf
    simp only [wp_ite, wp_bind, wp_set, wp_pure]
    exact ⟨fun _ => counted_setEntry h ht hi rfl, fun _ => h⟩

theorem wp_flushCachedFd_counted (h : Counted s held) (p : ProcessId) (handle : ObjHandle) :
    wp (flushCachedFd p handle) (fun _ s' => Counted s' held) refOverflow s := by
  simp only [flushCachedFd, wp_bind, wp_get]
  cases hf : s.getHandle p handle with
  | none => simpa only [wp_bind, wp_pure] using wp_setError_counted h _
  | some f =>
    obtain ⟨ht, hi, -⟩ := getHandle_table hf
    simp only [wp_bind, wp_set, wp_pure]
    exact counted_setEntry h ht hi rfl

theorem wp_setHandleFlags_counted (h : Counted s held) (p : ProcessId) (handle : ObjHandle)
    (mask flags : Access) :
    wp (setHandleFlags p handle mask flags) (fun _ s' => Counted s' held) refOverflow s := by
  simp only [setHandleFlags, wp_bind, wp_get]
  cases hf : s.getHandle p handle with
  | none => exact wp_setError_counted h _
  | some f =>
    obtain ⟨ht, hi, -⟩ := getHandle_table hf
    exact counted_setEntry h ht hi rfl

/-! ## Runs -/

theorem counted_issue (h : Counted s held) (id : TableId) (handle : ObjHandle) (o : ObjId) :
    Counted (s.issue id handle o) held := by
  unfold State.issue
  split
  · exact h
  · exact h.of_eq rfl rfl rfl rfl

/-- A reference that another part of the server takes or gives up. -/
theorem counted_setOthers {n : ℕ} {o : ObjId} {held' : List ObjId} (h : Counted s held)
    (ho : n + held'.count o = s.others o + held.count o)
    (hne : ∀ o', o' ≠ o → held'.count o' = held.count o') :
    Counted (s.setOthers o n) held' := by
  refine ⟨fun o' => ?_, h.table_none, h.table_ok⟩
  have := h.refcount_eq o'
  change s.refcount o' = Function.update s.others o n o' + s.tableRefs o' + held'.count o'
  rcases eq_or_ne o' o with rfl | hn
  · rw [Function.update_self]
    omega
  · rw [Function.update_of_ne hn, hne o' hn]
    exact this

/-- No step closes an entry whose cached fd cannot be returned. -/
def fdReturned (s : State) : Action → Prop
  | .closeHandle p handle fd closable _ => ¬ s.FdStuck p handle fd closable
  | _ => True

theorem counted_bumpProcess (h : Counted s held) :
    Counted { s with nextProcess := s.nextProcess + 1 } held := by
  refine ⟨fun o => ?_, fun p hp => h.table_none p (Nat.le_of_succ_le hp), h.table_ok⟩
  have hnone := h.table_none s.nextProcess le_rfl
  have hsum : State.tableRefs { s with nextProcess := s.nextProcess + 1 } o = s.tableRefs o := by
    simp only [State.tableRefs, State.tableIds, Finset.sum_insertNone, Finset.sum_range_succ,
      hnone, tableObjects, List.count_nil, Nat.add_zero]
  rw [hsum]
  exact h.refcount_eq o

theorem wp_act_counted (h : Counted s []) {a : Action} (hok : fdReturned s a) :
    wp (act mapAccess a) (fun _ s' => Counted s' []) refOverflow s := by
  cases a with
  | createObject o =>
    simp only [act, wp_modify]
    split
    · rename_i hz
      have ho := h.refcount_eq o
      refine ⟨fun o' => ?_, h.table_none, h.table_ok⟩
      have := h.refcount_eq o'
      change Function.update s.refcount o 1 o' =
        Function.update s.others o 1 o' + s.tableRefs o' + _
      rcases eq_or_ne o' o with rfl | hne
      · simp only [Function.update_self]
        omega
      · simpa only [Function.update_of_ne hne] using this
    · exact h
  | grab o =>
    simp only [act, wp_bind, wp_get, wp_ite, wp_modify, wp_pure]
    refine ⟨fun _ => wp_mono (wp_grabObject_counted h o) fun _ s' h' => ?_, fun _ => h⟩
    refine counted_setOthers h' (by rw [List.count_cons_self]; omega) fun o' hne => ?_
    rw [List.count_cons_of_ne hne.symm]
  | release o =>
    simp only [act, wp_bind, wp_get, wp_ite, wp_modify, wp_pure]
    refine ⟨fun hpos => ?_, fun _ => h⟩
    have h' : Counted (s.setOthers o (s.others o - 1)) [o] :=
      counted_setOthers h (by rw [List.count_cons_self]; omega) fun o' hne => by
        rw [List.count_cons_of_ne hne.symm]
    have hr := wp_releaseObject_counted h'
    simp only [releaseObject, wp_bind, wp_get, wp_ite, wp_set, wp_throw] at hr ⊢
    exact hr
  | newProcess mem =>
    simp only [act, newProcess, wp_bind, wp_get, wp_ite, wp_set, wp_pure]
    refine ⟨fun _ => ?_, fun _ => h⟩
    exact counted_newTable (counted_bumpProcess h)
      (Finset.some_mem_insertNone.mpr (Finset.mem_range.mpr (Nat.lt_succ_self _)))
      (h.table_none _ le_rfl)
  | inheritProcess parent mem memShrink =>
    simp only [act, inheritProcess, wp_bind, wp_get]
    cases ht : s.table (some parent) with
    | none => exact h
    | some t =>
      simp only [wp_bind, wp_set]
      exact wp_copyHandleTable_counted (counted_bumpProcess h)
        (Finset.some_mem_insertNone.mpr (Finset.mem_range.mpr (Nat.lt_succ_self _)))
        (h.table_none _ le_rfl) (h.table_ok _ t ht).1 mem memShrink
  | exitProcess p =>
    simp only [act, wp_bind, wp_modify]
    exact wp_mono (wp_destroyHandleTable_counted h p) fun _ _ h' => h'.of_eq rfl rfl rfl rfl
  | allocHandle p o access inherit mem =>
    simp only [act, wp_bind, wp_get, wp_ite, wp_modify, wp_pure]
    exact ⟨fun _ => wp_mono (wp_allocHandle_counted mapAccess h p o access inherit mem)
      fun _ _ h' => counted_issue h' _ _ _, fun _ => h⟩
  | duplicateHandle thread process src srcHandle dst access inherit options memTable mem =>
    simp only [act, wp_bind, wp_get, wp_ite, wp_modify, wp_pure]
    exact ⟨fun _ => wp_mono (wp_duplicateHandle_counted mapAccess h thread process src srcHandle
      dst access inherit options memTable mem) fun _ _ h' => counted_issue h' _ _ _, fun _ => h⟩
  | closeHandle p handle fd closable mem =>
    simp only [act, wp_bind, wp_ite, wp_modify, wp_pure]
    exact wp_mono (wp_closeHandle_counted h hok mem) fun _ _ h' =>
      ⟨fun _ => h'.of_eq rfl rfl rfl rfl, fun _ => h'⟩
  | setHandleUnixFd p handle fd =>
    simp only [act, wp_bind, wp_pure]
    exact wp_setHandleUnixFd_counted h p handle fd
  | flushCachedFd p handle =>
    simp only [act, wp_bind, wp_pure]
    exact wp_flushCachedFd_counted h p handle
  | setHandleFlags p handle mask flags => exact wp_setHandleFlags_counted h p handle mask flags

end

/-! ## Free entries are used again -/

/-- The table after an allocation that does not fail. -/
def HandleTable.afterAlloc (t : HandleTable) (o : ObjId) (access : Access) : HandleTable :=
  { t with last := max t.last t.search }.install t.search o access

/-- Some number of further allocations ends at the entry `i`. -/
def HandleTable.Reusable (t : HandleTable) (i : ℕ) : Prop :=
  ∀ o access, ∃ n, ((fun t => t.afterAlloc o access)^[n] t).search = i

/-- Each allocation that stops before `i` moves the free hint closer to it. -/
theorem reusable_of_free_le {t : HandleTable} {i : ℕ} (hf : t.free ≤ i)
    (hi : t.last < i ∨ (t.entries i).ptr = none) : t.Reusable i := by
  intro o access
  induction hd : i - t.free using Nat.strong_induction_on generalizing t with
  | _ d ih =>
    rcases (search_le t hf hi).eq_or_lt with heq | hlt
    · exact ⟨0, heq⟩
    · have hfree := free_le_search t
      have hi' : (t.afterAlloc o access).last < i ∨
          ((t.afterAlloc o access).entries i).ptr = none := by
        simp only [HandleTable.afterAlloc, HandleTable.install, Function.update_of_ne hlt.ne']
        rcases hi with hi | hi
        · exact .inl (max_lt hi (by omega))
        · exact .inr hi
      obtain ⟨n, hn⟩ := ih (i - (t.search + 1)) (by omega) (t := t.afterAlloc o access)
        (show t.search + 1 ≤ i by omega) hi' rfl
      exact ⟨n + 1, hn⟩

theorem Counted.reusable {s : State} {held : List ObjId} (h : Counted s held) {id : TableId}
    {t : HandleTable} (ht : s.table id = some t) {i : ℕ}
    (hi : t.last < i ∨ (t.entries i).ptr = none) : t.Reusable i := by
  refine reusable_of_free_le ?_ hi
  by_contra hlt
  have := (h.table_ok id t ht).2 i (by omega)
  rcases hi with hi | hi
  · omega
  · exact this.2 hi

/-! ## Runs -/

/-- The references owned by handle tables are the entries, and free entries are found again. -/
structure Balanced (s : State) : Prop where
  refcount_eq : ∀ o, s.refcount o = s.others o + s.tableRefs o
  reusable : ∀ id t, s.table id = some t → ∀ i : ℕ,
    t.last < i ∨ (t.entries i).ptr = none → t.Reusable i

theorem Counted.balanced {s : State} (h : Counted s []) : Balanced s :=
  ⟨fun o => h.refcount_eq o, fun _ _ ht _ hi => h.reusable ht hi⟩

theorem counted_initial : Counted State.initial [] :=
  ⟨fun _ => rfl, fun _ _ => rfl, fun _ _ ht => (by cases ht)⟩

theorem counted_run {mapAccess : ObjId → Access → Access} {as : List Action} {s : State}
    (hr : Run (step mapAccess) fdReturned State.initial as s) : Counted s [] :=
  hr.invariant counted_initial fun _ _ _ h hok hst =>
    wp_of_step (wp_act_counted mapAccess h hok) hst

/-- As long as no cached fd gets lost, handle tables neither leak nor lose references. -/
theorem balanced_run {mapAccess : ObjId → Access → Access} {as : List Action} {s : State}
    (hr : Run (step mapAccess) fdReturned State.initial as s) : Balanced s :=
  (counted_run hr).balanced

/-- The object 7 gets a handle in the first process, and 5 as its cached fd. -/
def cachedFdRun : List Action :=
  [.newProcess true, .createObject 7, .allocHandle 0 7 0 false none, .setHandleUnixFd 0 4 5]

theorem balanced_cachedFdRun : ∃ s, Run (step fun _ a => a) fdReturned State.initial
    (cachedFdRun ++ [.closeHandle 0 4 true true true]) s ∧ Balanced s := by
  have hg : ∀ t a, (match a with | .closeHandle _ _ fd _ _ => fd | _ => true) = true →
      fdReturned t a := by
    intro t a h
    cases a with
    | closeHandle p handle fd closable mem =>
      rintro ⟨_, _, _, _, rfl, _⟩
      cases h
    | _ => trivial
  obtain ⟨s, hr, -⟩ := run_of_execTo (f := step fun _ a => a) (s := State.initial)
    (l := cachedFdRun ++ [.closeHandle 0 4 true true true]) (p := fun _ => true) hg (by decide)
  exact ⟨s, hr, balanced_run hr⟩

/-- No step releases an object that has no references left. -/
theorem never_overreleased {mapAccess : ObjId → Access → Access} {as : List Action} {s : State}
    (hr : Run (step mapAccess) fdReturned State.initial as s) {a : Action} (ha : fdReturned s a) :
    step mapAccess s a ≠ .error .releaseObject := by
  intro hst
  unfold step at hst
  split at hst
  · cases hst
  · next e hm =>
    cases hst
    cases wp_of_error (wp_act_counted mapAccess (counted_run hr) ha) hm

theorem never_overreleased_cachedFdRun : ∃ s, Run (step fun _ a => a) fdReturned State.initial
    cachedFdRun s ∧ step (fun _ a => a) s (.exitProcess 0) ≠ .error .releaseObject := by
  obtain ⟨s, hr, -⟩ := run_of_execTo (f := step fun _ a => a) (q := fdReturned) (s := State.initial)
    (g := fun _ a => !a matches .closeHandle ..) (l := cachedFdRun) (p := fun _ => true)
    (fun _ a h => by cases a <;> trivial) (by decide)
  exact ⟨s, hr, never_overreleased hr trivial⟩

/-- Closing it without asking for the fd leaves a reference that no entry accounts for. -/
theorem leaked_cachedFdRun : ∃ s, Run (step fun _ a => a) (fun _ _ => True) State.initial
    (cachedFdRun ++ [.closeHandle 0 4 false true true]) s ∧ ¬ Balanced s := by
  obtain ⟨s, hr, hs⟩ := run_of_execTo (f := step fun _ a => a) (s := State.initial)
    (l := cachedFdRun ++ [.closeHandle 0 4 false true true]) (q := fun _ _ => True)
    (g := fun _ _ => true) (p := fun s => decide (s.refcount 7 ≠ s.others 7 + s.tableRefs 7))
    (fun _ _ _ => trivial) (by decide)
  exact ⟨s, hr, fun h => of_decide_eq_true hs (h.refcount_eq 7)⟩

end Wine.Handles
