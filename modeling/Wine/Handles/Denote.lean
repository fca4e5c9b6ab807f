import Wine.Handles.Resolve

/-!
# Live handles denote their objects

Allocation picks an entry that no live handle stands for, closing gives up one entry only, and the
other functions leave the objects of all entries alone. A run in which every new handle comes from
an entry in the range of its table therefore keeps every live handle on its object. Without that
bound the 16384th handle of the global table is no longer recognised as global.
-/

namespace Wine.Handles
open Wine.Lib
open Wine.Server (ObjId Access intMax)

/-! ## Statement -/

/-- `get_handle` yields the entry of the object, for every process where the handle is global. -/
def LiveHandle.Resolves (l : LiveHandle) (s : State) : Prop :=
  match l.table with
  | none => handleIsGlobal l.handle = true ∧
    ∀ p, ∃ f, s.getHandle p l.handle = some f ∧ f.id = none ∧ f.obj = l.obj
  | some p => handleIsGlobal l.handle = false ∧
    ∃ f, s.getHandle p l.handle = some f ∧ f.id = some p ∧ f.obj = l.obj

structure Resolving (s : State) : Prop where
  resolves : ∀ l ∈ s.live, l.Resolves s
  distinct : s.live.Pairwise fun l l' => l.table = l'.table → l.handle ≠ l'.handle

/-- The first free entry of the table that the step allocates from, if it allocates, is one whose
handle is recognised for what it is. -/
def allocInRange (s : State) : Action → Prop
  | .allocHandle p _ _ _ _ => ∀ t i, s.table (some p) = some t → t.FirstFree i → InRange (some p) i
  | .duplicateHandle _ _ _ _ dst _ _ options _ _ =>
    ∀ t i, s.table (if options.makeGlobal then none else some dst) = some t → t.FirstFree i →
      InRange (if options.makeGlobal then none else some dst) i
  | _ => True

/-! ## The invariant -/

/-- Every live handle is the one of an entry in use for its object. -/
structure Placed (s : State) : Prop where
  sized : Sized s
  entry : ∀ l ∈ s.live, ∃ i, l.handle = entryHandle l.table i ∧ i + 1 < 2 ^ 30 ∧
    InRange l.table i ∧ s.Holds l.table i l.obj
  distinct : s.live.Pairwise fun l l' => l.table = l'.table → l.handle ≠ l'.handle

theorem getHandle_of_holds {s : State} {id : TableId} {i : ℕ} {o : ObjId} (h : s.Holds id i o)
    (hi : i + 1 < 2 ^ 30) (hr : InRange id i) {p : ProcessId} (hp : id = none ∨ id = some p) :
    ∃ f, s.getHandle p (entryHandle id i) = some f ∧ f.id = id ∧ f.obj = o := by
  obtain ⟨t, ht, hl, hptr⟩ := h
  refine ⟨⟨id, t, i, o⟩, ?_, rfl, rfl⟩
  unfold State.getHandle
  rw [tableOf_entryHandle hr hp, ht]
  simp only [indexOf_entryHandle hi hr, Int.toNat_natCast, hptr]
  rw [if_neg (by omega)]

theorem Placed.resolving {s : State} (h : Placed s) : Resolving s := by
  refine ⟨fun l hl => ?_, h.distinct⟩
  obtain ⟨i, hh, hi, hr, hholds⟩ := h.entry l hl
  obtain ⟨id, handle, o⟩ := l
  simp only at hh hr hholds
  subst hh
  cases id with
  | none =>
    exact ⟨handleIsGlobal_entryHandle hr, fun p => getHandle_of_holds hholds hi hr (.inl rfl)⟩
  | some p => exact ⟨hr, getHandle_of_holds hholds hi hr (.inr rfl)⟩

theorem Placed.extend {s s' : State} (h : Placed s) (he : Extends s s') : Placed s' := by
  refine ⟨he.sized, fun l hl => ?_, he.live_eq ▸ h.distinct⟩
  obtain ⟨i, hh, hi, hr, hholds⟩ := h.entry l (he.live_eq ▸ hl)
  exact ⟨i, hh, hi, hr, he.holds _ _ _ hholds⟩

/-- A handle that was just allocated differs from all live ones of its table. -/
theorem Placed.issue {s s' : State} (h : Placed s) (he : Extends s s') {id : TableId} {o : ObjId}
    {handle : ObjHandle} (ha : handle ≠ 0 → Allocated s s' id o handle)
    (hr : ∀ i, s.Picks id i → InRange id i) :
    Placed (s'.issue id handle o) := by
  unfold State.issue
  split
  · exact h.extend he
  · obtain ⟨i, hh, hi, hholds, hfree, hpicks⟩ := ha ‹_›
    have hin := hr i hpicks
    have h' := h.extend he
    refine ⟨he.sized.of_eq rfl rfl, fun l hl => ?_, List.pairwise_cons.mpr ⟨fun l hl => ?_,
      h'.distinct⟩⟩
    · rcases List.mem_cons.mp hl with rfl | hl
      · exact ⟨i, hh, hi, hin, hholds⟩
      · exact h'.entry l hl
    · rintro rfl heq
      obtain ⟨j, hj, hj', hrj, hholdsj⟩ := h.entry l (he.live_eq ▸ hl)
      have hij : i = j := entryHandle_injective hi hin hj' hrj (by rw [← hh, ← hj]; exact heq)
      exact hfree l.obj (hij ▸ hholdsj)

/-- What remains of the live handles when all but those in `dropped` stay. -/
theorem Placed.filter {s s' : State} (h : Placed s) (hs : Sized s') (hl : s'.live = s.live)
    {keep : LiveHandle → Bool} (hkeep : ∀ l ∈ s.live, keep l = true → ∀ i,
      l.handle = entryHandle l.table i → i + 1 < 2 ^ 30 → s.Holds l.table i l.obj →
      s'.Holds l.table i l.obj) :
    Placed { s' with live := s'.live.filter keep } := by
  refine ⟨hs.of_eq rfl rfl, fun l hl' => ?_, ?_⟩
  · obtain ⟨hmem, hk⟩ := List.mem_filter.mp hl'
    rw [hl] at hmem
    obtain ⟨i, hh, hi, hr, hholds⟩ := h.entry l hmem
    exact ⟨i, hh, hi, hr, hkeep l hmem hk i hh hi hholds⟩
  · exact (hl ▸ h.distinct).filter _

/-! ## The functions -/

section
variable {s : State}

theorem getHandle_eq_some {p : ProcessId} {handle : ObjHandle} {f : Found}
    (h : s.getHandle p handle = some f) : f.id = tableOf p handle ∧ indexOf handle = f.index ∧
      s.table f.id = some f.table ∧ (f.index : ℤ) ≤ f.table.last ∧ f.entry.ptr = some f.obj := by
  unfold State.getHandle at h
  split at h
  · cases h
  · split at h
    · cases h
    · split at h
      · cases h
      · cases h
        exact ⟨rfl, by simp only; omega, ‹_›, by simp only; omega, ‹_›⟩

theorem extends_setEntry (h : Sized s) {id : TableId} {t : HandleTable} (ht : s.table id = some t)
    {i : ℕ} {e : HandleEntry} (he : e.ptr = (t.entries i).ptr) :
    Extends s (s.setTable id (some (t.setEntry i e))) := by
  refine extends_setTable h ht ((h.bounded id t ht).setEntry i e) fun j o hj hp => ⟨hj, ?_⟩
  rcases eq_or_ne j i with rfl | hne
  · simpa only [HandleTable.setEntry, Function.update_self, he] using hp
  · simpa only [HandleTable.setEntry, Function.update_of_ne hne] using hp

/-- All entries but the one that `handle` leads to. -/
def KeepsOthers (s s' : State) (p : ProcessId) (handle : ObjHandle) : Prop :=
  Sized s' ∧ s'.live = s.live ∧ ∀ id (i : ℕ) o, ¬ (id = tableOf p handle ∧ indexOf handle = i) →
    s.Holds id i o → s'.Holds id i o

theorem keepsOthers_setTable (h : Sized s) {p : ProcessId} {handle : ObjHandle} {f : Found}
    (hf : s.getHandle p handle = some f) {t : HandleTable} (hb : t.Bounded)
    (hent : ∀ (i : ℕ) o, i ≠ f.index → (i : ℤ) ≤ f.table.last →
      (f.table.entries i).ptr = some o → (i : ℤ) ≤ t.last ∧ (t.entries i).ptr = some o) :
    KeepsOthers s (s.setTable f.id (some t)) p handle := by
  obtain ⟨hid, hidx, ht, hi, -⟩ := getHandle_eq_some hf
  refine ⟨h.setTable hb (h.lt_nextProcess ht), rfl, fun id i o hne => ?_⟩
  rintro ⟨t₀, ht₀, hi₀, hp₀⟩
  rcases eq_or_ne id f.id with rfl | hid'
  · cases ht.symm.trans ht₀
    refine ⟨t, Function.update_self .., hent i o (fun he => hne ⟨hid, ?_⟩) hi₀ hp₀⟩
    rw [hidx, he]
  · exact ⟨t₀, by simpa only [State.setTable, Function.update_of_ne hid'] using ht₀, hi₀, hp₀⟩

theorem entries_close (t : HandleTable) (i : ℕ) (mem : Bool) {j : ℕ} {o : ObjId} (hj : j ≠ i)
    (hl : (j : ℤ) ≤ t.last) (hp : (t.entries j).ptr = some o) :
    (j : ℤ) ≤ (t.close i mem).last ∧ ((t.close i mem).entries j).ptr = some o := by
  have hp' : (Function.update t.entries i { t.entries i with ptr := none, fd := -1 } j).ptr =
      some o := by rwa [Function.update_of_ne hj]
  simp only [HandleTable.close]
  split
  · rw [shrinkHandleTable_entries, shrinkHandleTable_last]
    refine ⟨le_lastUsed _ ?_ ?_, hp'⟩
    · simp only [HandleTable.setEntry]
      omega
    · simp only [HandleTable.setEntry, hp', ne_eq, reduceCtorEq, not_false_eq_true]
  · exact ⟨hl, hp'⟩

theorem wp_closeHandle_keepsOthers (h : Sized s) (p : ProcessId) (handle : ObjHandle)
    (fd closable mem : Bool) :
    wp (closeHandle p handle fd closable mem)
      (fun r s' => if r then KeepsOthers s s' p handle else Extends s s') anyFault s := by
  simp only [closeHandle, wp_bind, wp_get]
  cases hf : s.getHandle p handle with
  | none =>
    simp only [wp_bind, wp_pure]
    exact wp_mono (wp_setError_extends h _) fun _ _ h' => h'
  | some f =>
    obtain ⟨-, -, ht, hi, hp⟩ := getHandle_eq_some hf
    simp only [wp_ite, wp_bind, wp_set, wp_pure]
    refine ⟨fun _ => wp_mono (wp_setError_extends h _) fun _ _ h' => h', fun _ =>
      ⟨fun _ => ?_, fun _ => ?_⟩⟩
    · refine keepsOthers_setTable h hf ((h.bounded _ _ ht).setEntry _ _) fun i o hne hl hp => ?_
      simpa only [HandleTable.setEntry, Function.update_of_ne hne] using ⟨hl, hp⟩
    · have hk := keepsOthers_setTable h hf (t := f.table.close f.index mem)
        (bounded_close (h.bounded _ _ ht) hi mem) fun i o hne hl hp => entries_close _ _ _ hne hl hp
      refine wp_mono (wp_releaseObject_extends hk.1 f.obj) fun _ s' h' => ?_
      exact ⟨h'.sized, h'.live_eq.trans hk.2.1, fun id i o hne hh => h'.holds _ _ _ (hk.2.2 _ _ _ hne hh)⟩

theorem wp_forM_extends {f : ObjId → M PUnit}
    (hf : ∀ s o, Sized s → wp (f o) (fun _ s' => Extends s s') anyFault s) (h : Sized s)
    (os : List ObjId) : wp (forM os f) (fun _ s' => Extends s s') anyFault s :=
  wp_forM (I := fun s' => Extends s s')
    (fun o _ s' hs' => wp_mono (hf s' o hs'.sized) fun _ _ h' => hs'.trans h') (.refl h)

theorem wp_getHandleObj_extends (h : Sized s) (thread process : ObjId) (p : ProcessId)
    (handle : ObjHandle) (access : Access) :
    wp (getHandleObj thread process p handle access)
      (fun _ s' => Extends s s' ∧ s'.table = s.table) anyFault s := by
  unfold getHandleObj
  split
  · simp only [wp_bind, wp_pure]
    exact wp_grabObject_extends h _
  · simp only [wp_bind, wp_get]
    split
    · simp only [setError, wp_bind, wp_modify, wp_pure]
      exact ⟨.of_eq h rfl rfl rfl, trivial⟩
    · simp only [setError, wp_ite, wp_bind, wp_modify, wp_pure]
      exact ⟨fun _ => ⟨.of_eq h rfl rfl rfl, trivial⟩, fun _ => wp_grabObject_extends h _⟩

/-- The object of the result is the one that was found, and the entry is picked in `s`. -/
theorem wp_duplicateHandle_extends (mapAccess : ObjId → Access → Access) (h : Sized s)
    (thread process : ObjId) (src : ProcessId) (srcHandle : ObjHandle) (dst : ProcessId)
    (access : Access) (inherit : Bool) (options : DuplicateOptions) (memTable : Bool)
    (mem : Grown) :
    wp (duplicateHandle mapAccess thread process src srcHandle dst access inherit options memTable
      mem) (fun r s' => Extends s s' ∧ (r.2 ≠ 0 →
        Allocated s s' (if options.makeGlobal then none else some dst) r.1 r.2)) anyFault s := by
  simp only [duplicateHandle, wp_bind]
  refine wp_mono (wp_getHandleObj_extends h thread process src srcHandle 0) fun r s' h' => ?_
  obtain ⟨he, htable⟩ := h'
  cases r with
  | none => exact ⟨he, fun hr => absurd rfl hr⟩
  | some o =>
    have hres : ∀ id res s₁ s₂, Extends s₁ s₂ → Allocated s' s₁ id o res →
        Allocated s s₂ id o res := by
      rintro id res s₁ s₂ he' ⟨i, hh, hi, hholds, hfree, hpicks⟩
      refine ⟨i, hh, hi, he'.holds _ _ _ hholds, fun o' ho' => hfree o' (he.holds _ _ _ ho'), ?_⟩
      simpa only [State.Picks, htable] using hpicks
    simp only [wp_ite, wp_bind, wp_get, wp_pure]
    refine ⟨fun hg => ?_, fun hg => ?_⟩
    · refine wp_mono (wp_allocGlobalHandle_extends he.sized o _ memTable mem) fun res s₁ h₁ => ?_
      refine wp_mono (wp_releaseObject_extends h₁.1.sized o) fun _ s₂ h₂ => ?_
      refine ⟨(he.trans h₁.1).trans h₂, fun hr => ?_⟩
      rw [if_pos hg]
      exact hres _ _ _ _ h₂ (h₁.2 hr)
    · refine wp_mono (wp_allocHandle_extends mapAccess he.sized dst o _ inherit mem)
        fun res s₁ h₁ => ?_
      refine wp_mono (wp_releaseObject_extends h₁.1.sized o) fun _ s₂ h₂ => ?_
      refine ⟨(he.trans h₁.1).trans h₂, fun hr => ?_⟩
      rw [if_neg hg]
      exact hres _ _ _ _ h₂ (h₁.2 hr)

/-- The entries of the other tables outlive a process. -/
theorem wp_destroyHandleTable_holds (h : Sized s) (p : ProcessId) :
    wp (destroyHandleTable p) (fun _ s' => Sized s' ∧ s'.live = s.live ∧
      ∀ id i o, id ≠ some p → s.Holds id i o → s'.Holds id i o) anyFault s := by
  simp only [destroyHandleTable, wp_bind, wp_get]
  cases ht : s.table (some p) with
  | none => exact ⟨h, rfl, fun _ _ _ _ hh => hh⟩
  | some t =>
    have hsized : Sized (s.setTable (some p) none) := by
      refine ⟨fun id t' ht' => ?_, fun q hq => ?_⟩
      · rcases eq_or_ne id (some p) with rfl | hne
        · simp only [State.setTable, Function.update_self, reduceCtorEq] at ht'
        · exact h.bounded id t' (by simpa only [State.setTable, Function.update_of_ne hne] using ht')
      · rcases eq_or_ne q p with rfl | hne
        · exact Function.update_self ..
        · have hne' : some q ≠ some p := fun he => hne (Option.some.inj he)
          simpa only [State.setTable, Function.update_of_ne hne'] using h.table_none q hq
    simp only [wp_bind, wp_set]
    refine wp_mono (wp_forM_extends (fun _ o hs => wp_releaseObject_extends hs o) hsized t.objects)
      fun _ s' h' => ⟨h'.sized, h'.live_eq, fun id i o hne => ?_⟩
    rintro ⟨t₀, ht₀, hl₀, hp₀⟩
    refine h'.holds id i o ⟨t₀, ?_, hl₀, hp₀⟩
    simpa only [State.setTable, Function.update_of_ne hne] using ht₀

/-! ## Runs -/

/-- A table for a process that had none changes no entry that was there. -/
theorem Placed.setFresh (h : Placed s) {id : TableId} (hnone : s.table id = none)
    (hid : ∀ p, id = some p → p < s.nextProcess) {t : HandleTable} (ht : t.Bounded) :
    Placed (s.setTable id (some t)) := by
  refine ⟨h.sized.setTable ht hid, fun l hl => ?_, h.distinct⟩
  obtain ⟨i, hh, hi, hr, t₀, ht₀, hl₀, hp₀⟩ := h.entry l hl
  refine ⟨i, hh, hi, hr, t₀, ?_, hl₀, hp₀⟩
  have hne : l.table ≠ id := by
    rintro rfl
    cases hnone.symm.trans ht₀
  simpa only [State.setTable, Function.update_of_ne hne] using ht₀

theorem Placed.bumpProcess (h : Placed s) :
    Placed { s with nextProcess := s.nextProcess + 1 } :=
  ⟨⟨h.sized.bounded, fun p hp => h.sized.table_none p (Nat.le_of_succ_le hp)⟩, h.entry, h.distinct⟩

theorem Placed.newProcess (h : Placed s) {t : HandleTable} (ht : t.Bounded) :
    Placed ({ s with nextProcess := s.nextProcess + 1 }.setTable (some s.nextProcess) (some t)) :=
  h.bumpProcess.setFresh (h.sized.table_none _ le_rfl)
    (by rintro p ⟨⟩; exact Nat.lt_succ_self _) ht

end

section
variable {s : State} (mapAccess : ObjId → Access → Access)

theorem placed_inheritProcess (h : Placed s) (parent : ProcessId) (mem memShrink : Bool) :
    wp (inheritProcess parent mem memShrink) (fun _ s' => Placed s') anyFault s := by
  simp only [inheritProcess, wp_bind, wp_get]
  cases ht : s.table (some parent) with
  | none => exact h
  | some t =>
    have hb := h.sized.bounded _ t ht
    simp only [copyHandleTable, wp_bind, wp_set, wp_ite, wp_modify]
    refine ⟨fun _ => ?_, fun _ => ?_⟩
    · exact wp_mono (wp_setError_extends h.bumpProcess.sized _) fun _ _ h' => h.bumpProcess.extend h'
    · refine wp_mono (wp_forM (I := fun s' => Extends { s with nextProcess := s.nextProcess + 1 } s' ∧
        s'.table = s.table) (fun o _ s' hs' => wp_mono (wp_grabObject_extends hs'.1.sized o)
          fun _ _ h' => ⟨hs'.1.trans h'.1, h'.2.trans hs'.2⟩) ⟨.refl h.bumpProcess.sized, rfl⟩)
        fun _ s' h' => ?_
      refine (h.bumpProcess.extend h'.1).setFresh ?_ ?_ (bounded_copied _ hb _ memShrink)
      · rw [h'.2]
        exact h.sized.table_none _ le_rfl
      · rintro p ⟨⟩
        rw [h'.1.nextProcess_eq]
        exact Nat.lt_succ_self _

/-- The entry of a live handle is not the one that another handle leads to. -/
theorem not_named {l : LiveHandle} {p : ProcessId} {handle : ObjHandle} (hl : l.named p handle = false)
    {i : ℕ} (hh : l.handle = entryHandle l.table i) (hi : i + 1 < 2 ^ 30) :
    ¬ (l.table = tableOf p handle ∧ indexOf handle = i) := by
  rintro ⟨htable, hidx⟩
  have hshift := shift_of_indexOf (p := p) hi hidx
  rw [← htable, ← hh] at hshift
  have hid : l.table = none ∨ l.table = some p := by
    rw [htable, tableOf]
    split
    · exact .inl rfl
    · exact .inr rfl
  simp only [LiveHandle.named, hshift, decide_true, Bool.true_and, Bool.or_eq_false_iff,
    decide_eq_false_iff_not] at hl
  exact hid.elim hl.1 hl.2

theorem inRange_of_picks {id : TableId}
    (h : ∀ t i, s.table id = some t → t.FirstFree i → InRange id i) (i : ℕ)
    (hp : s.Picks id i) : InRange id i := by
  rcases hp with ⟨t, ht, hf⟩ | ⟨-, rfl, rfl⟩
  · exact h t i ht hf
  · change 0 + 1 < 0x4000
    decide

/-- What is done with a found entry whose object stays. -/
theorem placed_setEntry (h : Placed s) {p : ProcessId} {handle : ObjHandle} {f : Found}
    (hf : s.getHandle p handle = some f) {e : HandleEntry} (he : e.ptr = f.entry.ptr) :
    Placed (s.setTable f.id (some (f.table.setEntry f.index e))) :=
  h.extend (extends_setEntry h.sized (getHandle_eq_some hf).2.2.1 he)

theorem wp_act_placed (h : Placed s) {a : Action} (hok : allocInRange s a) :
    wp (act mapAccess a) (fun _ s' => Placed s') anyFault s := by
  cases a with
  | createObject o =>
    simp only [act, wp_modify]
    split
    · exact h.extend (.of_eq h.sized rfl rfl rfl)
    · exact h
  | grab o =>
    simp only [act, wp_bind, wp_get, wp_ite, wp_modify, wp_pure]
    exact ⟨fun _ => wp_mono (wp_grabObject_extends h.sized o) fun _ s' h' =>
      (h.extend h'.1).extend (.of_eq h'.1.sized rfl rfl rfl), fun _ => h⟩
  | release o =>
    simp only [act, wp_bind, wp_get, wp_ite, wp_modify, wp_pure]
    exact ⟨fun _ => wp_mono (wp_releaseObject_extends h.sized o) fun _ s' h' =>
      (h.extend h').extend (.of_eq h'.sized rfl rfl rfl), fun _ => h⟩
  | newProcess mem =>
    simp only [act, newProcess, wp_bind, wp_get, wp_ite, wp_set, wp_pure]
    exact ⟨fun _ => h.newProcess (bounded_allocHandleTable_zero _), fun _ => h⟩
  | inheritProcess parent mem memShrink => exact placed_inheritProcess h parent mem memShrink
  | exitProcess p =>
    simp only [act, wp_bind, wp_modify]
    refine wp_mono (wp_destroyHandleTable_holds h.sized p) fun _ s' h' =>
      h.filter h'.1 h'.2.1 fun l _ hk i _ _ => h'.2.2 l.table i l.obj ?_
    simpa only [ne_eq, decide_eq_true_eq] using hk
  | allocHandle p o access inherit mem =>
    simp only [act, wp_bind, wp_get, wp_ite, wp_modify, wp_pure]
    exact ⟨fun _ => wp_mono (wp_allocHandle_extends mapAccess h.sized p o access inherit mem)
      fun r s' h' => h.issue h'.1 h'.2 (inRange_of_picks hok), fun _ => h⟩
  | duplicateHandle thread process src srcHandle dst access inherit options memTable mem =>
    simp only [act, wp_bind, wp_get, wp_ite, wp_modify, wp_pure]
    exact ⟨fun _ => wp_mono (wp_duplicateHandle_extends mapAccess h.sized thread process src
      srcHandle dst access inherit options memTable mem) fun r s' h' =>
        h.issue h'.1 h'.2 (inRange_of_picks hok), fun _ => h⟩
  | closeHandle p handle fd closable mem =>
    simp only [act, wp_bind, wp_ite, wp_modify, wp_pure]
    refine wp_mono (wp_closeHandle_keepsOthers h.sized p handle fd closable mem) fun r s' h' => ?_
    cases r with
    | false => exact ⟨fun hr => absurd hr Bool.false_ne_true, fun _ => h.extend h'⟩
    | true =>
      refine ⟨fun _ => h.filter h'.1 h'.2.1 fun l _ hk i hh hi => ?_, fun hr => absurd rfl hr⟩
      exact h'.2.2 l.table i l.obj
        (not_named (by simpa only [Bool.not_eq_true'] using hk) hh hi)
  | setHandleUnixFd p handle fd =>
    simp only [act, setHandleUnixFd, setError, wp_bind, wp_ite, wp_pure, wp_get]
    refine ⟨fun _ => h, fun _ => ?_⟩
    cases hf : s.getHandle p handle with
    | none => exact h.extend (.of_eq h.sized rfl rfl rfl)
    | some f =>
      simp only [wp_ite, wp_bind, wp_set, wp_pure]
      exact ⟨fun _ => placed_setEntry h hf rfl, fun _ => h⟩
  | flushCachedFd p handle =>
    simp only [act, flushCachedFd, setError, wp_bind, wp_pure, wp_get]
    cases hf : s.getHandle p handle with
    | none => exact h.extend (.of_eq h.sized rfl rfl rfl)
    | some f => exact placed_setEntry h hf rfl
  | setHandleFlags p handle mask flags =>
    simp only [act, setHandleFlags, setError, wp_bind, wp_get]
    cases hf : s.getHandle p handle with
    | none => exact h.extend (.of_eq h.sized rfl rfl rfl)
    | some f => exact placed_setEntry h hf rfl

theorem placed_initial : Placed State.initial :=
  ⟨⟨fun _ _ ht => (by cases ht), fun _ _ => rfl⟩, fun _ hl => (by cases hl), .nil⟩

end

/-- As long as no table runs out of entries in its range, every live handle denotes the object it
was allocated for. -/
theorem resolving_run {mapAccess : ObjId → Access → Access} {as : List Action} {s : State}
    (hr : Run (step mapAccess) allocInRange State.initial as s) : Resolving s :=
  (hr.invariant placed_initial fun _ _ _ h hok hst =>
    wp_of_step (wp_act_placed mapAccess h hok) hst).resolving

/-! ## A local and a global handle -/

/-- A process gets a handle for the object 7 and a global one from it. -/
def globalRun : List Action :=
  [.newProcess true, .createObject 7, .allocHandle 0 7 0 false none,
    .duplicateHandle 7 7 0 4 0 0 false ⟨false, true⟩ true (some fun _ => fillEntry)]

def inRange : TableId → ℕ → Bool
  | none, i => decide (i + 1 < 0x4000)
  | some _, i => !handleIsGlobal (indexToHandle i)

theorem inRange_iff {id : TableId} {i : ℕ} : inRange id i = true ↔ InRange id i := by
  cases id with
  | none => exact decide_eq_true_iff
  | some p => exact Bool.not_eq_true' _ ▸ Iff.rfl

/-- `allocInRange`, computed. -/
def searchInRange (s : State) : Action → Bool
  | .allocHandle p _ _ _ _ => (s.table (some p)).all fun t => inRange (some p) t.search
  | .duplicateHandle _ _ _ _ dst _ _ options _ _ =>
    (s.table (if options.makeGlobal then none else some dst)).all fun t =>
      inRange (if options.makeGlobal then none else some dst) t.search
  | _ => true

theorem allocInRange_of_search {s : State} {a : Action} (h : searchInRange s a = true) :
    allocInRange s a := by
  have hall : ∀ id, ((s.table id).all fun t => inRange id t.search) = true →
      ∀ t i, s.table id = some t → t.FirstFree i → InRange id i := by
    intro id hid t i ht hi
    rw [ht] at hid
    exact inRange_iff.mp (hi.eq_search ▸ hid)
  cases a with
  | allocHandle p o access inherit mem => exact hall _ h
  | duplicateHandle thread process src srcHandle dst access inherit options memTable mem =>
    exact hall _ h
  | _ => trivial

theorem resolving_globalRun : ∃ s, Run (step fun _ a => a) allocInRange State.initial globalRun s ∧
    s.live.length = 2 ∧ Resolving s := by
  obtain ⟨s, hr, hs⟩ := run_of_execTo (f := step fun _ a => a) (s := State.initial)
    (l := globalRun) (g := searchInRange) (p := fun s => decide (s.live.length = 2))
    (fun _ _ => allocInRange_of_search) (by decide)
  exact ⟨s, hr, of_decide_eq_true hs, resolving_run hr⟩

/-! ## Too many global handles -/

/-- The process handle 4 and `k` global handles stand for the object 7, which `n` local variables
hold as well. -/
structure Filled (k n : ℕ) (s : State) : Prop where
  others_eq : s.others 7 = 1
  refcount_eq : s.refcount 7 = k + n + 2
  source : ∃ t, s.table (some 0) = some t ∧ 0 ≤ t.last ∧ (t.entries 0).ptr = some 7
  global : ∃ t, s.table none = some t ∧ t.last = k - 1 ∧ t.free = k ∧ k ≤ t.count ∧
    0 < t.count ∧ t.count ≤ 2 ^ 15

/-- Duplicates the handle 4 of the first process into a global one. -/
def duplicateGlobal : Action :=
  .duplicateHandle 7 7 0 4 0 0 false ⟨false, true⟩ true (some fun _ => fillEntry)

def noFault (_ : Fault) : Prop := False

theorem search_of_full {t : HandleTable} {k : ℕ} (hl : t.last = k - 1) (hf : t.free = k) :
    t.search = k := by
  have : (t.last + 1 - t.free).toNat = 0 := by omega
  rw [HandleTable.search, this, HandleTable.searchFrom, hf]

theorem wp_grabObject_filled {s : State} {k n : ℕ} (h : Filled k n s) (hk : k + n < 2 ^ 15) :
    wp (grabObject 7) (fun _ s' => Filled k (n + 1) s' ∧ s'.table = s.table) noFault s := by
  have hr := h.refcount_eq
  have hmax : s.refcount 7 < intMax := by
    simp only [intMax, hr]
    omega
  simp only [grabObject, wp_bind, wp_get, wp_ite, wp_set, wp_throw]
  refine ⟨fun _ => ⟨⟨h.others_eq, ?_, h.source, h.global⟩, rfl⟩, fun hn => hn hmax⟩
  simp only [State.setRefcount, Function.update_self]
  omega

theorem wp_releaseObject_filled {s : State} {k n : ℕ} (h : Filled k (n + 1) s) :
    wp (releaseObject 7) (fun _ s' => Filled k n s') noFault s := by
  have hr := h.refcount_eq
  simp only [releaseObject, wp_bind, wp_get, wp_ite, wp_set, wp_throw]
  refine ⟨fun hz => by omega, fun _ => ⟨h.others_eq, ?_, h.source, h.global⟩⟩
  simp only [State.setRefcount, Function.update_self]
  omega

/-- The reference in the entry takes the place of one in a local variable. -/
theorem wp_useEntry_filled {s : State} {k : ℕ} (hk : k < 2 ^ 14) (h : Filled k 1 s)
    {t : HandleTable} (hl : t.last = k) (hc : k < t.count) (hc' : t.count ≤ 2 ^ 15) :
    wp (useEntry none t k 7 0) (fun r s' => r = indexToHandle k ∧ Filled (k + 1) 1 s') noFault
      s := by
  simp only [useEntry, wp_bind, wp_modify, wp_pure]
  refine wp_mono (wp_grabObject_filled h (by omega)) fun _ s' h' =>
    ⟨trivial, h'.1.others_eq, ?_, ?_, ?_⟩
  · have := h'.1.refcount_eq
    simp only [State.setTable]
    omega
  · simpa [State.setTable] using h'.1.source
  · refine ⟨t.install k 7 0, by simp only [State.setTable, Function.update_self], ?_, rfl, hc, ?_,
      hc'⟩
    · simp only [HandleTable.install, hl]
      push_cast
      omega
    · simp only [HandleTable.install]
      omega

theorem wp_allocEntry_filled {s : State} {k : ℕ} (hk : k < 2 ^ 14) (h : Filled k 1 s)
    {t : HandleTable} (ht : s.table none = some t) :
    wp (allocEntry none t 7 0 (some fun _ => fillEntry))
      (fun r s' => r = indexToHandle k ∧ Filled (k + 1) 1 s') noFault s := by
  obtain ⟨t', ht', hl, hf, hkc, hc, hc'⟩ := h.global
  cases ht.symm.trans ht'
  have hmax : ¬ intMax / 2 ≤ t.count := by
    simp only [intMax]
    omega
  simp only [allocEntry, search_of_full hl hf, growHandleTable, wp_ite, wp_bind, wp_pure]
  refine ⟨fun hle => by omega, fun _ => ⟨fun hlt => ?_, fun hfull => ⟨fun hm => absurd hm hmax,
    fun _ => ?_⟩⟩⟩
  · exact wp_useEntry_filled hk h rfl hlt hc'
  · refine wp_useEntry_filled hk h rfl ?_ ?_ <;> simp only [HandleTable.grown] <;> omega

theorem wp_duplicateGlobal_filled (mapAccess : ObjId → Access → Access) {s : State} {k : ℕ}
    (h : Filled k 0 s) (hk : k < 2 ^ 14) :
    wp (act mapAccess duplicateGlobal) (fun _ s' => Filled (k + 1) 0 s' ∧
      ⟨none, entryHandle none k, 7⟩ ∈ s'.live) noFault s := by
  obtain ⟨t₀, ht₀, hl₀, hp₀⟩ := h.source
  obtain ⟨t, ht, -⟩ := h.global
  have hone := h.others_eq
  have hmagic : getMagicHandle 7 7 4 = none := rfl
  have hfound : s.getHandle 0 4 = some ⟨some 0, t₀, 0, 7⟩ := by
    have htable : tableOf 0 4 = some 0 := rfl
    have hindex : indexOf 4 = 0 := rfl
    simp only [State.getHandle, htable, hindex, ht₀, Int.toNat_zero, hp₀]
    exact if_neg (by omega)
  have hne : entryHandle none k ≠ 0 := by
    intro hz
    rw [entryHandle_none (by omega)] at hz
    replace hz := BitVec.xor_eq_zero_iff.mp hz
    have := toNat_indexToHandle (show k + 1 < 2 ^ 30 by omega)
    rw [hz] at this
    simp only [handleObfuscator, BitVec.ofNat_eq_ofNat, BitVec.toNat_ofNat] at this
    omega
  simp only [act, duplicateGlobal, duplicateHandle, getHandleObj, hmagic, hfound, wp_bind, wp_get,
    wp_ite, wp_modify, wp_pure, if_true]
  refine ⟨fun _ => ⟨fun hacc => absurd (BitVec.and_zero ..) hacc, fun _ => ?_⟩,
    fun hn => absurd ⟨by omega, by omega⟩ hn⟩
  refine wp_mono (wp_grabObject_filled h (by omega)) fun _ s₁ h₁ => ?_
  have haccess : (0 : Access) &&& ~~~reservedAll = 0 := BitVec.zero_and
  simp only [Bool.false_eq_true, if_false, haccess, allocGlobalHandle, h₁.2, ht, wp_bind, wp_get,
    wp_pure]
  refine wp_mono (wp_allocEntry_filled hk h₁.1 (by rw [h₁.2, ht])) fun r s₂ h₂ => ?_
  obtain ⟨rfl, hfilled⟩ := h₂
  refine wp_mono (wp_releaseObject_filled hfilled) fun _ s₃ h₃ => ?_
  have hissue : s₃.issue none (handleLocalToGlobal (indexToHandle k)) 7 =
      { s₃ with live := ⟨none, entryHandle none k, 7⟩ :: s₃.live } := if_neg hne
  rw [hissue]
  exact ⟨⟨h₃.others_eq, h₃.refcount_eq, h₃.source, h₃.global⟩, List.mem_cons_self⟩

theorem filled_globalRun : ∃ s, Run (step fun _ a => a) (fun _ _ => True) State.initial
    globalRun s ∧ Filled 1 0 s ∧ ⟨none, entryHandle none 0, 7⟩ ∈ s.live := by
  obtain ⟨s, hr, hs⟩ := run_of_execTo (f := step fun _ a => a) (s := State.initial)
    (l := globalRun) (g := fun _ _ => true) (q := fun _ _ => True)
    (p := fun s : State => decide (s.others 7 = 1 ∧ s.refcount 7 = 3) &&
      (s.table (some 0)).any (fun t : HandleTable => decide (0 ≤ t.last ∧ (t.entries 0).ptr = some 7)) &&
      (s.table none).any (fun t : HandleTable => decide (t.last = 0 ∧ t.free = 1 ∧ t.count = 32)) &&
      decide ((⟨none, entryHandle none 0, 7⟩ : LiveHandle) ∈ s.live))
    (fun _ _ _ => trivial) (by decide)
  simp only [Bool.and_eq_true, decide_eq_true_eq, Option.any_eq_true_iff_get] at hs
  obtain ⟨⟨⟨⟨ho, hr'⟩, hsome, hsource⟩, hsome', hl, hf, hc⟩, hmem⟩ := hs
  refine ⟨s, hr, ⟨ho, hr', ⟨_, (Option.some_get hsome).symm, hsource⟩,
    ⟨_, (Option.some_get hsome').symm, hl, hf, ?_⟩⟩, hmem⟩
  omega

/-- With `k` more of them than `globalRun` has, the newest is the handle of the entry `k`. -/
theorem exists_filled (k : ℕ) (hk : k < 2 ^ 14) : ∃ s, Run (step fun _ a => a) (fun _ _ => True)
    State.initial (globalRun ++ List.replicate k duplicateGlobal) s ∧ Filled (k + 1) 0 s ∧
      ⟨none, entryHandle none k, 7⟩ ∈ s.live := by
  induction k with
  | zero => exact filled_globalRun
  | succ k ih =>
    obtain ⟨s, hr, hfilled, -⟩ := ih (by omega)
    obtain ⟨s', hst, h'⟩ := exists_step_of_wp
      (wp_duplicateGlobal_filled (fun _ a => a) hfilled (by omega))
    refine ⟨s', ?_, h'⟩
    rw [List.replicate_succ', ← List.append_assoc]
    exact .snoc hr trivial hst

/-- The 16384th global handle is not recognised as one. -/
theorem not_resolving_global : ∃ s, Run (step fun _ a => a) (fun _ _ => True) State.initial
    (globalRun ++ List.replicate 16383 duplicateGlobal) s ∧ ¬ Resolving s := by
  obtain ⟨s, hr, -, hmem⟩ := exists_filled 16383 (by omega)
  refine ⟨s, hr, fun h => ?_⟩
  have hglobal : handleIsGlobal (entryHandle none 16383) = true := (h.resolves _ hmem).1
  rw [handleIsGlobal_entryHandle_of_le (by omega) (by omega)] at hglobal
  cases hglobal

end Wine.Handles
