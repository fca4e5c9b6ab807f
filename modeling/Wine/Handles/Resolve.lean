import Wine.Handles.Layout

/-!
# What a handle denotes

A handle stands for an entry of a table, and as long as it is not closed nothing else is put into
that entry. The handles of the global table are told from the others by their value alone, so they
have to come from its first entries; `alloc_entry` does not limit the index it picks.
-/

namespace Wine.Handles
open Wine.Lib
open Wine.Server (ObjId Access intMax)

/-! ## Values of handles -/

theorem toNat_indexToHandle {i : ℕ} (hi : i + 1 < 2 ^ 30) :
    (indexToHandle i).toNat = 4 * (i + 1) := by
  simp only [indexToHandle, BitVec.toNat_shiftLeft, BitVec.toNat_ofNat, Nat.shiftLeft_eq]
  omega

theorem toNat_indexToHandle_shift {i : ℕ} (hi : i + 1 < 2 ^ 30) :
    (indexToHandle i >>> 2).toNat = i + 1 := by
  rw [BitVec.toNat_ushiftRight, toNat_indexToHandle hi, Nat.shiftRight_eq_div_pow]
  omega

theorem handleToIndex_indexToHandle {i : ℕ} (hi : i + 1 < 2 ^ 30) :
    handleToIndex (indexToHandle i) = i := by
  simp only [handleToIndex, toNat_indexToHandle_shift hi]
  omega

theorem indexToHandle_ne_zero {i : ℕ} (hi : i + 1 < 2 ^ 30) : indexToHandle i ≠ 0 := by
  intro h
  have := toNat_indexToHandle hi
  simp only [h, BitVec.ofNat_eq_ofNat, BitVec.toNat_ofNat, Nat.zero_mod] at this
  omega

/-- The last entry of the largest table has no handle. -/
theorem lt_of_indexToHandle_ne_zero {i : ℕ} (hi : i < 2 ^ 30) (h : indexToHandle i ≠ 0) :
    i + 1 < 2 ^ 30 := by
  by_contra hge
  refine h (BitVec.eq_of_toNat_eq ?_)
  have : i + 1 = 2 ^ 30 := by omega
  simp only [indexToHandle, this, BitVec.toNat_shiftLeft, BitVec.toNat_ofNat, Nat.shiftLeft_eq]
  rfl

/-- The handle of an entry. -/
def entryHandle : TableId → ℕ → ObjHandle
  | none, i => handleLocalToGlobal (indexToHandle i)
  | some _, i => indexToHandle i

/-- The handle of the entry is recognised for what it is. -/
def InRange : TableId → ℕ → Prop
  | none, i => i + 1 < 0x4000
  | some _, i => handleIsGlobal (indexToHandle i) = false

theorem entryHandle_none {i : ℕ} (hi : i + 1 < 2 ^ 30) :
    entryHandle none i = indexToHandle i ^^^ handleObfuscator :=
  if_neg (indexToHandle_ne_zero hi)

theorem handleIsGlobal_entryHandle {i : ℕ} (hi : i + 1 < 0x4000) :
    handleIsGlobal (entryHandle none i) = true := by
  rw [entryHandle_none (by omega)]
  simp only [handleIsGlobal, BitVec.xor_assoc, BitVec.xor_self, BitVec.xor_zero,
    toNat_indexToHandle (show i + 1 < 2 ^ 30 by omega), decide_eq_true_eq]
  omega

/-- Beyond that, a handle of the global table looks like a local one. -/
theorem handleIsGlobal_entryHandle_of_le {i : ℕ} (hi : i + 1 < 2 ^ 30) (h : 0x4000 ≤ i + 1) :
    handleIsGlobal (entryHandle none i) = false := by
  rw [entryHandle_none hi]
  simp only [handleIsGlobal, BitVec.xor_assoc, BitVec.xor_self, BitVec.xor_zero,
    toNat_indexToHandle hi, decide_eq_false_iff_not]
  omega

theorem tableOf_entryHandle {id : TableId} {i : ℕ} (hr : InRange id i) {p : ProcessId}
    (hp : id = none ∨ id = some p) : tableOf p (entryHandle id i) = id := by
  cases id with
  | none => exact if_pos (handleIsGlobal_entryHandle hr)
  | some q =>
    rcases hp with hp | hp
    · cases hp
    · cases hp
      exact if_neg (by rw [show handleIsGlobal (entryHandle (some p) i) = false from hr]; decide)

theorem indexOf_entryHandle {id : TableId} {i : ℕ} (hi : i + 1 < 2 ^ 30) (hr : InRange id i) :
    indexOf (entryHandle id i) = i := by
  cases id with
  | none =>
    have hg := handleIsGlobal_entryHandle hr
    rw [indexOf, if_pos hg, entryHandle_none hi, handleGlobalToLocal, BitVec.xor_assoc,
      BitVec.xor_self, BitVec.xor_zero]
    exact handleToIndex_indexToHandle hi
  | some q =>
    have hl : handleIsGlobal (entryHandle (some q) i) = false := hr
    rw [indexOf, if_neg (by rw [hl]; decide)]
    exact handleToIndex_indexToHandle hi

theorem entryHandle_injective {id : TableId} {i j : ℕ} (hi : i + 1 < 2 ^ 30) (hri : InRange id i)
    (hj : j + 1 < 2 ^ 30) (hrj : InRange id j) (h : entryHandle id i = entryHandle id j) :
    i = j := by
  have := (indexOf_entryHandle hi hri).symm.trans ((congrArg indexOf h).trans
    (indexOf_entryHandle hj hrj))
  omega

/-- A handle that leads to an entry differs from the handle of the entry in the low bits only. -/
theorem shift_of_indexOf {p : ProcessId} {handle : ObjHandle} {i : ℕ} (hi : i + 1 < 2 ^ 30)
    (h : indexOf handle = i) : entryHandle (tableOf p handle) i >>> 2 = handle >>> 2 := by
  have hshift : ∀ x : ObjHandle, handleToIndex x = i → indexToHandle i >>> 2 = x >>> 2 := by
    intro x hx
    refine BitVec.eq_of_toNat_eq ?_
    rw [toNat_indexToHandle_shift hi]
    simp only [handleToIndex] at hx
    omega
  cases hg : handleIsGlobal handle with
  | true =>
    simp only [indexOf, hg, if_true, handleGlobalToLocal] at h
    simp only [tableOf, hg, if_true]
    rw [entryHandle_none hi, BitVec.ushiftRight_xor_distrib, hshift _ h,
      BitVec.ushiftRight_xor_distrib, BitVec.xor_assoc, BitVec.xor_self, BitVec.xor_zero]
  | false =>
    simp only [indexOf, hg, Bool.false_eq_true, if_false] at h
    simp only [tableOf, hg, Bool.false_eq_true, if_false]
    exact hshift handle h

/-! ## Entries that stay -/

/-- The entry `i` of a table is in use for `o`. -/
def State.Holds (s : State) (id : TableId) (i : ℕ) (o : ObjId) : Prop :=
  ∃ t, s.table id = some t ∧ (i : ℤ) ≤ t.last ∧ (t.entries i).ptr = some o

/-- The tables have the bounds of their blocks, and only processes that exist have one. -/
structure Sized (s : State) : Prop where
  bounded : ∀ id t, s.table id = some t → t.Bounded
  table_none : ∀ p, s.nextProcess ≤ p → s.table (some p) = none

/-- `s'` has the entries of `s`. -/
structure Extends (s s' : State) : Prop where
  sized : Sized s'
  live_eq : s'.live = s.live
  nextProcess_eq : s'.nextProcess = s.nextProcess
  holds : ∀ id i o, s.Holds id i o → s'.Holds id i o

def anyFault (_ : Fault) : Prop := True

theorem Sized.setTable {s : State} (h : Sized s) {id : TableId} {t : HandleTable} (ht : t.Bounded)
    (hid : ∀ p, id = some p → p < s.nextProcess) : Sized (s.setTable id (some t)) where
  bounded id' t' ht' := by
    rcases eq_or_ne id' id with rfl | hne
    · simp only [State.setTable, Function.update_self, Option.some.injEq] at ht'
      exact ht' ▸ ht
    · exact h.bounded id' t' (by simpa only [State.setTable, Function.update_of_ne hne] using ht')
  table_none p hp := by
    have hne : some p ≠ id := fun he => absurd (hid p he.symm) (not_lt.mpr hp)
    simpa only [State.setTable, Function.update_of_ne hne] using h.table_none p hp

theorem Sized.lt_nextProcess {s : State} (h : Sized s) {id : TableId} {t : HandleTable}
    (ht : s.table id = some t) : ∀ p, id = some p → p < s.nextProcess := by
  rintro p rfl
  by_contra hge
  rw [h.table_none p (not_lt.mp hge)] at ht
  cases ht

theorem Sized.of_eq {s s' : State} (h : Sized s) (ht : s'.table = s.table)
    (hn : s'.nextProcess = s.nextProcess) : Sized s' :=
  ⟨fun id t => by rw [ht]; exact h.bounded id t, fun p => by rw [hn, ht]; exact h.table_none p⟩

theorem Extends.of_eq {s s' : State} (h : Sized s) (ht : s'.table = s.table)
    (hl : s'.live = s.live) (hn : s'.nextProcess = s.nextProcess) : Extends s s' :=
  ⟨h.of_eq ht hn, hl, hn, fun id i o hi => by simpa only [State.Holds, ht] using hi⟩

theorem Extends.refl {s : State} (h : Sized s) : Extends s s := .of_eq h rfl rfl rfl

theorem Extends.trans {s s' s'' : State} (h : Extends s s') (h' : Extends s' s'') : Extends s s'' :=
  ⟨h'.sized, h'.live_eq.trans h.live_eq, h'.nextProcess_eq.trans h.nextProcess_eq,
    fun id i o hi => h'.holds id i o (h.holds id i o hi)⟩

theorem extends_setTable {s : State} (h : Sized s) {id : TableId} {t t' : HandleTable}
    (ht : s.table id = some t) (hb : t'.Bounded)
    (hent : ∀ (i : ℕ) o, (i : ℤ) ≤ t.last → (t.entries i).ptr = some o →
      (i : ℤ) ≤ t'.last ∧ (t'.entries i).ptr = some o) :
    Extends s (s.setTable id (some t')) := by
  refine ⟨h.setTable hb (h.lt_nextProcess ht), rfl, rfl, fun id' i o => ?_⟩
  rintro ⟨t₀, ht₀, hi, hp⟩
  rcases eq_or_ne id' id with rfl | hne
  · cases ht.symm.trans ht₀
    exact ⟨t', Function.update_self .., hent i o hi hp⟩
  · exact ⟨t₀, by simpa only [State.setTable, Function.update_of_ne hne] using ht₀, hi, hp⟩

theorem wp_setError_extends {s : State} (h : Sized s) (e : ℕ) :
    wp (setError e) (fun _ s' => Extends s s') anyFault s := by
  simp only [setError, wp_modify]
  exact .of_eq h rfl rfl rfl

/-- Reference counts are no part of what handles denote. -/
theorem wp_grabObject_extends {s : State} (h : Sized s) (o : ObjId) :
    wp (grabObject o) (fun _ s' => Extends s s' ∧ s'.table = s.table) anyFault s := by
  simp only [grabObject, wp_bind, wp_get, wp_ite, wp_set, wp_throw]
  exact ⟨fun _ => ⟨.of_eq h rfl rfl rfl, rfl⟩, fun _ => trivial⟩

theorem wp_releaseObject_extends {s : State} (h : Sized s) (o : ObjId) :
    wp (releaseObject o) (fun _ s' => Extends s s') anyFault s := by
  simp only [releaseObject, wp_bind, wp_get, wp_ite, wp_set, wp_throw]
  exact ⟨fun _ => trivial, fun _ => .of_eq h rfl rfl rfl⟩

/-! ## Allocation -/

/-- The first entry from the free hint on that is not in use. -/
structure HandleTable.FirstFree (t : HandleTable) (i : ℕ) : Prop where
  free_le : t.free ≤ i
  unused : t.last < i ∨ (t.entries i).ptr = none
  used : ∀ j, t.free ≤ j → j < i → (j : ℤ) ≤ t.last ∧ (t.entries j).ptr ≠ none

theorem firstFree_search (t : HandleTable) : t.FirstFree t.search where
  free_le := free_le_search t
  unused := by
    rcases lt_or_ge t.last (t.search : ℤ) with h | h
    · exact .inl h
    · exact .inr (search_ptr t h)
  used j hf hj := by
    refine ⟨?_, search_before t hf hj⟩
    by_contra hl
    have := search_le t hf (.inl (not_le.mp hl))
    omega

theorem HandleTable.FirstFree.eq_search {t : HandleTable} {i : ℕ} (h : t.FirstFree i) :
    i = t.search := by
  refine le_antisymm ?_ (search_le t h.free_le h.unused)
  by_contra hlt
  have := h.used t.search (free_le_search t) (not_le.mp hlt)
  rcases (firstFree_search t).unused with hu | hu
  · omega
  · exact this.2 hu

/-- An allocation in the table would use the entry `i`; the global table may not exist yet. -/
def State.Picks (s : State) (id : TableId) (i : ℕ) : Prop :=
  (∃ t, s.table id = some t ∧ t.FirstFree i) ∨ (s.table id = none ∧ id = none ∧ i = 0)

/-- `handle` is the one of an entry that was not in use in `s` and is in use for `o` in `s'`. -/
def Allocated (s s' : State) (id : TableId) (o : ObjId) (handle : ObjHandle) : Prop :=
  ∃ i, handle = entryHandle id i ∧ i + 1 < 2 ^ 30 ∧ s'.Holds id i o ∧ (∀ o', ¬ s.Holds id i o') ∧
    s.Picks id i

theorem wp_useEntry_extends {s : State} (h : Sized s) {id : TableId} {t u : HandleTable}
    (ht : s.table id = some t) (hb : u.Bounded) (hlt : t.search < u.count)
    (hlast : (t.search : ℤ) ≤ u.last)
    (hent : ∀ i : ℕ, (i : ℤ) ≤ t.last → (i : ℤ) ≤ u.last ∧ u.entries i = t.entries i)
    (o : ObjId) (access : Access) :
    wp (useEntry id u t.search o access) (fun r s' => Extends s s' ∧
      (r ≠ 0 → r = indexToHandle t.search ∧ t.search + 1 < 2 ^ 30 ∧ s'.Holds id t.search o))
      anyFault s := by
  simp only [useEntry, wp_bind, wp_modify, wp_pure]
  refine wp_mono (wp_grabObject_extends h o) fun _ s' h' => ⟨h'.1.trans ?_, fun hr => ?_⟩
  · refine extends_setTable h'.1.sized (h'.2 ▸ ht) (hb.install hlt o access) fun i o' hi hp => ?_
    have hne : i ≠ t.search := by
      rintro rfl
      rw [search_ptr t hi] at hp
      cases hp
    simp only [HandleTable.install, Function.update_of_ne hne]
    exact ⟨(hent i hi).1, by rw [(hent i hi).2, hp]⟩
  · refine ⟨trivial, lt_of_indexToHandle_ne_zero (hlt.trans_le hb.count_le) hr,
      u.install t.search o access, Function.update_self .., hlast, ?_⟩
    simp only [HandleTable.install, Function.update_self]

theorem wp_allocEntry_extends {s : State} (h : Sized s) {id : TableId} {t : HandleTable}
    (ht : s.table id = some t) (o : ObjId) (access : Access) (mem : Grown) :
    wp (allocEntry id t o access mem) (fun r s' => Extends s s' ∧
      (r ≠ 0 → r = indexToHandle t.search ∧ t.search + 1 < 2 ^ 30 ∧ s'.Holds id t.search o))
      anyFault s := by
  have hb := h.bounded id t ht
  have hlt := hb.last_lt
  have hle := hb.le_last
  unfold allocEntry
  rw [wp_ite, wp_ite]
  refine ⟨fun hfound => ?_, fun hnot => ⟨fun hroom => ?_, fun hfull => ?_⟩⟩
  · exact wp_useEntry_extends h ht hb (by omega) hfound (fun i hi => ⟨hi, rfl⟩) o access
  · refine wp_useEntry_extends h ht (u := { t with last := t.search })
      ⟨hb.count_eq, ?_, ?_, hb.free_lt⟩ hroom le_rfl (fun i hi => ⟨?_, rfl⟩) o access <;>
    · simp only
      omega
  · simp only [growHandleTable, wp_bind, wp_ite]
    refine ⟨fun _ => ⟨.refl h, fun hr => absurd rfl hr⟩, fun hmax => ?_⟩
    cases mem with
    | none =>
      simp only [wp_bind, wp_pure]
      exact wp_mono (wp_setError_extends h _) fun _ _ h' => ⟨h', fun hr => absurd rfl hr⟩
    | some fill =>
      have hg := hb.grown (by omega) fill
      have hs := search_of_last_lt t (by omega)
      have hfree := hb.free_lt
      have hpos := hb.count_pos
      have hcount : t.search < (t.grown fill).count := by
        change t.search < 2 * t.count
        omega
      refine wp_useEntry_extends h ht (u := { t.grown fill with last := t.search })
        ⟨hg.count_eq, ?_, ?_, hg.free_lt⟩ hcount le_rfl (fun i hi => ⟨?_, ?_⟩) o access
      · simp only
        omega
      · simp only
        omega
      · simp only
        omega
      · exact if_pos (by omega)

/-- No entry at the place where the search stops. -/
theorem not_holds_search {s : State} {id : TableId} {t : HandleTable} (ht : s.table id = some t)
    (o : ObjId) : ¬ s.Holds id t.search o := by
  rintro ⟨t', ht', hi, hp⟩
  cases ht.symm.trans ht'
  rw [search_ptr t hi] at hp
  cases hp

section
variable (mapAccess : ObjId → Access → Access)

theorem wp_allocHandle_extends {s : State} (h : Sized s) (p : ProcessId) (o : ObjId)
    (access : Access) (inherit : Bool) (mem : Grown) :
    wp (allocHandle mapAccess p o access inherit mem) (fun r s' => Extends s s' ∧
      (r ≠ 0 → Allocated s s' (some p) o r)) anyFault s := by
  simp only [allocHandle, wp_bind, wp_get]
  cases ht : s.table (some p) with
  | none =>
    simp only [wp_bind, wp_pure]
    exact wp_mono (wp_setError_extends h _) fun _ _ h' => ⟨h', fun hr => absurd rfl hr⟩
  | some t =>
    refine wp_mono (wp_allocEntry_extends h ht o _ mem) fun r s' h' => ⟨h'.1, fun hr => ?_⟩
    obtain ⟨he, hlt, hh⟩ := h'.2 hr
    exact ⟨t.search, he, hlt, hh, not_holds_search ht, .inl ⟨t, ht, firstFree_search t⟩⟩

theorem wp_allocGlobalHandle_extends {s : State} (h : Sized s) (o : ObjId)
    (access : Access) (memTable : Bool) (mem : Grown) :
    wp (allocGlobalHandle o access memTable mem) (fun r s' => Extends s s' ∧
      (r ≠ 0 → Allocated s s' none o r)) anyFault s := by
  simp only [allocGlobalHandle, wp_bind, wp_get]
  cases ht : s.table none with
  | none =>
    cases memTable with
    | false =>
      simp only [Bool.false_eq_true, if_false, wp_bind, wp_pure]
      exact wp_mono (wp_setError_extends h _) fun _ _ h' => ⟨h', fun hr => absurd rfl hr⟩
    | true =>
      simp only [if_true, wp_bind, wp_modify, wp_pure]
      have hnew : Extends s (s.setTable none (some (allocHandleTable none 0))) := by
        refine ⟨h.setTable (bounded_allocHandleTable_zero none) (fun _ he => (by cases he)), rfl, rfl,
          fun id i o' => ?_⟩
        rintro ⟨t₀, ht₀, hi, hp⟩
        have hne : id ≠ none := by
          rintro rfl
          cases ht.symm.trans ht₀
        exact ⟨t₀, by simpa only [State.setTable, Function.update_of_ne hne] using ht₀, hi, hp⟩
      refine wp_mono (wp_allocEntry_extends hnew.sized (Function.update_self ..) o access mem)
        fun r s' h' => ⟨hnew.trans h'.1, fun hr => ?_⟩
      have hr' : r ≠ 0 := fun hz => hr (if_pos hz)
      obtain ⟨he, hlt, hh⟩ := h'.2 hr'
      have hsearch : (allocHandleTable none 0).search = 0 := rfl
      rw [hsearch] at he hlt hh
      refine ⟨0, by rw [he]; rfl, hlt, hh, fun o' => ?_, .inr ⟨ht, rfl, rfl⟩⟩
      rintro ⟨t₀, ht₀, -⟩
      cases ht.symm.trans ht₀
  | some t =>
    simp only [wp_bind, wp_pure]
    refine wp_mono (wp_allocEntry_extends h ht o access mem) fun r s' h' => ⟨h'.1, fun hr => ?_⟩
    have hr' : r ≠ 0 := fun hz => hr (if_pos hz)
    obtain ⟨he, hlt, hh⟩ := h'.2 hr'
    exact ⟨t.search, by rw [he]; rfl, hlt, hh, not_holds_search ht,
      .inl ⟨t, ht, firstFree_search t⟩⟩

end

end Wine.Handles
