import Wine.User.Table

/-!
# Issued user handles

A handle denotes an object exactly as long as the object's owner has not freed it. The invariant
names the free entries in the order of the free list, so that every link of the list is followed
inside the array that is current when it is followed.
-/

namespace Wine.User
open Wine.Lib

/-- The links from `p` on lead through the entries `l` of the current array. -/
def FreeChain (s : State) : Ptr → List ℕ → Prop
  | p, [] => p = .null
  | p, i :: l => p = .entry ⟨s.block, i⟩ ∧
    ∃ e : HandleEntry, s.handles[i]? = some e ∧ FreeChain s e.ptr l

/-- The free list holds every entry without a type once and no other. -/
def FreeList (s : State) (l : List ℕ) : Prop :=
  FreeChain s s.freelist l ∧ l.Nodup ∧
    ∀ i, i ∈ l ↔ ∃ e : HandleEntry, s.handles[i]? = some e ∧ e.type = none

structure Inv (s : State) : Prop where
  used_le : s.handles.length ≤ s.allocatedHandles
  allocated_le : s.allocatedHandles ≤ 0x7fe8
  free : ∃ l, FreeList s l
  live : ∀ l, l ∈ s.live ↔ ∃ i, ∃ e : HandleEntry, s.handles[i]? = some e ∧ e.type = some l.type ∧
    e.ptr = .object l.obj ∧ l.handle = entryToHandle i e.generation
  generation : ∀ (i : ℕ) (e : HandleEntry), s.handles[i]? = some e → e.generation ≠ 0xffff
  generated : ∀ (i : ℕ) (e : HandleEntry) (t : UserObject), s.handles[i]? = some e →
    e.type = some t → e.generation ≠ 0
  typed : ∀ (i : ℕ) (e : HandleEntry) (t : UserObject), s.handles[i]? = some e →
    e.type = some t → ∃ o, e.ptr = .object o
  nodup : (s.live.map (·.handle)).Nodup

theorem inv_initial : Inv State.initial where
  used_le := Nat.zero_le _
  allocated_le := Nat.zero_le _
  free := ⟨[], rfl, List.nodup_nil, by simp [State.initial]⟩
  live := by simp [State.initial]
  generation := by simp [State.initial]
  generated := by simp [State.initial]
  typed := by simp [State.initial]
  nodup := List.nodup_nil

/-! ## Numbers of handles -/

theorem toNat_handleIndex (h : UserHandle) :
    handleIndex h = (h.toNat % 0x10000 + (2 ^ 32 - 0x20)) % 2 ^ 32 / 2 := by
  have hm : (h &&& 0xffff).toNat = h.toNat % 0x10000 := by
    rw [BitVec.toNat_and]
    exact Nat.and_two_pow_sub_one_eq_mod h.toNat 16
  have hf : (BitVec.ofNat 32 firstUserHandle).toNat = 0x20 := rfl
  rw [handleIndex, BitVec.toNat_ushiftRight, BitVec.toNat_sub, hm, hf, Nat.shiftRight_eq_div_pow,
    Nat.add_comm, Nat.pow_one]

theorem toNat_entryToHandle {i : ℕ} (hi : i < 0x7fe8) (g : BitVec 16) :
    (entryToHandle i g).toNat = 2 * i + 0x20 + 0x10000 * g.toNat := by
  have hg := g.isLt
  simp only [entryToHandle, firstUserHandle, BitVec.toNat_add, BitVec.toNat_shiftLeft,
    BitVec.toNat_ofNat, BitVec.toNat_setWidth, Nat.shiftLeft_eq]
  omega

theorem toNat_handleGeneration (h : UserHandle) :
    (handleGeneration h).toNat = h.toNat / 0x10000 := by
  have hh := h.isLt
  simp only [handleGeneration, BitVec.toNat_setWidth, BitVec.toNat_ushiftRight,
    Nat.shiftRight_eq_div_pow]
  omega

theorem entryToHandle_injective {i j : ℕ} (hi : i < 0x7fe8) (hj : j < 0x7fe8) {g g' : BitVec 16}
    (h : entryToHandle i g = entryToHandle j g') : i = j := by
  have hn := congrArg BitVec.toNat h
  rw [toNat_entryToHandle hi, toNat_entryToHandle hj] at hn
  omega

theorem handleToEntry_iff {s : State} {h : UserHandle} {i : ℕ} :
    handleToEntry s h = some i ↔ handleIndex h = i ∧ ∃ e : HandleEntry, s.handles[i]? = some e ∧
      e.type ≠ none ∧ (handleGeneration h = e.generation ∨ handleGeneration h = 0
        ∨ handleGeneration h = 0xffff) := by
  unfold handleToEntry
  constructor
  · intro hh
    split at hh
    · cases hh
    · rename_i e he
      split at hh
      · cases hh
      · split at hh
        · cases hh
          exact ⟨rfl, e, he, ‹_›, ‹_›⟩
        · cases hh
  · rintro ⟨rfl, e, he, ht, hg⟩
    simp only [he, if_neg ht, if_pos hg]

theorem named_iff {l : LiveHandle} {h : UserHandle} {i : ℕ} {g : BitVec 16} (hi : i < 0x7fe8)
    (hl : l.handle = entryToHandle i g) :
    l.named h = true ↔ handleIndex h = i ∧
      (handleGeneration h = g ∨ handleGeneration h = 0 ∨ handleGeneration h = 0xffff) := by
  have hg : handleGeneration l.handle = g := by
    apply BitVec.eq_of_toNat_eq
    rw [toNat_handleGeneration, hl, toNat_entryToHandle hi]
    omega
  have hidx : l.handle.extractLsb' 1 15 = h.extractLsb' 1 15 ↔ handleIndex h = i := by
    rw [← BitVec.toNat_inj, toNat_handleIndex]
    simp only [BitVec.extractLsb'_toNat, hl, toNat_entryToHandle hi, Nat.shiftRight_eq_div_pow]
    have hlt := h.isLt
    have hgl := g.isLt
    omega
  simp only [LiveHandle.named, Bool.and_eq_true, Bool.or_eq_true, decide_eq_true_eq, hg, hidx,
    or_assoc]

/-! ## The free list -/

theorem FreeChain.congr {s t : State} (hb : t.block = s.block) {l : List ℕ} {p : Ptr}
    (hl : ∀ i ∈ l, t.handles[i]? = s.handles[i]?) (h : FreeChain s p l) : FreeChain t p l := by
  induction l generalizing p with
  | nil => exact h
  | cons i l ih =>
    obtain ⟨hp, e, he, hc⟩ := h
    exact ⟨by rw [hb, hp], e, by rw [hl i (List.mem_cons_self), he],
      ih (fun j hj => hl j (List.mem_cons_of_mem _ hj)) hc⟩

/-- The entry `i` was taken out of the free list or is new, and nothing else changed. -/
structure Taken (s s' : State) (i : ℕ) (e : HandleEntry) : Prop where
  used_le : s'.handles.length ≤ s'.allocatedHandles
  allocated_le : s'.allocatedHandles ≤ 0x7fe8
  entry : s'.handles[i]? = some e
  untyped : e.type = none
  generation : e.generation ≠ 0xffff
  unused : ∀ f : HandleEntry, s.handles[i]? = some f → f.type = none
  same : ∀ j, j ≠ i → s'.handles[j]? = s.handles[j]?
  live : s'.live = s.live
  free : ∃ l, FreeChain s' s'.freelist l ∧ l.Nodup ∧
    ∀ j, j ∈ l ↔ j ≠ i ∧ ∃ f : HandleEntry, s'.handles[j]? = some f ∧ f.type = none

theorem wp_readEntry {s : State} {i : ℕ} {l : List ℕ} {p : Ptr} (h : FreeChain s p (i :: l)) :
    wp (readEntry p) (fun r s' => s' = s ∧ r.1 = i ∧ s.handles[i]? = some r.2 ∧
      FreeChain s r.2.ptr l) (fun _ => False) s := by
  obtain ⟨rfl, e, he, hc⟩ := h
  simp only [readEntry, wp_bind, wp_get, if_true, he, wp_pure, true_and]
  exact hc

/-- A new entry behind the used ones, in a block of any number: no link leads into the old one. -/
theorem Inv.taken_append {s s' : State} (hs : Inv s) (hf : s.freelist = .null)
    (hl : s'.handles = s.handles ++ [newEntry]) (hu : s'.handles.length ≤ s'.allocatedHandles)
    (ha : s'.allocatedHandles ≤ 0x7fe8) (hlive : s'.live = s.live) (hf' : s'.freelist = .null) :
    Taken s s' s.handles.length newEntry := by
  obtain ⟨l, hc, -, hfree⟩ := hs.free
  have hnil : l = [] := by
    cases l with
    | nil => rfl
    | cons i l =>
      rw [hf] at hc
      cases hc.1
  have hsame : ∀ j, j ≠ s.handles.length → s'.handles[j]? = s.handles[j]? := by
    intro j hj
    rw [hl, List.getElem?_append]
    split
    · rfl
    · rw [List.getElem?_eq_none (by simp only [List.length_singleton]; omega),
        List.getElem?_eq_none (by omega)]
  refine ⟨hu, ha, by rw [hl, List.getElem?_concat_length], rfl, by decide, ?_, hsame, hlive, [], hf',
    List.nodup_nil, fun j => ?_⟩
  · intro f hf
    simp only [List.getElem?_eq_none (Nat.le_refl _), reduceCtorEq] at hf
  · simp only [List.not_mem_nil, false_iff]
    rintro ⟨hj, hfj⟩
    rw [hsame j hj] at hfj
    have := (hfree j).mpr hfj
    simp only [hnil, List.not_mem_nil] at this

theorem wp_allocUserEntry {s : State} (hs : Inv s) (mem : Bool) :
    wp (allocUserEntry mem) (fun r s' => (r = none ∧ s' = s) ∨
      ∃ i e, r = some (i, e) ∧ Taken s s' i e) (fun _ => False) s := by
  obtain ⟨l, hc, hn, hfree⟩ := id hs.free
  simp only [allocUserEntry, wp_bind, wp_get, wp_ite]
  refine ⟨fun hne => ?_, fun hnull => ⟨fun hfull => ?_, fun hroom => ?_⟩⟩
  · cases l with
    | nil => exact absurd hc hne
    | cons i l =>
      refine wp_mono (wp_readEntry hc) ?_
      rintro ⟨j, e⟩ t ⟨rfl, rfl, he, hrest⟩
      obtain ⟨hi, hn⟩ := List.nodup_cons.mp hn
      obtain ⟨f, hf, hu⟩ := (hfree j).mp List.mem_cons_self
      obtain rfl : e = f := Option.some.inj (he.symm.trans hf)
      refine Or.inr ⟨j, e, rfl, hs.used_le, hs.allocated_le, he, hu, hs.generation j e he,
        fun f hf => ?_, fun _ _ => rfl, rfl, l, hrest.congr (by rfl) (by exact fun _ _ => rfl), hn, fun k => ?_⟩
      · rwa [← Option.some.inj (he.symm.trans hf)]
      · rw [← hfree k, List.mem_cons]
        constructor
        · exact fun hk => ⟨fun hkj => hi (hkj ▸ hk), Or.inr hk⟩
        · exact fun hk => hk.2.resolve_left hk.1
  · simp only [ne_eq, not_not] at hnull
    refine ⟨fun _ => Or.inl ⟨rfl, rfl⟩, fun hgrow => Or.inr ⟨_, _, rfl, ?_⟩⟩
    rw [not_or, Nat.not_le] at hgrow
    have hu := hs.used_le
    refine hs.taken_append hnull rfl ?_ ?_ rfl hnull
    · simp only [List.length_append, List.length_singleton]
      omega
    · simp only [firstUserHandle, lastUserHandle]
      omega
  · simp only [ne_eq, not_not] at hnull
    refine Or.inr ⟨_, _, rfl, hs.taken_append hnull rfl ?_ hs.allocated_le rfl hnull⟩
    simp only [List.length_append, List.length_singleton]
    omega

/-! ## The invariant -/

theorem getElem?_setEntry {s : State} {i : ℕ} (hi : i < s.handles.length) (e : HandleEntry)
    (j : ℕ) : (s.setEntry i e).handles[j]? = if j = i then some e else s.handles[j]? := by
  rw [State.setEntry, List.getElem?_set]
  by_cases hj : j = i
  · subst hj
    simp only [if_true, hi]
  · rw [if_neg (Ne.symm hj), if_neg hj]

theorem Inv.allocated {s s' : State} (hs : Inv s) {i : ℕ} {e : HandleEntry} {o : ObjPtr}
    {t : UserObject} {g : BitVec 16} (hg : g ≠ 0 ∧ g ≠ 0xffff) (ht : Taken s s' i e) :
    Inv { s'.setEntry i ⟨.object o, some t, g⟩ with
      live := ⟨entryToHandle i g, o, t⟩ :: s.live } := by
  have hi : i < s'.handles.length := (List.getElem?_eq_some_iff.mp ht.entry).1
  have hu := ht.used_le
  have ha := ht.allocated_le
  have hset := getElem?_setEntry hi ⟨.object o, some t, g⟩
  have hold : ∀ l ∈ s.live, ∃ j, j ≠ i ∧ ∃ f : HandleEntry, s'.handles[j]? = some f ∧
      f.type = some l.type ∧ f.ptr = .object l.obj ∧ l.handle = entryToHandle j f.generation := by
    intro l hl
    obtain ⟨j, f, hf, hft, hfp, hfh⟩ := (hs.live l).mp hl
    have hj : j ≠ i := by
      rintro rfl
      rw [ht.unused f hf] at hft
      cases hft
    exact ⟨j, hj, f, by rw [ht.same j hj, hf], hft, hfp, hfh⟩
  obtain ⟨l, hc, hn, hfree⟩ := ht.free
  constructor
  · simpa only [State.setEntry, List.length_set] using hu
  · exact ha
  · refine ⟨l, hc.congr (by rfl) (fun j hj => ?_), hn, fun j => ?_⟩
    · simp only [hset, if_neg ((hfree j).mp hj).1]
    · rw [hfree j]
      simp only [hset]
      by_cases hj : j = i
      · simp [hj]
      · simp [hj]
  · intro l
    simp only [hset, List.mem_cons]
    constructor
    · rintro (rfl | hl)
      · exact ⟨i, _, if_pos rfl, rfl, rfl, rfl⟩
      · obtain ⟨j, hj, f, hf⟩ := hold l hl
        exact ⟨j, f, by rw [if_neg hj, hf.1], hf.2⟩
    · rintro ⟨j, f, hf, hft, hfp, hfh⟩
      by_cases hj : j = i
      · rw [if_pos hj] at hf
        cases hf
        simp only [Option.some.injEq, Ptr.object.injEq] at hft hfp
        left
        cases l
        simp_all
      · rw [if_neg hj, ht.same j hj] at hf
        exact Or.inr ((hs.live l).mpr ⟨j, f, hf, hft, hfp, hfh⟩)
  · intro j f hf
    simp only [hset] at hf
    by_cases hj : j = i
    · rw [if_pos hj] at hf
      cases hf
      exact hg.2
    · rw [if_neg hj, ht.same j hj] at hf
      exact hs.generation j f hf
  · intro j f t' hf hft
    simp only [hset] at hf
    by_cases hj : j = i
    · rw [if_pos hj] at hf
      cases hf
      exact hg.1
    · rw [if_neg hj, ht.same j hj] at hf
      exact hs.generated j f t' hf hft
  · intro j f t' hf hft
    simp only [hset] at hf
    by_cases hj : j = i
    · rw [if_pos hj] at hf
      cases hf
      exact ⟨o, rfl⟩
    · rw [if_neg hj, ht.same j hj] at hf
      exact hs.typed j f t' hf hft
  · refine List.nodup_cons.mpr ⟨fun hmem => ?_, hs.nodup⟩
    obtain ⟨l, hl, hlh⟩ := List.mem_map.mp hmem
    obtain ⟨j, hj, f, hf, -, -, hfh⟩ := hold l hl
    have hjl : j < s'.handles.length := (List.getElem?_eq_some_iff.mp hf).1
    rw [hfh] at hlh
    exact hj (entryToHandle_injective (by omega) (by omega) hlh)

theorem nextGeneration_ne {g : BitVec 16} (hg : g ≠ 0xffff) :
    nextGeneration g ≠ 0 ∧ nextGeneration g ≠ 0xffff := by
  unfold nextGeneration
  split
  · decide
  · have hlt := g.isLt
    constructor <;> bv_omega

theorem Inv.freed {s : State} (hs : Inv s) {i : ℕ} {e : HandleEntry} (he : s.handles[i]? = some e)
    (ht : e.type ≠ none) {p : LiveHandle → Bool}
    (hp : ∀ l ∈ s.live, p l = true ↔ l.handle ≠ entryToHandle i e.generation) :
    Inv { s.setEntry i { e with ptr := s.freelist, type := none } with
      freelist := .entry ⟨s.block, i⟩, live := s.live.filter p } := by
  have hi : i < s.handles.length := (List.getElem?_eq_some_iff.mp he).1
  have hu := hs.used_le
  have ha := hs.allocated_le
  have hset := getElem?_setEntry hi { e with ptr := s.freelist, type := none }
  obtain ⟨l, hc, hn, hfree⟩ := hs.free
  have hil : i ∉ l := by
    intro hmem
    obtain ⟨f, hf, hft⟩ := (hfree i).mp hmem
    rw [Option.some.inj (he.symm.trans hf)] at ht
    exact ht hft
  constructor
  · simpa only [State.setEntry, List.length_set] using hu
  · exact ha
  · refine ⟨i :: l, ⟨rfl, _, by simp only [hset, if_true]; rfl, ?_⟩,
      List.nodup_cons.mpr ⟨hil, hn⟩, fun j => ?_⟩
    · refine hc.congr (by rfl) (fun j hj => ?_)
      have hji : j ≠ i := fun h => hil (h ▸ hj)
      simp only [hset, if_neg hji]
    · simp only [List.mem_cons, hset, hfree j]
      by_cases hj : j = i
      · simp [hj]
      · simp [hj]
  · intro l'
    simp only [hset, List.mem_filter]
    constructor
    · rintro ⟨hl, hpl⟩
      obtain ⟨j, f, hf, hft, hfp, hfh⟩ := (hs.live l').mp hl
      have hj : j ≠ i := by
        rintro rfl
        rw [Option.some.inj (he.symm.trans hf)] at hp
        exact (hp l' hl).mp hpl hfh
      exact ⟨j, f, by rw [if_neg hj, hf], hft, hfp, hfh⟩
    · rintro ⟨j, f, hf, hft, hfp, hfh⟩
      by_cases hj : j = i
      · rw [if_pos hj] at hf
        cases hf
        cases hft
      · rw [if_neg hj] at hf
        have hl := (hs.live l').mpr ⟨j, f, hf, hft, hfp, hfh⟩
        refine ⟨hl, (hp l' hl).mpr fun hh => hj ?_⟩
        have hjl : j < s.handles.length := (List.getElem?_eq_some_iff.mp hf).1
        exact entryToHandle_injective (by omega) (by omega) (hfh.symm.trans hh)
  · intro j f hf
    simp only [hset] at hf
    by_cases hj : j = i
    · rw [if_pos hj] at hf
      cases hf
      exact hs.generation i e he
    · rw [if_neg hj] at hf
      exact hs.generation j f hf
  · intro j f t hf hft
    simp only [hset] at hf
    by_cases hj : j = i
    · rw [if_pos hj] at hf
      cases hf
      cases hft
    · rw [if_neg hj] at hf
      exact hs.generated j f t hf hft
  · intro j f t hf hft
    simp only [hset] at hf
    by_cases hj : j = i
    · rw [if_pos hj] at hf
      cases hf
      cases hft
    · rw [if_neg hj] at hf
      exact hs.typed j f t hf hft
  · exact (List.Sublist.map _ List.filter_sublist).nodup hs.nodup

theorem wp_allocUserHandle {s : State} (hs : Inv s) (ptr : ObjPtr) (type : UserObject)
    (mem : Bool) : wp (allocUserHandle ptr type mem) (fun h s' =>
      (h = 0 → Inv s') ∧ (h ≠ 0 → Inv { s' with live := ⟨h, ptr, type⟩ :: s'.live }))
      (fun _ => False) s := by
  rw [allocUserHandle, wp_bind]
  refine wp_mono (wp_allocUserEntry hs mem) ?_
  rintro r s' (⟨rfl, rfl⟩ | ⟨i, e, rfl, ht⟩)
  · exact ⟨fun _ => hs, fun h => absurd rfl h⟩
  · have hi : i < s'.handles.length := (List.getElem?_eq_some_iff.mp ht.entry).1
    have hu := ht.used_le
    have ha := ht.allocated_le
    have hinv := hs.allocated (o := ptr) (t := type) (nextGeneration_ne ht.generation) ht
    rw [← ht.live] at hinv
    refine ⟨fun h => ?_, fun _ => hinv⟩
    have hn := congrArg BitVec.toNat h
    rw [toNat_entryToHandle (by omega)] at hn
    have h0 : (0 : UserHandle).toNat = 0 := rfl
    omega

theorem wp_freeUserHandle {s : State} (hs : Inv s) (handle : UserHandle) :
    wp (freeUserHandle handle) (fun _ s' =>
      Inv { s' with live := s'.live.filter fun l => !l.named handle }) (fun _ => False) s := by
  have hnamed : ∀ l ∈ s.live, l.named handle = true ↔
      ∃ i, ∃ e : HandleEntry, handleToEntry s handle = some i ∧ s.handles[i]? = some e ∧
        l.handle = entryToHandle i e.generation := by
    intro l hl
    obtain ⟨i, e, he, het, -, heh⟩ := (hs.live l).mp hl
    have hi : i < s.handles.length := (List.getElem?_eq_some_iff.mp he).1
    have hu := hs.used_le
    have ha := hs.allocated_le
    rw [named_iff (by omega) heh]
    constructor
    · rintro ⟨hidx, hg⟩
      refine ⟨i, e, handleToEntry_iff.mpr ⟨hidx, e, he, ?_, hg⟩, he, heh⟩
      simp only [het, ne_eq, reduceCtorEq, not_false_eq_true]
    · rintro ⟨j, f, hj, hf, hfh⟩
      have hjl : j < s.handles.length := (List.getElem?_eq_some_iff.mp hf).1
      obtain rfl := entryToHandle_injective (by omega) (by omega) (heh.symm.trans hfh)
      obtain ⟨hidx, f', hf', -, hg⟩ := handleToEntry_iff.mp hj
      rw [Option.some.inj (he.symm.trans hf')]
      exact ⟨hidx, hg⟩
  simp only [freeUserHandle, wp_bind, wp_get]
  cases hh : handleToEntry s handle with
  | none =>
    simp only [wp_bind, wp_set, wp_pure]
    have hall : s.live.filter (fun l => !l.named handle) = s.live := by
      refine List.filter_eq_self.mpr fun l hl => ?_
      rw [Bool.not_eq_true', ← Bool.not_eq_true, hnamed l hl]
      rintro ⟨i, e, hi, -⟩
      rw [hh] at hi
      cases hi
    rw [hall]
    exact ⟨hs.used_le, hs.allocated_le, hs.free.imp fun l hl =>
      ⟨hl.1.congr (by rfl) (by exact fun _ _ => rfl), hl.2⟩, hs.live, hs.generation, hs.generated,
      hs.typed, hs.nodup⟩
  | some i =>
    obtain ⟨hidx, e, he, het, hg⟩ := handleToEntry_iff.mp hh
    simp only [he, freeUserEntry, wp_bind, wp_modify, wp_pure]
    refine hs.freed he het fun l hl => ?_
    rw [Bool.not_eq_true', ← Bool.not_eq_true, hnamed l hl, not_iff_not]
    constructor
    · rintro ⟨j, f, hj, hf, hfh⟩
      obtain rfl : i = j := Option.some.inj (hh.symm.trans hj)
      rwa [Option.some.inj (he.symm.trans hf)]
    · exact fun h => ⟨i, e, hh, he, h⟩

theorem wp_act {s : State} (hs : Inv s) (a : Action) :
    wp (act a) (fun _ => Inv) (fun _ => False) s := by
  cases a with
  | allocUserHandle ptr type mem =>
    rw [act, wp_bind]
    refine wp_mono (wp_allocUserHandle hs ptr type mem) (fun h s' hh => ?_)
    rw [wp_ite]
    exact ⟨hh.2, fun h0 => hh.1 (not_not.mp h0)⟩
  | freeUserHandle handle =>
    rw [act, wp_bind]
    exact wp_mono (wp_freeUserHandle hs handle) fun _ _ hh => hh

theorem step_total {s : State} (hs : Inv s) (a : Action) : ∃ s', step s a = .ok s' ∧ Inv s' := by
  have h := wp_act hs a
  unfold step
  cases hm : act a s with
  | error e => exact (wp_of_error h hm).elim
  | ok r => exact ⟨r.2, rfl, wp_of_ok h hm⟩

theorem run_inv {as : List Action} {s : State} (hr : Run step (fun _ _ => True) State.initial as s) :
    Inv s := by
  refine hr.invariant inv_initial fun t a t' ht _ hst => ?_
  obtain ⟨t'', hst', ht''⟩ := step_total ht a
  rw [hst] at hst'
  cases hst'
  exact ht''

/-! ## What a handle denotes -/

/-- A handle whose generation part stands for one generation only. -/
def IsFull (handle : UserHandle) : Prop :=
  handleGeneration handle ≠ 0 ∧ handleGeneration handle ≠ 0xffff

instance (handle : UserHandle) : Decidable (IsFull handle) := inferInstanceAs (Decidable (_ ∧ _))

theorem getUserObject_iff {s : State} (hs : Inv s) {h : UserHandle} (hfull : IsFull h)
    (t : UserObject) (p : ObjPtr) : getUserObject s h t = .object p ↔
      ∃ l ∈ s.live, l.handle = (h >>> 1) <<< 1 ∧ l.type = t ∧ l.obj = p := by
  have hu := hs.used_le
  have ha := hs.allocated_le
  have hbits : ∀ i, ∀ e : HandleEntry, i < 0x7fe8 →
      (entryToHandle i e.generation = (h >>> 1) <<< 1 ↔
        handleIndex h = i ∧ handleGeneration h = e.generation) := by
    intro i e hi
    have hlt := h.isLt
    have hgl := e.generation.isLt
    rw [← BitVec.toNat_inj, ← BitVec.toNat_inj, toNat_handleIndex, toNat_handleGeneration]
    simp only [BitVec.toNat_shiftLeft, BitVec.toNat_ushiftRight, toNat_entryToHandle hi,
      Nat.shiftRight_eq_div_pow, Nat.shiftLeft_eq]
    omega
  constructor
  · intro hget
    unfold getUserObject at hget
    cases hh : handleToEntry s h with
    | none => simp only [hh, reduceCtorEq] at hget
    | some i =>
      obtain ⟨hidx, e, he, -, hg⟩ := handleToEntry_iff.mp hh
      simp only [hh, he] at hget
      have hi : i < s.handles.length := (List.getElem?_eq_some_iff.mp he).1
      have hg := hg.resolve_right fun h' => h'.elim hfull.1 hfull.2
      split at hget
      · rename_i het
        exact ⟨⟨entryToHandle i e.generation, p, t⟩, (hs.live _).mpr ⟨i, e, he, het, hget, rfl⟩,
          (hbits i e (by omega)).mpr ⟨hidx, hg⟩, rfl, rfl⟩
      · cases hget
  · rintro ⟨l, hl, hh, rfl, rfl⟩
    obtain ⟨i, e, he, het, hep, heh⟩ := (hs.live l).mp hl
    have hi : i < s.handles.length := (List.getElem?_eq_some_iff.mp he).1
    rw [heh] at hh
    obtain ⟨hidx, hg⟩ := (hbits i e (by omega)).mp hh
    have hto : handleToEntry s h = some i := by
      refine handleToEntry_iff.mpr ⟨hidx, e, he, ?_, Or.inl hg⟩
      simp only [het, ne_eq, reduceCtorEq, not_false_eq_true]
    simp only [getUserObject, hto, he, het, if_true, hep]

/-- Whatever is allocated and freed, a full handle denotes what it was returned for until it is
freed, the handles that are not freed differ, and the links of the free list stay inside the current
array. The lowest bit of a handle plays no part. -/
theorem handles_denote {as : List Action} {s : State}
    (hr : Run step (fun _ _ => True) State.initial as s) :
    (∀ h t p, IsFull h → (getUserObject s h t = .object p ↔
      ∃ l ∈ s.live, l.handle = (h >>> 1) <<< 1 ∧ l.type = t ∧ l.obj = p)) ∧
    (s.live.map (·.handle)).Nodup ∧ (∃ l, FreeList s l) ∧ ∀ a, ∃ s', step s a = .ok s' := by
  have hs := run_inv hr
  refine ⟨fun h t p hfull => getUserObject_iff hs hfull t p, hs.nodup, hs.free, fun a => ?_⟩
  obtain ⟨s', hst, -⟩ := step_total hs a
  exact ⟨s', hst⟩

/-- A window and a hook are allocated, the window is freed and its entry is used again. -/
def sampleRun : List Action :=
  [.allocUserHandle 1 .window true, .allocUserHandle 2 .hook true, .freeUserHandle 0x10020,
    .allocUserHandle 3 .window true]

theorem handles_denote_sample : ∃ s, Run step (fun _ _ => True) State.initial sampleRun s ∧
    getUserObject s 0x20020 .window = .object 3 ∧ getUserObject s 0x10020 .window = .null ∧
    ∃ l ∈ s.live, l.handle = 0x20020 ∧ l.type = .window ∧ l.obj = 3 := by
  obtain ⟨s, hr, hp⟩ := run_of_execTo (f := step) (q := fun _ _ => True) (g := fun _ _ => true)
    (s := State.initial) (p := fun s => decide (getUserObject s 0x20020 .window = .object 3) &&
      decide (getUserObject s 0x10020 .window = .null)) (l := sampleRun)
    (fun _ _ _ => trivial) (by decide)
  simp only [Bool.and_eq_true, decide_eq_true_eq] at hp
  exact ⟨s, hr, hp.1, hp.2, ((handles_denote hr).1 0x20020 .window 3 (by decide)).mp hp.1⟩

/-- An odd number that no call returned denotes an object. -/
theorem odd_handle_denotes : ¬ ∀ (as : List Action) (s : State),
    Run step (fun _ _ => True) State.initial as s → ∀ h t p, IsFull h →
      (getUserObject s h t = .object p ↔ ∃ l ∈ s.live, l.handle = h ∧ l.type = t ∧ l.obj = p) := by
  intro hall
  obtain ⟨s, hr, hp⟩ := run_of_execTo (f := step) (q := fun _ _ => True) (g := fun _ _ => true)
    (s := State.initial) (p := fun s => decide (getUserObject s 0x10021 .window = .object 1) &&
      decide (∀ l ∈ s.live, l.handle ≠ 0x10021)) (l := [.allocUserHandle 1 .window true])
    (fun _ _ _ => trivial) (by decide)
  simp only [Bool.and_eq_true, decide_eq_true_eq] at hp
  obtain ⟨l, hl, hh, -⟩ := (hall _ s hr 0x10021 .window 1 (by decide)).mp hp.1
  exact hp.2 l hl hh

end Wine.User
