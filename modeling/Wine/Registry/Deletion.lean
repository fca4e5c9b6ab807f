import Wine.Registry.Removal
import Wine.Registry.Requests

/-!
# Specifications of deleting keys and closing handles
-/

namespace Wine.Registry
open Wine.Lib

variable {cm : CaseMap} {h q : Prop} {r : Tree} {k : ℕ} {key : Key}

/-! ## The last reference -/

namespace Tree

theorem removeKey_other {i : ℕ} (hi : i ≠ k) : (r.removeKey k).keys i = r.keys i := by
  rw [removeKey_keys, if_neg hi]

theorem removeKey_some {i : ℕ} {key' : Key} (hi : (r.removeKey k).keys i = some key') :
    i ≠ k ∧ r.keys i = some key' := by
  rw [removeKey_keys] at hi
  by_cases hik : i = k
  · rw [if_pos hik] at hi
    cases hi
  · rw [if_neg hik] at hi
    exact ⟨hik, hi⟩

/-- A key that nothing refers to may leave the heap. -/
theorem keeps_removeKey (hi : Inv cm r) (hk : r.keys k = some key) (hr : r.referenced k = false) :
    Keeps cm h q r (r.removeKey k) := by
  simp only [referenced, Bool.or_eq_false_iff, beq_eq_false_iff_ne, ne_eq, List.contains_eq_mem,
    decide_eq_false_iff_not, hk, Option.any_some] at hr
  obtain ⟨⟨⟨hroot, hhand⟩, hbr⟩, hpar⟩ := hr
  have hnone : key.parent = none := by simpa using hpar
  have hl := hi.wf.toLinked
  have hchild : ∀ i ki, r.keys i = some ki → k ∉ ki.subkeys := by
    intro i ki hki hm
    obtain ⟨key', hk', hp⟩ := hl.child i ki hki k hm
    rw [← Option.some.inj (hk.symm.trans hk'), hnone] at hp
    cases hp
  have hdel : key.flags.deleted = true := by
    by_contra hd
    exact hl.attached k key hk (by simpa using hd) hroot hnone
  have hleaf : key.subkeys = [] := ((hi.wf.sound k key hk).detached hdel).2
  have hup : ∀ i ki p, r.keys i = some ki → ki.parent = some p → p ≠ k := by
    rintro i ki p hki hp rfl
    obtain ⟨-, pk, hpk, hm⟩ := hl.parent i ki p hki hp
    rw [← Option.some.inj (hk.symm.trans hpk), hleaf] at hm
    cases hm
  have hnames : ∀ i ki, r.keys i = some ki → (ki.subkeys.map fun c => fold cm ((r.removeKey k).nameOf c)) =
      ki.subkeys.map fun c => fold cm (r.nameOf c) := by
    intro i ki hki
    refine List.map_congr_left fun c hc => ?_
    have hne : c ≠ k := fun he => hchild i ki hki (he ▸ hc)
    simp only [nameOf, removeKey_other hne]
  refine ⟨⟨⟨?_, ?_, ?_, ?_, ?_, ?_, ?_, ?_⟩, ?_⟩, ?_, ?_, ?_, ?_⟩
  · intro i hin
    rw [removeKey_keys, hl.fresh i hin, ite_self]
  · obtain ⟨key₀, hk₀, h₀⟩ := hl.root
    exact ⟨key₀, (removeKey_other fun he => hroot he.symm).trans hk₀, h₀⟩
  · intro i ki hki c hc
    obtain ⟨-, hki⟩ := removeKey_some hki
    obtain ⟨ck, hck, hp⟩ := hl.child i ki hki c hc
    have hne : c ≠ k := fun he => hchild i ki hki (he ▸ hc)
    exact ⟨ck, (removeKey_other hne).trans hck, hp⟩
  · intro i ki p hki hp
    obtain ⟨-, hki⟩ := removeKey_some hki
    obtain ⟨hlt, pk, hpk, hm⟩ := hl.parent i ki p hki hp
    exact ⟨hlt, pk, (removeKey_other (hup i ki p hki hp)).trans hpk, hm⟩
  · intro i ki hki
    obtain ⟨-, hki⟩ := removeKey_some hki
    rw [hnames i ki hki]
    exact hl.sorted i ki hki
  · exact fun i ki hki => hl.attached i ki (removeKey_some hki).2
  · exact fun i ki hki => hl.named i ki (removeKey_some hki).2
  · intro i hih
    have hne : i ≠ k := by
      rintro rfl
      exact hih.elim hhand hbr
    rw [removeKey_other hne]
    exact hl.held i hih
  · exact fun i ki hki => hi.wf.sound i ki (removeKey_some hki).2
  · exact fun c ck p pk hc hp hpk => hi.dirtyUp c ck p pk (removeKey_some hc).2 hp (removeKey_some hpk).2
  · exact ⟨Nat.le_refl _, rfl, fun i key' hik _ => ⟨key', (removeKey_some hik).2, rfl, rfl, .inl rfl⟩⟩
  · exact fun _ hr c ck p pk hc hp hpk => hr c ck p pk (removeKey_some hc).2 hp (removeKey_some hpk).2
  · refine fun _ => ⟨fun i key' _ hik hv hd => ⟨key', (removeKey_some hik).2, hv, hd, rfl, rfl,
      fun c => and_congr_right fun hc => ?_⟩⟩
    have hne : c ≠ k := fun he => hchild i key' (removeKey_some hik).2 (he ▸ hc)
    simp only [Persists, removeKey_other hne]

theorem Older.of_handles {l : List ℕ} : r.Older { r with handles := l } :=
  ⟨Nat.le_refl _, rfl, fun _ key' hk _ => ⟨key', hk, rfl, rfl, .inl rfl⟩⟩

/-- The handles matter only to what is kept alive. -/
theorem keeps_handles (hi : Inv cm r) {l : List ℕ} (hl : ∀ i ∈ l, r.keys i ≠ none) :
    Keeps cm h q r { r with handles := l } where
  wf := ⟨⟨hi.wf.fresh, hi.wf.root, hi.wf.child, hi.wf.parent, hi.wf.sorted, hi.wf.attached,
    hi.wf.named, fun i hih => hih.elim (hl i) fun hb => hi.wf.held i (.inr hb)⟩, hi.wf.sound⟩
  dirtyUp := hi.dirtyUp
  older := .of_handles
  heredity _ hr := hr
  quiet _ := ⟨fun _ key' _ hk hv hd => ⟨key', hk, hv, hd, rfl, rfl, fun _ => Iff.rfl⟩⟩

end Tree

/-- What a release may change besides the key itself. -/
theorem wp_releaseKey {s : State} (hi : Inv cm s.toTree) (hk : s.keys k = some key)
    (hleaf : s.toTree.referenced k = false → key.subkeys = []) :
    wp (releaseKey k) (fun _ s' => Keeps cm h q s.toTree s'.toTree ∧
      (∀ i, i ≠ k → s'.keys i = s.keys i)) NotEndless s := by
  unfold releaseKey
  simp only [wp_bind, wp_get]
  cases href : s.toTree.referenced k with
  | true =>
    simp only [if_true, wp_pure]
    exact ⟨.refl hi, fun _ _ => trivial⟩
  | false =>
    obtain ⟨n, hn⟩ : ∃ n, s.nextKey = n + 1 := ⟨s.nextKey - 1, by have := hi.wf.nextKey_pos; omega⟩
    simp only [Bool.false_eq_true, if_false, wp_bind, wp_get, hn, keyDestroy]
    refine wp_getKey_some hk ?_
    simp only [hleaf href, List.forM_nil, wp_pure, wp_edit]
    exact ⟨Tree.keeps_removeKey hi hk href, fun i hne => Tree.removeKey_other hne⟩

/-- A key whose parent is gone was deleted. -/
theorem Inv.leaf (hi : Inv cm r) (hk : r.keys k = some key) (href : r.referenced k = false) :
    key.subkeys = [] := by
  simp only [Tree.referenced, Bool.or_eq_false_iff, beq_eq_false_iff_ne, ne_eq, hk,
    Option.any_some] at href
  obtain ⟨⟨⟨hroot, -⟩, -⟩, hpar⟩ := href
  refine ((hi.wf.sound k key hk).detached ?_).2
  by_contra hd
  exact hi.wf.attached k key hk (by simpa using hd) hroot (by simpa using hpar)

theorem wp_closeHandle {s : State} (hk : Keeps cm h q r s.toTree) :
    wp (closeHandle k) (fun _ s' => Keeps cm h q r s'.toTree) NotEndless s := by
  unfold closeHandle getHkeyObj
  simp only [wp_bind, wp_get, wp_ite, wp_pure, wp_setError]
  refine ⟨fun hm => ?_, fun _ => hk⟩
  simp only [wp_edit]
  have hk₁ : Keeps cm h q s.toTree { s.toTree with handles := s.handles.erase k } :=
    Tree.keeps_handles hk.inv fun i hi => hk.wf.held i (.inl (List.mem_of_mem_erase hi))
  cases hkey : s.keys k with
  | none => exact absurd hkey (hk.wf.held k (.inl hm))
  | some key =>
    refine wp_mono (wp_releaseKey (h := h) (q := q)
      (s := { s with handles := s.handles.erase k }) hk₁.inv hkey (hk₁.inv.leaf hkey)) ?_
    rintro _ s' ⟨hk₂, -⟩
    exact (hk.trans hk₁ (fun hp => ⟨hp, hp⟩) fun hp => ⟨hp, hp⟩).trans hk₂ (fun hp => ⟨hp, hp⟩)
      fun hp => ⟨hp, hp⟩

/-! ## Deletion -/

/-- Nothing has happened to the links of the keys before `c` but that its parent lost it. -/
structure Cut (s : State) (p c : ℕ) (key : Key) (s' : State) : Prop where
  fewer : ∀ i, s.keys i = none → s'.keys i = none
  others : ∀ i, i < c → i ≠ p → (s'.keys i).map Key.links = (s.keys i).map Key.links
  parent : ∃ key', s'.keys p = some key' ∧ key'.name = key.name ∧ key'.parent = key.parent ∧
    key'.subkeys = key.subkeys.erase c ∧ key'.flags.deleted = key.flags.deleted

theorem wp_freeSubkey {s : State} {p index c : ℕ} {ck : Key} (hk : Keeps cm h q r s.toTree)
    (hh : Tree.Holds cm s.toTree p index c key ck) (hleaf : ck.subkeys = []) :
    wp (freeSubkey p index) (fun _ s' => KeepsBut cm (· = p) h q r s'.toTree ∧ Cut s p c key s')
      NotEndless s := by
  unfold freeSubkey
  simp only [wp_bind]
  refine wp_getKey_some hh.parent ?_
  simp only [hh.index, wp_bind, wp_modifyKey]
  have hlt := hh.lt
  have hdet := hh.keeps (h := h) (q := q) hk.inv hleaf
  have hrel := wp_releaseKey (h := h) (q := q) (s := { s with toTree := s.toTree.detach p index c })
    hdet.inv hh.detach_child fun _ => hleaf
  refine wp_mono hrel ?_
  rintro _ s₁ ⟨hk₁, hkeys₁⟩
  have hp₁ : s₁.keys p = some { key with subkeys := key.subkeys.eraseIdx index } := by
    rw [hkeys₁ p (by omega)]
    exact hh.detach_parent
  have hall : KeepsBut cm (· = p) h q r s₁.toTree :=
    ((hk.but _).trans hdet (fun hp => ⟨hp, hp⟩) fun hp => ⟨hp, hp⟩).trans (hk₁.but _)
      (fun hp => ⟨hp, hp⟩) fun hp => ⟨hp, hp⟩
  refine wp_mono (wp_shrinkSubkeys hp₁ (hall.wf.sound p _ hp₁)) ?_
  rintro _ s₂ ⟨m, hm, ht, -⟩
  rw [ht]
  have hp₂ : s₂.keys p = some { key with subkeys := key.subkeys.eraseIdx index, nbSubkeys := m } := by
    rw [ht]
    exact Tree.updateKey_self hp₁
  refine ⟨hall.room hp₁ hm, fun i hnone => ?_, fun i hic hip => ?_, _, hp₂, rfl, rfl, ?_, rfl⟩
  · have hip : i ≠ p := fun he => by
      rw [he, hh.parent] at hnone
      cases hnone
    have hic : i ≠ c := fun he => by
      rw [he, hh.child] at hnone
      cases hnone
    rw [ht, Tree.room, Tree.updateKey_other hip, hkeys₁ i hic]
    exact (Tree.detach_other hip hic).trans hnone
  · rw [ht, Tree.room, Tree.updateKey_other hip, hkeys₁ i (by omega)]
    exact congrArg _ (Tree.detach_other hip (by omega))
  · obtain ⟨hi, hc⟩ := List.getElem?_eq_some_iff.mp hh.index
    rw [← hc, (hk.wf.nodup hh.parent).erase_getElem index hi]

theorem SameLinks.cut {s s₁ s' : State} {p c : ℕ} (hc : Cut s p c key s₁)
    (hs : SameLinks s₁.toTree s'.toTree) : Cut s p c key s' where
  fewer i hi := (hs.none_iff i).mpr (hc.fewer i hi)
  others i hic hip := (hs.links i).trans (hc.others i hic hip)
  parent := by
    obtain ⟨key₁, hk₁, h₁, h₂, h₃, h₄⟩ := hc.parent
    obtain ⟨key', hk', hl⟩ := hs.after hk₁
    obtain ⟨l₁, l₂, l₃, l₄⟩ := links_iff.mp hl
    exact ⟨key', hk', l₁.trans h₁, l₂.trans h₂, l₃.trans h₃, l₄.trans h₄⟩

/-- A key has lost its subkeys, and nothing else has happened to the links of the keys up to it. -/
structure Emptied (s : State) (k : ℕ) (key : Key) (s' : State) : Prop where
  fewer : ∀ i, s.keys i = none → s'.keys i = none
  others : ∀ i, i < k → (s'.keys i).map Key.links = (s.keys i).map Key.links
  self : ∃ key', s'.keys k = some key' ∧ key'.name = key.name ∧ key'.parent = key.parent ∧
    key'.subkeys = [] ∧ key'.flags.deleted = key.flags.deleted

theorem Emptied.cut {s s₁ s' : State} {p : ℕ} {pk pk₁ : Key} (he : Emptied s k key s₁) (hp : p < k)
    (hpk : s.keys p = some pk) (hpk₁ : s₁.keys p = some pk₁) (hc : Cut s₁ p k pk₁ s') :
    Cut s p k pk s' where
  fewer i hi := hc.fewer i (he.fewer i hi)
  others i hik hip := (hc.others i hik hip).trans (he.others i hik)
  parent := by
    obtain ⟨key', hk', h₁, h₂, h₃, h₄⟩ := hc.parent
    have hl := he.others p hp
    rw [hpk, hpk₁, Option.map_some, Option.map_some, Option.some.injEq] at hl
    obtain ⟨l₁, l₂, l₃, l₄⟩ := links_iff.mp hl
    exact ⟨key', hk', h₁.trans l₁, h₂.trans l₂, l₃ ▸ h₃, h₄.trans l₄⟩

/-- Deleting one more subkey before the others. -/
theorem Cut.emptied {s s₁ s' : State} {c : ℕ} {key₁ : Key} (hc : Cut s k c key s₁) (hkc : k < c)
    (hk₁ : s₁.keys k = some key₁) (he : Emptied s₁ k key₁ s') : Emptied s k key s' where
  fewer i hi := he.fewer i (hc.fewer i hi)
  others i hik := (he.others i hik).trans (hc.others i (by omega) (by omega))
  self := by
    obtain ⟨key', hk', h₁, h₂, h₃, h₄⟩ := he.self
    obtain ⟨key₂, hk₂, l₁, l₂, -, l₄⟩ := hc.parent
    obtain rfl := Option.some.inj (hk₁.symm.trans hk₂)
    exact ⟨key', hk', h₁.trans l₁, h₂.trans l₂, h₃, h₄.trans l₄⟩

theorem wp_unlinkKey {s : State} {p : ℕ} (hk : Keeps cm h q r s.toTree)
    (hkey : s.keys k = some key) (hp : key.parent = some p) :
    wp (unlinkKey k p) (fun b s' => Keeps cm h q r s'.toTree ∧
      (b = true → ∃ pk, s.keys p = some pk ∧ Cut s p k pk s')) NotEndless s := by
  obtain ⟨-, pk, hpk, hmem⟩ := hk.wf.parent k key p hkey hp
  unfold unlinkKey
  simp only [wp_bind]
  refine wp_getKey_some hkey (wp_getKey_some hpk ?_)
  have hidx := List.idxOf_lt_length_of_mem hmem
  simp only [hidx, if_true, wp_ite, wp_bind, wp_setError, wp_pure]
  refine ⟨fun _ => ⟨hk, fun hb => (by cases hb)⟩, fun hleaf => ?_⟩
  have hempty : key.subkeys = [] := by
    unfold Key.lastSubkey at hleaf
    exact List.length_eq_zero_iff.mp (by omega)
  have hh : Tree.Holds cm s.toTree p (pk.subkeys.idxOf k) k pk key :=
    ⟨hk.wf.toLinked, hpk, by rw [List.getElem?_eq_getElem hidx, List.getElem_idxOf], hkey⟩
  refine wp_mono (wp_freeSubkey hk hh hempty) ?_
  rintro _ s₁ ⟨hk₁, hcut⟩
  refine wp_mono (wp_touchKey hk₁) ?_
  rintro _ s₂ ⟨hk₂, hs⟩
  exact ⟨hk₂, fun _ => ⟨pk, hpk, hs.cut hcut⟩⟩

/-- What `delete_key` does to a key with a parent. -/
def Deletes (cm : CaseMap) (h q : Prop) (r : Tree) (fuel : ℕ) (delete : ℕ → M Bool) : Prop :=
  ∀ (c p : ℕ) (ck : Key) (s : State), Keeps cm h q r s.toTree → s.keys c = some ck →
    ck.parent = some p → (∀ i, c + fuel ≤ i → s.keys i = none) →
      wp (delete c) (fun b s' => Keeps cm h q r s'.toTree ∧
        (b = true → ∃ pk, s.keys p = some pk ∧ Cut s p c pk s')) NotEndless s

theorem wp_deleteSubkeys {fuel n : ℕ} {delete : ℕ → M Bool} (ih : Deletes cm h q r fuel delete)
    {s : State} (hk : Keeps cm h q r s.toTree) (hkey : s.keys k = some key)
    (hn : n = key.subkeys.length) (hfuel : ∀ i, k + 1 + fuel ≤ i → s.keys i = none) :
    wp (deleteSubkeys delete k n) (fun b s' => Keeps cm h q r s'.toTree ∧
      (b = true → Emptied s k key s')) NotEndless s := by
  induction n generalizing s key with
  | zero =>
    have hempty : key.subkeys = [] := List.length_eq_zero_iff.mp hn.symm
    unfold deleteSubkeys
    simp only [wp_bind]
    refine wp_getKey_some hkey ?_
    simp only [hempty, if_true, wp_pure]
    exact ⟨hk, fun _ => ⟨fun _ hi => hi, fun _ _ => rfl, key, hkey, rfl, rfl, hempty, rfl⟩⟩
  | succ n ihn =>
    unfold deleteSubkeys
    simp only [wp_bind]
    refine wp_getKey_some hkey ?_
    cases hlast : key.subkeys.getLast? with
    | none =>
      rw [List.getLast?_eq_none_iff] at hlast
      rw [hlast] at hn
      cases hn
    | some c =>
      have hmem : c ∈ key.subkeys := List.mem_of_getLast? hlast
      obtain ⟨ck, hck, hpar⟩ := hk.wf.child k key hkey c hmem
      have hkc := hk.wf.child_gt hkey hmem
      simp only [wp_bind]
      refine wp_mono (ih c k ck s hk hck hpar fun i hi => hfuel i (by omega)) ?_
      rintro b s₁ ⟨hk₁, hcut⟩
      cases b with
      | false =>
        simp only [Bool.false_eq_true, if_false, wp_pure]
        exact ⟨hk₁, fun hb => hb.elim⟩
      | true =>
        obtain ⟨pk, hpk, hcut⟩ := hcut rfl
        obtain rfl := Option.some.inj (hkey.symm.trans hpk)
        obtain ⟨key₁, hkey₁, -, -, hsub, -⟩ := hcut.parent
        have hlen : n = key₁.subkeys.length := by
          rw [hsub, List.length_erase_of_mem hmem]
          omega
        simp only [if_true]
        refine wp_mono (ihn hk₁ hkey₁ hlen fun i hi => hcut.fewer i (hfuel i hi)) ?_
        rintro b s₂ ⟨hk₂, he⟩
        exact ⟨hk₂, fun hb => hcut.emptied hkc hkey₁ (he hb)⟩

theorem wp_deleteDown {fuel p : ℕ} {recurse : Bool} {s : State} (hk : Keeps cm h q r s.toTree)
    (hkey : s.keys k = some key) (hfuel : ∀ i, k + fuel ≤ i → s.keys i = none) :
    wp (deleteDown fuel k recurse) (fun b s' => Keeps cm h q r s'.toTree ∧
      (b = true → key.parent = some p → ∃ pk, s.keys p = some pk ∧ Cut s p k pk s')) NotEndless
      s := by
  induction fuel generalizing k p key recurse s with
  | zero =>
    rw [hfuel k (Nat.le_refl _)] at hkey
    cases hkey
  | succ fuel ih =>
    have hfail : ∀ (e : Status) (P : State → Prop), wp (do setError e; pure false)
        (fun b s' => Keeps cm h q r s'.toTree ∧ (b = true → P s')) NotEndless s :=
      fun e P => ⟨hk, fun hb => (by cases hb)⟩
    unfold deleteDown
    rw [wp_ite]
    refine ⟨fun _ => hfail _ _, fun _ => ?_⟩
    rw [wp_bind]
    refine wp_getKey_some hkey ?_
    cases hpar : key.parent with
    | none => exact hfail _ _
    | some p' =>
      cases hdel : key.flags.deleted with
      | true => exact hfail _ _
      | false =>
        simp only
        have hun : ∀ (s₁ : State) (key₁ : Key), Keeps cm h q r s₁.toTree → s₁.keys k = some key₁ →
            key₁.parent = some p' → Emptied s k key s₁ ∨ s₁ = s →
              wp (unlinkKey k p') (fun b s' => Keeps cm h q r s'.toTree ∧
                (b = true → some p' = some p → ∃ pk, s.keys p = some pk ∧ Cut s p k pk s'))
                NotEndless s₁ := by
          intro s₁ key₁ hk₁ hkey₁ hp₁ hs₁
          refine wp_mono (wp_unlinkKey hk₁ hkey₁ hp₁) ?_
          rintro b s₂ ⟨hk₂, hcut⟩
          refine ⟨hk₂, fun hb hpp => ?_⟩
          obtain rfl := Option.some.inj hpp
          obtain ⟨pk₁, hpk₁, hcut⟩ := hcut hb
          obtain ⟨hlt, pk, hpk, -⟩ := hk.wf.parent k key p' hkey hpar
          rcases hs₁ with he | rfl
          · exact ⟨pk, hpk, he.cut hlt hpk hpk₁ hcut⟩
          · exact ⟨pk₁, hpk₁, hcut⟩
        cases recurse with
        | false => exact hun s key hk hkey hpar (.inr rfl)
        | true =>
          simp only [if_true, wp_bind]
          have hdel' : Deletes cm h q r fuel fun c => deleteDown fuel c true :=
            fun c p'' ck s₁ hk₁ hck hp₁ hf => wp_mono (ih hk₁ hck hf)
              fun b s₂ hb => ⟨hb.1, fun hbt => hb.2 hbt hp₁⟩
          refine wp_mono (wp_deleteSubkeys hdel' hk hkey rfl fun i hi => hfuel i (by omega)) ?_
          rintro b s₁ ⟨hk₁, he⟩
          cases b with
          | false =>
            simp only [Bool.false_eq_true, if_false, wp_pure]
            exact ⟨hk₁, fun hb => hb.elim⟩
          | true =>
            obtain ⟨key₁, hkey₁, -, hp₁, -⟩ := (he rfl).self
            exact hun s₁ key₁ hk₁ hkey₁ (hp₁.trans hpar) (.inl (he rfl))

theorem wp_deleteKey {s : State} {recurse : Bool} (hk : Keeps cm h q r s.toTree)
    (hkey : s.keys k = some key) :
    wp (deleteKey k recurse) (fun _ s' => Keeps cm h q r s'.toTree) NotEndless s := by
  unfold deleteKey
  simp only [wp_bind, wp_get]
  refine wp_mono (wp_deleteDown (p := 0) hk hkey fun i hi => hk.wf.fresh i (by omega)) ?_
  rintro b s' ⟨hk', -⟩
  exact hk'

end Wine.Registry
