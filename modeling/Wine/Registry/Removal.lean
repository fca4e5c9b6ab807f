import Wine.Registry.Chain
import Mathlib.Data.List.Nodup

/-!
# Keys that are freed

What `key_destroy` does to a key without subkeys and to a chain of keys that nothing else refers to,
and what is left of a chain when `create_key` gives up.
-/

namespace Wine.Registry
open Wine.Lib

variable {cm : CaseMap}

/-- A tree without the keys from `a` on, up to `m`. -/
def Tree.Without (r r' : Tree) (a m : ℕ) : Prop :=
  (∀ i, r'.keys i = if a ≤ i ∧ i < m then none else r.keys i) ∧ r'.nextKey = r.nextKey ∧
    r'.handles = r.handles ∧ r'.branches = r.branches

theorem not_referenced {r : Tree} {k : ℕ} {key : Key} (hk : r.keys k = some key)
    (hp : key.parent = none) (h0 : k ≠ rootKey) (hh : k ∉ r.handles) (hb : k ∉ r.branches) :
    r.referenced k = false := by
  simp only [Tree.referenced, hk, hp, Option.any_some, Option.isSome_none, Bool.or_false,
    Bool.or_eq_false_iff, beq_eq_false_iff_ne, ne_eq, h0, not_false_eq_true,
    List.contains_eq_mem, decide_eq_false_iff_not, hh, hb, and_self]

/-- Each key of the chain is the only reference to the next one. -/
theorem wp_destroyChain {fuel : ℕ} {s : State} {a m : ℕ} (hfuel : m ≤ a + fuel) (ham : a < m)
    (h0 : 0 < a)
    (hc : ∀ i, a ≤ i → i < m → ∃ key, s.keys i = some key ∧
      key.subkeys = if i + 1 = m then [] else [i + 1])
    (hh : ∀ i, a ≤ i → i ∉ s.handles ∧ i ∉ s.branches) :
    wp (keyDestroy fuel a) (fun _ s' => s.toTree.Without s'.toTree a m ∧ s'.grants = s.grants)
      NotEndless s := by
  induction fuel generalizing s a with
  | zero => omega
  | succ fuel ih =>
    unfold keyDestroy
    simp only [wp_bind]
    obtain ⟨key, hk, hsub⟩ := hc a (Nat.le_refl _) ham
    refine wp_getKey_some hk ?_
    by_cases hlast : a + 1 = m
    · rw [hsub, if_pos hlast]
      simp only [List.forM_nil, wp_pure, wp_edit]
      refine ⟨⟨fun i => ?_, rfl, rfl, rfl⟩, trivial⟩
      by_cases hi : i = a
      · rw [Tree.removeKey_keys, if_pos hi, if_pos (by omega)]
      · rw [Tree.removeKey_keys, if_neg hi, if_neg (by omega)]
    · rw [hsub, if_neg hlast]
      obtain ⟨key', hk', hsub'⟩ := hc (a + 1) (by omega) (by omega)
      simp only [List.forM_cons, List.forM_nil, wp_bind, wp_modifyKey, wp_get]
      have hnot : (s.toTree.updateKey (a + 1) fun key => { key with parent := none }).referenced
          (a + 1) = false :=
        not_referenced (Tree.updateKey_self hk') rfl (by unfold rootKey; omega)
          (hh (a + 1) (by omega)).1 (hh (a + 1) (by omega)).2
      simp only [hnot, Bool.false_eq_true, if_false]
      refine wp_mono (ih (by omega) (by omega) (by omega) (fun i hi him => ?_)
        fun i hi => hh i (by omega)) ?_
      · by_cases hi1 : i = a + 1
        · subst hi1
          exact ⟨_, Tree.updateKey_self hk', hsub'⟩
        · obtain ⟨ki, hki, hsubi⟩ := hc i (by omega) him
          exact ⟨ki, (Tree.updateKey_other hi1).trans hki, hsubi⟩
      · rintro _ s' ⟨⟨hkeys, hn, hhand, hbr⟩, hg⟩
        simp only [wp_pure, wp_edit]
        refine ⟨⟨fun i => ?_, hn, hhand, hbr⟩, hg⟩
        by_cases hi : i = a
        · rw [Tree.removeKey_keys, if_pos hi, if_pos (by omega)]
        · rw [Tree.removeKey_keys, if_neg hi, hkeys]
          by_cases hin : a + 1 ≤ i ∧ i < m
          · rw [if_pos hin, if_pos (by omega)]
          · rw [if_neg hin, if_neg (by omega)]
            exact Tree.updateKey_other (by omega)

/-- Where `create_key` gives up, either an assertion fails or the first new key is left without
subkeys. -/
theorem wp_freeChain {flags : KeyFlags} {p n index : ℕ} {tok : List WChar}
    {more : List (List WChar)} {b b₁ : Tree} {s : State} (hp : p < n) (hdel : flags.deleted = false)
    (hb₁ : Tree.Chain cm flags flags p n [tok] b b₁)
    (hc : Tree.Chain cm flags flags p n (tok :: more) b s.toTree)
    (hnext : s.nextKey = n + (tok :: more).length) (hnb : b₁.nextKey ≤ s.nextKey)
    (hheld : ∀ i, i ∈ b.handles ∨ i ∈ b.branches → i < n) :
    wp (freeSubkey n index) (fun _ s' => Tree.Chain cm flags flags p n [tok] b s'.toTree ∧
      s'.grants = s.grants) NotEndless s := by
  obtain ⟨key, hkey, hname, hval, hfl, hpar, hsub⟩ := hc.new 0 (Nat.succ_pos _)
  simp only [Nat.add_zero, if_true, List.getElem_cons_zero] at hkey hname hpar hsub
  have hs := hc.inv.wf.sound n key hkey
  unfold freeSubkey
  simp only [wp_bind]
  refine wp_getKey_some hkey ?_
  cases hidx : key.subkeys[index]? with
  | none => simp only [wp_throw]; exact fun h => (by cases h)
  | some c =>
    cases more with
    | nil =>
      rw [hsub] at hidx
      simp only [List.length_cons, List.length_nil, Nat.zero_add, if_true, List.getElem?_nil] at hidx
      cases hidx
    | cons tok' more =>
      have hsub' : key.subkeys = [n + 1] := by
        rw [hsub, if_neg]
        simp only [List.length_cons]
        omega
      have hi0 : index = 0 ∧ c = n + 1 := by
        rw [hsub'] at hidx
        cases index with
        | zero =>
          simp only [List.getElem?_cons_zero, Option.some.injEq] at hidx
          exact ⟨rfl, hidx.symm⟩
        | succ i => simp at hidx
      obtain ⟨rfl, rfl⟩ := hi0
      simp only [wp_bind, wp_modifyKey]
      -- the tree with the subkey unlinked, before it is destroyed
      generalize ht : ((s.toTree.updateKey n fun key =>
        { key with subkeys := key.subkeys.eraseIdx 0 }).updateKey (n + 1) fun key =>
          { key with flags := { key.flags with deleted := true }, parent := none }) = t
      obtain ⟨key₂, hkey₂, -, -, -, -, hsub₂⟩ := hc.new 1 (by simp)
      have hlen : (tok :: tok' :: more).length = more.length + 2 := rfl
      have htn : t.keys n = some { key with subkeys := [] } := by
        rw [← ht, Tree.updateKey_other (by omega), Tree.updateKey_self hkey, hsub']
        rfl
      have htn1 : t.keys (n + 1) = some { key₂ with
          flags := { key₂.flags with deleted := true }, parent := none } := by
        rw [← ht]
        refine Tree.updateKey_self ?_
        rw [Tree.updateKey_other (by omega), hkey₂]
      have hto : ∀ i, i ≠ n → i ≠ n + 1 → t.keys i = s.keys i := by
        intro i hin hin1
        rw [← ht, Tree.updateKey_other hin1, Tree.updateKey_other hin]
      have htnext : t.nextKey = n + (more.length + 2) := by
        rw [← ht, ← hlen]
        exact hnext
      have hth : t.handles = b.handles := by rw [← ht]; exact hc.handles
      have htb : t.branches = b.branches := by rw [← ht]; exact hc.branches
      have hout : ∀ i, n + 1 ≤ i → i ∉ t.handles ∧ i ∉ t.branches := by
        intro i hi
        rw [hth, htb]
        constructor
        · intro hm
          have := hheld i (.inl hm)
          omega
        · intro hm
          have := hheld i (.inr hm)
          omega
      have hdestroy : wp (releaseKey (n + 1)) (fun _ s' => t.Without s'.toTree (n + 1) t.nextKey ∧
          s'.grants = s.grants) NotEndless { s with toTree := t } := by
        unfold releaseKey
        have hnot : t.referenced (n + 1) = false := not_referenced htn1 rfl
          (by unfold rootKey; omega) (hout _ (Nat.le_refl _)).1 (hout _ (Nat.le_refl _)).2
        simp only [wp_bind, wp_get, hnot, Bool.false_eq_true, if_false]
        refine wp_destroyChain (by omega) (by omega) (by omega) (fun i hi him => ?_) hout
        rw [htnext] at him
        by_cases hi1 : i = n + 1
        · subst hi1
          refine ⟨_, htn1, ?_⟩
          rw [hsub₂, hlen, htnext]
          by_cases h2 : 1 + 1 = more.length + 2
          · rw [if_pos h2, if_pos (by omega)]
          · rw [if_neg h2, if_neg (by omega)]
        · obtain ⟨ki, hki, -, -, -, -, hsubi⟩ := hc.new (i - n) (by rw [hlen]; omega)
          have he : n + (i - n) = i := by omega
          rw [he] at hki hsubi
          refine ⟨ki, (hto i (by omega) hi1).trans hki, ?_⟩
          rw [hsubi, hlen, htnext]
          by_cases h2 : i - n + 1 = more.length + 2
          · rw [if_pos h2, if_pos (by omega)]
          · rw [if_neg h2, if_neg (by omega)]
      refine wp_mono hdestroy ?_
      rintro _ s' ⟨⟨hkeys, hn', hh', hbr'⟩, hg⟩
      have hs'n : s'.keys n = some { key with subkeys := [] } := by
        rw [hkeys, if_neg (by omega), htn]
      have hsound : Key.Sound cm { key with subkeys := [] } :=
        ⟨hs.short, Nat.zero_le _, hs.subkeysRoom, hs.valuesFit, hs.valuesRoom, hs.valuesSorted,
          hs.valuesShort, fun hd => by
            rw [hfl] at hd
            split at hd <;> rw [hdel] at hd <;> cases hd⟩
      refine wp_mono (wp_shrinkSubkeys hs'n hsound) ?_
      rintro _ s'' ⟨m, hm, ht'', hg''⟩
      refine ⟨?_, hg''.trans hg⟩
      rw [ht'']
      -- it remains to compare the tree with the one that held only the first new key
      obtain ⟨key₁, hkey₁, hname₁, hval₁, hfl₁, hpar₁, hsub₁⟩ := hb₁.new 0 (Nat.succ_pos _)
      simp only [Nat.add_zero, if_true, List.getElem_cons_zero] at hkey₁ hname₁ hpar₁
      have hone : 0 + 1 = [tok].length := rfl
      rw [if_pos hone] at hfl₁ hsub₁
      have hfl' : key.flags = flags := by
        rw [hfl]
        split <;> rfl
      have hfin : ∀ i, i ≠ n → (s'.toTree.room n m).keys i = b₁.keys i := by
        intro i hin
        rw [Tree.room, Tree.updateKey_other hin, hkeys]
        by_cases hlt : i < n
        · rw [if_neg (by omega), hto i hin (by omega), hc.old i hlt, hb₁.old i hlt]
        · rw [hb₁.beyond i (by rw [List.length_singleton]; omega)]
          by_cases hin1 : n + 1 ≤ i ∧ i < t.nextKey
          · rw [if_pos hin1]
          · rw [if_neg hin1, hto i hin (by omega)]
            exact hc.beyond i (by rw [hlen]; omega)
      have hfinn : (s'.toTree.room n m).keys n = some { key with subkeys := [], nbSubkeys := m } :=
        Tree.updateKey_self hs'n
      have hlinks : SameLinks b₁ (s'.toTree.room n m) := by
        refine ⟨?_, ?_, ?_, fun i => ?_⟩
        · show b₁.nextKey ≤ s'.nextKey
          rw [hn', htnext, ← hlen, ← hnext]
          exact hnb
        · exact (hh'.trans hth).trans hb₁.handles.symm
        · exact (hbr'.trans htb).trans hb₁.branches.symm
        · by_cases hin : i = n
          · subst hin
            rw [hfinn, hkey₁, Option.map_some, Option.map_some]
            exact congrArg some (links_iff.mpr ⟨hname.trans hname₁.symm, hpar.trans hpar₁.symm,
              hsub₁.symm, by show key.flags.deleted = _; rw [hfl', hfl₁]⟩)
          · rw [hfin i hin]
      refine ⟨hb₁.inv.same hlinks (fun i ki hki => ?_) (fun i ki ki' hki hki' => ?_), ?_, ?_, ?_, ?_,
        ?_, ?_⟩
      · by_cases hin : i = n
        · subst hin
          rw [hfinn, Option.some.injEq] at hki
          exact hki ▸ hsound.resized hm
        · rw [hfin i hin] at hki
          exact hb₁.inv.wf.sound i ki hki
      · by_cases hin : i = n
        · subst hin
          rw [hfinn, Option.some.injEq] at hki'
          rw [hkey₁, Option.some.injEq] at hki
          rw [← hki', ← hki, hfl₁]
          exact hfl'
        · rw [hfin i hin, hki, Option.some.injEq] at hki'
          rw [hki']
      · show n + 1 ≤ s'.nextKey
        rw [hn', htnext]
        omega
      · exact hh'.trans hth
      · exact hbr'.trans htb
      · intro i hi
        rw [hfin i (by omega)]
        exact hb₁.old i hi
      · intro j hj
        obtain rfl : j = 0 := by
          rw [List.length_singleton] at hj
          omega
        exact ⟨_, hfinn, hname, hval, hfl', hpar, rfl⟩
      · intro i hi
        rw [List.length_singleton] at hi
        rw [hfin i (by omega)]
        exact hb₁.beyond i (by rw [List.length_singleton]; exact hi)

end Wine.Registry

/-!
## Keys that are unlinked and removed

`Tree.detach` is the effect of `free_subkey` on the links. A key that was detached loses its last
reference when its handles are closed, and only then leaves the heap.
-/

namespace Wine.Registry
open Wine.Lib

variable {cm : CaseMap} {h q : Prop}

namespace Tree

def detach (r : Tree) (p index c : ℕ) : Tree :=
  (r.updateKey p fun key => { key with subkeys := key.subkeys.eraseIdx index }).updateKey c
    fun key => { key with flags := { key.flags with deleted := true }, parent := none }

variable {r r' : Tree} {p index c : ℕ} {key ck : Key}

theorem Linked.nodup (hr : r.Linked cm) (hk : r.keys p = some key) : key.subkeys.Nodup := by
  have hs := List.pairwise_map.mp (hr.sorted p key hk)
  exact hs.imp fun hlt he => by
    rw [he] at hlt
    exact lt_irrefl _ hlt

theorem Linked.mem_eraseIdx (hr : r.Linked cm) (hk : r.keys p = some key)
    (hidx : key.subkeys[index]? = some c) {i : ℕ} :
    i ∈ key.subkeys.eraseIdx index ↔ i ≠ c ∧ i ∈ key.subkeys := by
  obtain ⟨hlt, rfl⟩ := List.getElem?_eq_some_iff.mp hidx
  have hn := hr.nodup hk
  rw [← hn.erase_getElem index hlt, hn.mem_erase_iff]

/-- A key and its subkey at an index. -/
structure Holds (cm : CaseMap) (r : Tree) (p index c : ℕ) (key ck : Key) : Prop where
  linked : r.Linked cm
  parent : r.keys p = some key
  index : key.subkeys[index]? = some c
  child : r.keys c = some ck

namespace Holds

theorem mem (hh : Holds cm r p index c key ck) : c ∈ key.subkeys :=
  List.mem_of_getElem? hh.index

theorem lt (hh : Holds cm r p index c key ck) : p < c := hh.linked.child_gt hh.parent hh.mem

theorem up (hh : Holds cm r p index c key ck) : ck.parent = some p := by
  obtain ⟨ck', hck', hp⟩ := hh.linked.child p key hh.parent c hh.mem
  rw [← Option.some.inj (hh.child.symm.trans hck')] at hp
  exact hp

theorem detach_parent (hh : Holds cm r p index c key ck) : (r.detach p index c).keys p =
    some { key with subkeys := key.subkeys.eraseIdx index } := by
  have hlt := hh.lt
  rw [detach, updateKey_other (by omega), updateKey_self hh.parent]

theorem detach_child (hh : Holds cm r p index c key ck) : (r.detach p index c).keys c =
    some { ck with flags := { ck.flags with deleted := true }, parent := none } := by
  have hlt := hh.lt
  refine updateKey_self ?_
  rw [updateKey_other (by omega), hh.child]

end Holds

theorem detach_other {i : ℕ} (hp : i ≠ p) (hc : i ≠ c) : (r.detach p index c).keys i = r.keys i := by
  rw [detach, updateKey_other hc, updateKey_other hp]

namespace Holds

theorem cases (hh : Holds cm r p index c key ck) {i : ℕ} {key' : Key}
    (hi : (r.detach p index c).keys i = some key') :
    (i = p ∧ key' = { key with subkeys := key.subkeys.eraseIdx index }) ∨
      (i = c ∧ key' = { ck with flags := { ck.flags with deleted := true }, parent := none }) ∨
        (i ≠ p ∧ i ≠ c ∧ r.keys i = some key') := by
  by_cases hp : i = p
  · subst hp
    rw [hh.detach_parent] at hi
    exact .inl ⟨rfl, (Option.some.inj hi).symm⟩
  · by_cases hc : i = c
    · subst hc
      rw [hh.detach_child] at hi
      exact .inr (.inl ⟨rfl, (Option.some.inj hi).symm⟩)
    · rw [detach_other hp hc] at hi
      exact .inr (.inr ⟨hp, hc, hi⟩)

theorem nameOf (hh : Holds cm r p index c key ck) (i : ℕ) :
    (r.detach p index c).nameOf i = r.nameOf i := by
  by_cases hp : i = p
  · subst hp
    rw [nameOf_eq hh.detach_parent, nameOf_eq hh.parent]
  · by_cases hc : i = c
    · subst hc
      rw [nameOf_eq hh.detach_child, nameOf_eq hh.child]
    · simp only [Tree.nameOf, detach_other hp hc]

theorem linked' (hh : Holds cm r p index c key ck) (hleaf : ck.subkeys = []) :
    (r.detach p index c).Linked cm := by
  have hr := hh.linked
  have hlt := hh.lt
  have hmem := fun {i : ℕ} => hr.mem_eraseIdx (i := i) hh.parent hh.index
  refine ⟨?_, ?_, ?_, ?_, ?_, ?_, ?_, ?_⟩
  · intro i hi
    have hc := hr.lt hh.child
    have hi' : r.nextKey ≤ i := hi
    rw [detach_other (by omega) (by omega)]
    exact hr.fresh i hi
  · obtain ⟨key₀, hk₀, hp₀, hd₀⟩ := hr.root
    by_cases hp : rootKey = p
    · subst hp
      obtain rfl := Option.some.inj (hh.parent.symm.trans hk₀)
      exact ⟨_, hh.detach_parent, hp₀, hd₀⟩
    · have hc : rootKey ≠ c := by
        unfold rootKey
        omega
      exact ⟨key₀, (detach_other hp hc).trans hk₀, hp₀, hd₀⟩
  · intro i key' hi d hd
    -- a subkey other than the one that was unlinked
    have old : ∀ j key₁, r.keys j = some key₁ → d ∈ key₁.subkeys → d ≠ c →
        ∃ dk, (r.detach p index c).keys d = some dk ∧ dk.parent = some j := by
      intro j key₁ hj hdj hne
      obtain ⟨dk, hdk, hpar⟩ := hr.child j key₁ hj d hdj
      by_cases hdp : d = p
      · subst hdp
        obtain rfl := Option.some.inj (hh.parent.symm.trans hdk)
        exact ⟨_, hh.detach_parent, hpar⟩
      · exact ⟨dk, (detach_other hdp hne).trans hdk, hpar⟩
    rcases hh.cases hi with ⟨rfl, rfl⟩ | ⟨rfl, rfl⟩ | ⟨hip, -, hri⟩
    · obtain ⟨hne, hd'⟩ := hmem.mp hd
      exact old i key hh.parent hd' hne
    · rw [hleaf] at hd
      cases hd
    · refine old i key' hri hd fun he => ?_
      subst he
      obtain ⟨ck', hck', hpar⟩ := hr.child i key' hri d hd
      obtain rfl := Option.some.inj (hh.child.symm.trans hck')
      exact hip (Option.some.inj (hpar.symm.trans hh.up))
  · intro i key' d hi hd
    have old : ∀ key₁, r.keys i = some key₁ → key₁.parent = some d → i ≠ c →
        d < i ∧ ∃ dk, (r.detach p index c).keys d = some dk ∧ i ∈ dk.subkeys := by
      intro key₁ hri hpar hne
      obtain ⟨hdi, dk, hdk, hm⟩ := hr.parent i key₁ d hri hpar
      refine ⟨hdi, ?_⟩
      by_cases hdp : d = p
      · subst hdp
        obtain rfl := Option.some.inj (hh.parent.symm.trans hdk)
        exact ⟨_, hh.detach_parent, hmem.mpr ⟨hne, hm⟩⟩
      · by_cases hdc : d = c
        · subst hdc
          obtain rfl := Option.some.inj (hh.child.symm.trans hdk)
          rw [hleaf] at hm
          cases hm
        · exact ⟨dk, (detach_other hdp hdc).trans hdk, hm⟩
    rcases hh.cases hi with ⟨rfl, rfl⟩ | ⟨rfl, rfl⟩ | ⟨-, hic, hri⟩
    · exact old key hh.parent hd (by omega)
    · cases hd
    · exact old key' hri hd hic
  · intro i key' hi
    simp only [hh.nameOf]
    rcases hh.cases hi with ⟨rfl, rfl⟩ | ⟨rfl, rfl⟩ | ⟨-, -, hri⟩
    · exact (hr.sorted i key hh.parent).sublist ((List.eraseIdx_sublist _ _).map _)
    · exact hr.sorted i ck hh.child
    · exact hr.sorted i key' hri
  · intro i key' hi hd hne
    rcases hh.cases hi with ⟨rfl, rfl⟩ | ⟨rfl, rfl⟩ | ⟨-, -, hri⟩
    · exact hr.attached i key hh.parent hd hne
    · cases hd
    · exact hr.attached i key' hri hd hne
  · intro i key' hi hne
    rcases hh.cases hi with ⟨rfl, rfl⟩ | ⟨rfl, rfl⟩ | ⟨-, -, hri⟩
    · exact hr.named i key hh.parent hne
    · exact hr.named i ck hh.child hne
    · exact hr.named i key' hri hne
  · intro i hi hnone
    have hri := hr.held i hi
    by_cases hip : i = p
    · subst hip
      rw [hh.detach_parent] at hnone
      cases hnone
    · by_cases hic : i = c
      · subst hic
        rw [hh.detach_child] at hnone
        cases hnone
      · rw [detach_other hip hic] at hnone
        exact hri hnone

/-- Unlinking a key leaves only its parent to be marked. -/
theorem keeps (hh : Holds cm r p index c key ck) (hi : Inv cm r) (hleaf : ck.subkeys = []) :
    KeepsBut cm (· = p) h q r (r.detach p index c) where
  wf := by
    refine ⟨hh.linked' hleaf, fun i key' hi' => ?_⟩
    rcases hh.cases hi' with ⟨rfl, rfl⟩ | ⟨rfl, rfl⟩ | ⟨-, -, hri⟩
    · have hs := hi.wf.sound i key hh.parent
      refine ⟨hs.short, Nat.le_trans (List.length_eraseIdx_le _ _) hs.subkeysFit, hs.subkeysRoom,
        hs.valuesFit, hs.valuesRoom, hs.valuesSorted, hs.valuesShort, fun hd => ⟨(hs.detached hd).1, ?_⟩⟩
      have hm := hh.mem
      rw [(hs.detached hd).2] at hm
      cases hm
    · have hs := hi.wf.sound i ck hh.child
      exact ⟨hs.short, hs.subkeysFit, hs.subkeysRoom, hs.valuesFit, hs.valuesRoom, hs.valuesSorted,
        hs.valuesShort, fun _ => ⟨rfl, hleaf⟩⟩
    · exact hi.wf.sound i key' hri
  dirtyUp := by
    intro i key' d dk hik hd hdk hv hdirty
    have old : ∀ key₁, r.keys i = some key₁ → key₁.parent = some d → key₁.flags.volatile = false →
        key₁.flags.dirty = true → dk.flags.volatile = true ∨ dk.flags.dirty = true := by
      intro key₁ hri hpar hv₁ hd₁
      rcases hh.cases hdk with ⟨rfl, rfl⟩ | ⟨rfl, rfl⟩ | ⟨-, -, hrd⟩
      · exact hi.dirtyUp i key₁ d key hri hpar hh.parent hv₁ hd₁
      · exact hi.dirtyUp i key₁ d ck hri hpar hh.child hv₁ hd₁
      · exact hi.dirtyUp i key₁ d dk hri hpar hrd hv₁ hd₁
    rcases hh.cases hik with ⟨rfl, rfl⟩ | ⟨rfl, rfl⟩ | ⟨-, -, hri⟩
    · exact old key hh.parent hd hv hdirty
    · cases hd
    · exact old key' hri hd hv hdirty
  older := by
    refine ⟨Nat.le_refl _, rfl, fun i key' hik _ => ?_⟩
    rcases hh.cases hik with ⟨rfl, rfl⟩ | ⟨rfl, rfl⟩ | ⟨-, -, hri⟩
    · exact ⟨key, hh.parent, rfl, rfl, .inl rfl⟩
    · exact ⟨ck, hh.child, rfl, rfl, .inr rfl⟩
    · exact ⟨key', hri, rfl, rfl, .inl rfl⟩
  heredity _ hr := by
    intro i key' d dk hik hd hdk hv
    have old : ∀ key₁, r.keys i = some key₁ → key₁.parent = some d → key₁.flags.volatile = true := by
      intro key₁ hri hpar
      rcases hh.cases hdk with ⟨rfl, rfl⟩ | ⟨rfl, rfl⟩ | ⟨-, -, hrd⟩
      · exact hr i key₁ d key hri hpar hh.parent hv
      · exact hr i key₁ d ck hri hpar hh.child hv
      · exact hr i key₁ d dk hri hpar hrd hv
    rcases hh.cases hik with ⟨rfl, rfl⟩ | ⟨rfl, rfl⟩ | ⟨-, -, hri⟩
    · exact old key hh.parent hd
    · cases hd
    · exact old key' hri hd
  quiet _ := by
    have hpersist : ∀ i, r.Persists i ↔ (r.detach p index c).Persists i := by
      intro i
      constructor
      · rintro ⟨ki, hki, hv⟩
        by_cases hip : i = p
        · subst hip
          obtain rfl := Option.some.inj (hh.parent.symm.trans hki)
          exact ⟨_, hh.detach_parent, hv⟩
        · by_cases hic : i = c
          · subst hic
            obtain rfl := Option.some.inj (hh.child.symm.trans hki)
            exact ⟨_, hh.detach_child, hv⟩
          · exact ⟨ki, (detach_other hip hic).trans hki, hv⟩
      · rintro ⟨ki, hki, hv⟩
        rcases hh.cases hki with ⟨rfl, rfl⟩ | ⟨rfl, rfl⟩ | ⟨-, -, hri⟩
        · exact ⟨key, hh.parent, hv⟩
        · exact ⟨ck, hh.child, hv⟩
        · exact ⟨ki, hri, hv⟩
    refine ⟨fun i key' hip hik hv hd => ?_⟩
    rcases hh.cases hik with ⟨rfl, rfl⟩ | ⟨rfl, rfl⟩ | ⟨-, -, hri⟩
    · exact absurd rfl hip
    · exact ⟨ck, hh.child, hv, hd, rfl, rfl, fun d => and_congr_right fun _ => hpersist d⟩
    · exact ⟨key', hri, hv, hd, rfl, rfl, fun d => and_congr_right fun _ => hpersist d⟩

end Holds

end Tree

end Wine.Registry
