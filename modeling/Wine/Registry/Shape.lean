import Wine.Registry.Keys

/-!
# The shape of the registry tree

`Key.Sound` is what one key satisfies by itself, `Tree.Linked` what the keys satisfy together. Both
together are the invariant `Tree.Wf`. `SameLinks` relates two trees with the same names, parents,
subkeys and deletion marks: `Linked` cannot tell them apart.
-/

namespace Wine.Registry
open Wine.Lib

structure Key.Sound (cm : CaseMap) (key : Key) : Prop where
  short : key.name.length ≤ maxNameLen
  subkeysFit : key.subkeys.length ≤ key.nbSubkeys
  subkeysRoom : key.nbSubkeys = 0 ∨ minSubkeys ≤ key.nbSubkeys
  valuesFit : key.values.length ≤ key.nbValues
  valuesRoom : key.nbValues = 0 ∨ minValues ≤ key.nbValues
  valuesSorted : (key.values.map fun v => fold cm v.name).Pairwise (· < ·)
  valuesShort : ∀ v ∈ key.values, v.name.length ≤ maxNameLen
  detached : key.flags.deleted = true → key.parent = none ∧ key.subkeys = []

theorem Key.Sound.flags {cm : CaseMap} {key : Key} (h : key.Sound cm) {f : KeyFlags}
    (hf : f.deleted = true → key.flags.deleted = true) :
    Key.Sound cm { key with flags := f } where
  short := h.short
  subkeysFit := h.subkeysFit
  subkeysRoom := h.subkeysRoom
  valuesFit := h.valuesFit
  valuesRoom := h.valuesRoom
  valuesSorted := h.valuesSorted
  valuesShort := h.valuesShort
  detached hd := h.detached (hf hd)

def ValidName (name : List WChar) : Prop := name ≠ [] ∧ backslash ∉ name

namespace Tree

structure Linked (cm : CaseMap) (r : Tree) : Prop where
  fresh : ∀ k, r.nextKey ≤ k → r.keys k = none
  root : ∃ key, r.keys rootKey = some key ∧ key.parent = none ∧ key.flags.deleted = false
  child : ∀ k key, r.keys k = some key → ∀ c ∈ key.subkeys,
    ∃ ck, r.keys c = some ck ∧ ck.parent = some k
  parent : ∀ k key p, r.keys k = some key → key.parent = some p →
    p < k ∧ ∃ pk, r.keys p = some pk ∧ k ∈ pk.subkeys
  sorted : ∀ k key, r.keys k = some key →
    (key.subkeys.map fun c => fold cm (r.nameOf c)).Pairwise (· < ·)
  attached : ∀ k key, r.keys k = some key → key.flags.deleted = false → k ≠ rootKey →
    key.parent ≠ none
  named : ∀ k key, r.keys k = some key → k ≠ rootKey → ValidName key.name
  held : ∀ k, k ∈ r.handles ∨ k ∈ r.branches → r.keys k ≠ none

structure Wf (cm : CaseMap) (r : Tree) : Prop extends Linked cm r where
  sound : ∀ k key, r.keys k = some key → key.Sound cm

end Tree

def Key.links (key : Key) : List WChar × Option ℕ × List ℕ × Bool :=
  (key.name, key.parent, key.subkeys, key.flags.deleted)

structure SameLinks (r r' : Tree) : Prop where
  nextKey : r.nextKey ≤ r'.nextKey
  handles : r'.handles = r.handles
  branches : r'.branches = r.branches
  links : ∀ i, (r'.keys i).map Key.links = (r.keys i).map Key.links

namespace SameLinks
variable {r r' r'' : Tree}

theorem refl (r : Tree) : SameLinks r r := ⟨Nat.le_refl _, rfl, rfl, fun _ => rfl⟩

theorem trans (h : SameLinks r r') (h' : SameLinks r' r'') : SameLinks r r'' :=
  ⟨Nat.le_trans h.nextKey h'.nextKey, h'.handles.trans h.handles, h'.branches.trans h.branches,
    fun i => (h'.links i).trans (h.links i)⟩

theorem before (h : SameLinks r r') {i : ℕ} {key' : Key} (hk : r'.keys i = some key') :
    ∃ key, r.keys i = some key ∧ key'.links = key.links := by
  have hl := h.links i
  rw [hk] at hl
  cases hr : r.keys i with
  | none => rw [hr] at hl; cases hl
  | some key =>
    rw [hr] at hl
    exact ⟨key, rfl, Option.some.inj hl⟩

theorem after (h : SameLinks r r') {i : ℕ} {key : Key} (hk : r.keys i = some key) :
    ∃ key', r'.keys i = some key' ∧ key'.links = key.links := by
  have hl := h.links i
  rw [hk] at hl
  cases hr : r'.keys i with
  | none => rw [hr] at hl; cases hl
  | some key' =>
    rw [hr] at hl
    exact ⟨key', rfl, Option.some.inj hl⟩

theorem none_iff (h : SameLinks r r') (i : ℕ) : r'.keys i = none ↔ r.keys i = none := by
  rw [← @Option.map_eq_none_iff _ _ _ Key.links, h.links i, Option.map_eq_none_iff]

theorem nameOf (h : SameLinks r r') (i : ℕ) : r'.nameOf i = r.nameOf i := by
  cases hk : r'.keys i with
  | none => simp only [Tree.nameOf, hk, (h.none_iff i).mp hk]
  | some key' =>
    obtain ⟨key, hr, hl⟩ := h.before hk
    simp only [Tree.nameOf, hk, hr, Option.elim_some]
    exact congrArg Prod.fst hl

end SameLinks

theorem links_iff {key key' : Key} : key'.links = key.links ↔ key'.name = key.name ∧
    key'.parent = key.parent ∧ key'.subkeys = key.subkeys ∧
      key'.flags.deleted = key.flags.deleted := by
  simp only [Key.links, Prod.mk.injEq]

namespace Tree
variable {cm : CaseMap} {r r' : Tree}

theorem Linked.same (h : r.Linked cm) (hs : SameLinks r r') : r'.Linked cm where
  fresh k hk := (hs.none_iff k).mpr (h.fresh k (Nat.le_trans hs.nextKey hk))
  root := by
    obtain ⟨key, hk, hp, hd⟩ := h.root
    obtain ⟨key', hk', hl⟩ := hs.after hk
    obtain ⟨-, hp', -, hd'⟩ := links_iff.mp hl
    exact ⟨key', hk', hp' ▸ hp, hd' ▸ hd⟩
  child k key' hk c hc := by
    obtain ⟨key, hr, hl⟩ := hs.before hk
    obtain ⟨-, -, hsub, -⟩ := links_iff.mp hl
    obtain ⟨ck, hck, hp⟩ := h.child k key hr c (hsub ▸ hc)
    obtain ⟨ck', hck', hl'⟩ := hs.after hck
    exact ⟨ck', hck', (links_iff.mp hl').2.1 ▸ hp⟩
  parent k key' p hk hp := by
    obtain ⟨key, hr, hl⟩ := hs.before hk
    obtain ⟨-, hpar, -, -⟩ := links_iff.mp hl
    obtain ⟨hlt, pk, hpk, hmem⟩ := h.parent k key p hr (hpar ▸ hp)
    obtain ⟨pk', hpk', hl'⟩ := hs.after hpk
    exact ⟨hlt, pk', hpk', (links_iff.mp hl').2.2.1 ▸ hmem⟩
  sorted k key' hk := by
    obtain ⟨key, hr, hl⟩ := hs.before hk
    have hsub := (links_iff.mp hl).2.2.1
    simp only [hs.nameOf, hsub]
    exact h.sorted k key hr
  attached k key' hk hd hne := by
    obtain ⟨key, hr, hl⟩ := hs.before hk
    obtain ⟨-, hpar, -, hdel⟩ := links_iff.mp hl
    rw [hpar]
    exact h.attached k key hr (hdel ▸ hd) hne
  named k key' hk hne := by
    obtain ⟨key, hr, hl⟩ := hs.before hk
    rw [(links_iff.mp hl).1]
    exact h.named k key hr hne
  held k hk := by
    rw [hs.handles, hs.branches] at hk
    exact fun hn => h.held k hk ((hs.none_iff k).mp hn)

theorem Linked.lt (h : r.Linked cm) {k : ℕ} {key : Key} (hk : r.keys k = some key) :
    k < r.nextKey := by
  by_contra hn
  rw [h.fresh k (Nat.le_of_not_lt hn)] at hk
  cases hk

theorem Linked.child_gt (h : r.Linked cm) {k c : ℕ} {key : Key} (hk : r.keys k = some key)
    (hc : c ∈ key.subkeys) : k < c := by
  obtain ⟨ck, hck, hp⟩ := h.child k key hk c hc
  exact (h.parent c ck k hck hp).1

theorem Linked.nextKey_pos (h : r.Linked cm) : 0 < r.nextKey := by
  obtain ⟨key, hk, -⟩ := h.root
  exact h.lt hk

theorem nameOf_eq {k : ℕ} {key : Key} (hk : r.keys k = some key) : r.nameOf k = key.name := by
  simp only [nameOf, hk, Option.elim_some]

theorem Wf.short (h : r.Wf cm) (k : ℕ) : (r.nameOf k).length ≤ maxNameLen := by
  cases hk : r.keys k with
  | none => simp only [nameOf, hk, Option.elim_none, List.length_nil, Nat.zero_le]
  | some key =>
    rw [nameOf_eq hk]
    exact (h.sound k key hk).short

theorem updateKey_same {k : ℕ} {key : Key} {f : Key → Key} (hk : r.keys k = some key)
    (hf : (f key).links = key.links) : SameLinks r (r.updateKey k f) where
  nextKey := Nat.le_refl _
  handles := rfl
  branches := rfl
  links i := by
    by_cases hi : i = k
    · subst hi
      simp only [updateKey_keys, if_true, hk, Option.map_some, hf]
    · simp only [updateKey_keys, hi, if_false]

theorem Wf.updateKey (h : r.Wf cm) {k : ℕ} {key : Key} {f : Key → Key}
    (hk : r.keys k = some key) (hf : (f key).links = key.links) (hs : (f key).Sound cm) :
    (r.updateKey k f).Wf cm where
  toLinked := h.toLinked.same (updateKey_same hk hf)
  sound i key' hi := by
    by_cases hik : i = k
    · subst hik
      simp only [updateKey_keys, if_true, hk, Option.map_some, Option.some.injEq] at hi
      exact hi ▸ hs
    · simp only [updateKey_keys, hik, if_false] at hi
      exact h.sound i key' hi

end Tree

end Wine.Registry

/-!
## Lookup by name

What the binary searches of `find_subkey` and `find_value` return on sorted names, and what
`get_path_token` makes of a path.
-/

namespace Wine.Registry
open Wine.Lib

variable {cm : CaseMap} {names : List (List WChar)} {name : List WChar} {cmp : ℕ → ℤ} {i : ℕ}

/-- `cmp` compares the entries of `names` with `name`. -/
def Compares (cm : CaseMap) (names : List (List WChar)) (name : List WChar) (cmp : ℕ → ℤ) : Prop :=
  ∀ i (h : i < names.length), cmp i = nameOrder cm names[i] name

theorem maxNameLen_lt : maxNameLen < maxPathLen := by
  rw [maxPathLen_eq]
  unfold maxNameLen
  omega

theorem Compares.increasing (hc : Compares cm names name cmp)
    (hs : (names.map (fold cm)).Pairwise (· < ·)) (hshort : ∀ a ∈ names, a.length ≤ maxNameLen)
    (hname : name.length ≤ maxNameLen) : Increasing cmp names.length := by
  intro i j hij hj
  have hi : i < names.length := Nat.lt_trans hij hj
  have hlt : fold cm names[i] < fold cm names[j] :=
    List.pairwise_iff_getElem.mp (List.pairwise_map.mp hs) i j hi hj hij
  have hsi := hshort _ (List.getElem_mem hi)
  have hsj := hshort _ (List.getElem_mem hj)
  rw [hc i hi, hc j hj]
  constructor
  · intro h
    rw [nameOrder_pos_iff hsj hname]
    rcases lt_or_eq_of_le h with h | h
    · exact lt_trans ((nameOrder_pos_iff hsi hname).mp h) hlt
    · have hl := maxNameLen_lt
      rwa [← fold_of_nameOrder_zero (by omega) (by omega) h.symm]
  · intro h
    rw [nameOrder_neg_iff hsi hname]
    rcases lt_or_eq_of_le h with h | h
    · exact lt_trans hlt ((nameOrder_neg_iff hsj hname).mp h)
    · have hl := maxNameLen_lt
      rwa [← fold_of_nameOrder_zero (by omega) (by omega) h]

theorem Compares.zero_iff (hc : Compares cm names name cmp)
    (hshort : ∀ a ∈ names, a.length ≤ maxNameLen) (hname : name.length < maxPathLen)
    (hi : i < names.length) : cmp i = 0 ↔ fold cm names[i] = fold cm name := by
  have hl := maxNameLen_lt
  have hsi := hshort _ (List.getElem_mem hi)
  rw [hc i hi]
  exact nameOrder_zero_iff (by omega) hname

theorem Compares.found (hc : Compares cm names name cmp)
    (hshort : ∀ a ∈ names, a.length ≤ maxNameLen) (hname : name.length < maxPathLen)
    (h : binarySearch cmp names.length = .found i) :
    ∃ hi : i < names.length, fold cm names[i] = fold cm name := by
  rcases binarySearch_range cmp names.length with ⟨j, hj, hlt, h0⟩ | ⟨j, hj, -⟩
  · rw [hj] at h
    obtain rfl := SearchResult.found.inj h
    exact ⟨hlt, (hc.zero_iff hshort hname hlt).mp h0⟩
  · rw [hj] at h
    cases h

theorem missing_le (h : binarySearch cmp names.length = .missing i) : i ≤ names.length := by
  rcases binarySearch_range cmp names.length with ⟨j, hj, -⟩ | ⟨j, hj, hle⟩
  · rw [hj] at h
    cases h
  · rw [hj] at h
    exact SearchResult.missing.inj h ▸ hle

/-- A search finds a name exactly when it is there up to case. -/
theorem Compares.found_iff (hc : Compares cm names name cmp)
    (hs : (names.map (fold cm)).Pairwise (· < ·)) (hshort : ∀ a ∈ names, a.length ≤ maxNameLen)
    (hname : name.length < maxPathLen) :
    (∃ i, binarySearch cmp names.length = .found i) ↔ ∃ a ∈ names, fold cm a = fold cm name := by
  constructor
  · rintro ⟨i, hi⟩
    obtain ⟨hlt, he⟩ := hc.found hshort hname hi
    exact ⟨_, List.getElem_mem hlt, he⟩
  · rintro ⟨a, ha, he⟩
    obtain ⟨i, hi, rfl⟩ := List.mem_iff_getElem.mp ha
    have hlen : name.length ≤ maxNameLen := by
      rw [← length_of_fold he]
      exact hshort _ ha
    exact (binarySearch_found_iff (hc.increasing hs hshort hlen)).mpr
      ⟨i, hi, (hc.zero_iff hshort hname hi).mpr he⟩

/-- The place to insert splits the names into smaller and larger ones. -/
theorem Compares.missing (hc : Compares cm names name cmp)
    (hs : (names.map (fold cm)).Pairwise (· < ·)) (hshort : ∀ a ∈ names, a.length ≤ maxNameLen)
    (hname : name.length ≤ maxNameLen) (h : binarySearch cmp names.length = .missing i) :
    (∀ b ∈ (names.map (fold cm)).take i, b < fold cm name) ∧
      ∀ b ∈ (names.map (fold cm)).drop i, fold cm name < b := by
  have hl := binarySearch_located (hc.increasing hs hshort hname)
  rw [h] at hl
  obtain ⟨-, hlow, hhigh⟩ := hl
  constructor
  · intro b hb
    obtain ⟨j, hj, rfl⟩ := List.mem_iff_getElem.mp hb
    rw [List.length_take, List.length_map] at hj
    have hjn : j < names.length := by omega
    have hneg := hlow j (by omega)
    rw [hc j hjn, nameOrder_neg_iff (hshort _ (List.getElem_mem hjn)) hname] at hneg
    simpa only [List.getElem_take, List.getElem_map] using hneg
  · intro b hb
    obtain ⟨j, hj, rfl⟩ := List.mem_iff_getElem.mp hb
    rw [List.length_drop, List.length_map] at hj
    have hjn : i + j < names.length := by omega
    have hpos := hhigh (i + j) (by omega) hjn
    rw [hc _ hjn, nameOrder_pos_iff (hshort _ (List.getElem_mem hjn)) hname] at hpos
    simpa only [List.getElem_drop, List.getElem_map] using hpos

/-! ## Subkeys -/

namespace Tree
variable {r : Tree} {k : ℕ} {key : Key}

theorem compares_subkeys (r : Tree) (key : Key) (name : List WChar) :
    Compares cm (key.subkeys.map r.nameOf) name
      fun i => nameOrder cm (r.nameOf (key.subkeys.getD i 0)) name := by
  intro i h
  rw [List.length_map] at h
  simp only [List.getElem_map, List.getD_eq_getElem?_getD, List.getElem?_eq_getElem h,
    Option.getD_some]

theorem Wf.names_sorted (h : r.Wf cm) (hk : r.keys k = some key) :
    ((key.subkeys.map r.nameOf).map (fold cm)).Pairwise (· < ·) := by
  rw [List.map_map]
  exact h.sorted k key hk

theorem Wf.names_short (h : r.Wf cm) : ∀ a ∈ key.subkeys.map r.nameOf, a.length ≤ maxNameLen := by
  intro a ha
  obtain ⟨c, -, rfl⟩ := List.mem_map.mp ha
  exact h.short c

theorem findSubkey_eq (r : Tree) (key : Key) (name : List WChar) : findSubkey cm r key name =
    binarySearch (fun i => nameOrder cm (r.nameOf (key.subkeys.getD i 0)) name)
      (key.subkeys.map r.nameOf).length := by
  rw [List.length_map]
  rfl

theorem Wf.findSubkey_found (h : r.Wf cm) (hname : name.length < maxPathLen)
    (hf : findSubkey cm r key name = .found i) :
    key.subkeys.getD i 0 ∈ key.subkeys ∧ fold cm (r.nameOf (key.subkeys.getD i 0)) = fold cm name := by
  rw [findSubkey_eq] at hf
  obtain ⟨hi, he⟩ := (compares_subkeys r key name).found h.names_short hname hf
  rw [List.length_map] at hi
  simp only [List.getElem_map] at he
  simp only [List.getD_eq_getElem?_getD, List.getElem?_eq_getElem hi, Option.getD_some]
  exact ⟨List.getElem_mem hi, he⟩

theorem findSubkey_missing_le (hf : findSubkey cm r key name = .missing i) :
    i ≤ key.subkeys.length := by
  rw [findSubkey_eq] at hf
  simpa only [List.length_map] using missing_le hf

theorem Wf.findSubkey_iff (h : r.Wf cm) (hk : r.keys k = some key) (hname : name.length < maxPathLen) :
    (∃ i, findSubkey cm r key name = .found i) ↔
      ∃ c ∈ key.subkeys, fold cm (r.nameOf c) = fold cm name := by
  rw [findSubkey_eq, (compares_subkeys r key name).found_iff (h.names_sorted hk) h.names_short hname]
  simp only [List.mem_map, exists_exists_and_eq_and]

theorem Wf.findSubkey_missing (h : r.Wf cm) (hk : r.keys k = some key)
    (hname : name.length ≤ maxNameLen) (hf : findSubkey cm r key name = .missing i) :
    (∀ b ∈ (key.subkeys.map fun c => fold cm (r.nameOf c)).take i, b < fold cm name) ∧
      ∀ b ∈ (key.subkeys.map fun c => fold cm (r.nameOf c)).drop i, fold cm name < b := by
  rw [findSubkey_eq] at hf
  have hm := (compares_subkeys r key name).missing (h.names_sorted hk) h.names_short hname hf
  rw [List.map_map] at hm
  exact hm

end Tree

end Wine.Registry
