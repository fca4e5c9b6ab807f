import Wine.Registry.Marks
import Mathlib.Data.List.InsertIdx

/-!
# Specifications of the operations on values
-/

namespace Wine.Registry
open Wine.Lib

variable {cm : CaseMap} {h q : Prop} {r : Tree} {k : ℕ} {key : Key} {name : List WChar}

/-! ## Lookup -/

theorem compares_values (key : Key) (name : List WChar) :
    Compares cm (key.values.map KeyValue.name) name fun i => nameOrder cm (valueName key i) name := by
  intro i hi
  rw [List.length_map] at hi
  simp only [List.getElem_map, valueName, List.getElem?_eq_getElem hi, Option.elim_some]

theorem findValue_eq (key : Key) (name : List WChar) : findValue cm key name =
    binarySearch (fun i => nameOrder cm (valueName key i) name)
      (key.values.map KeyValue.name).length := by
  rw [List.length_map]
  rfl

namespace Key.Sound

theorem names_sorted (hs : key.Sound cm) :
    ((key.values.map KeyValue.name).map (fold cm)).Pairwise (· < ·) := by
  rw [List.map_map]
  exact hs.valuesSorted

theorem names_short (hs : key.Sound cm) :
    ∀ a ∈ key.values.map KeyValue.name, a.length ≤ maxNameLen := by
  intro a ha
  obtain ⟨v, hv, rfl⟩ := List.mem_map.mp ha
  exact hs.valuesShort v hv

theorem findValue_iff (hs : key.Sound cm) (hname : name.length < maxPathLen) :
    (∃ i, findValue cm key name = .found i) ↔
      ∃ v ∈ key.values, fold cm v.name = fold cm name := by
  rw [findValue_eq, (compares_values key name).found_iff hs.names_sorted hs.names_short hname]
  simp only [List.mem_map, exists_exists_and_eq_and]

theorem findValue_found (hs : key.Sound cm) (hname : name.length < maxPathLen) {i : ℕ}
    (hf : findValue cm key name = .found i) :
    ∃ hi : i < key.values.length, fold cm key.values[i].name = fold cm name := by
  rw [findValue_eq] at hf
  obtain ⟨hi, he⟩ := (compares_values key name).found hs.names_short hname hf
  simp only [List.getElem_map] at he
  rw [List.length_map] at hi
  exact ⟨hi, he⟩

theorem findValue_missing (hs : key.Sound cm) (hname : name.length ≤ maxNameLen) {i : ℕ}
    (hf : findValue cm key name = .missing i) : i ≤ key.values.length ∧
      (∀ b ∈ (key.values.map fun v => fold cm v.name).take i, b < fold cm name) ∧
        ∀ b ∈ (key.values.map fun v => fold cm v.name).drop i, fold cm name < b := by
  rw [findValue_eq] at hf
  have hm := (compares_values key name).missing hs.names_sorted hs.names_short hname hf
  rw [List.map_map] at hm
  have hle := missing_le hf
  rw [List.length_map] at hle
  exact ⟨hle, hm⟩

theorem grownValues (hs : key.Sound cm) {n : ℕ} (hn : key.values.length ≤ n)
    (hm : minValues ≤ n) : Key.Sound cm { key with nbValues := n } where
  short := hs.short
  subkeysFit := hs.subkeysFit
  subkeysRoom := hs.subkeysRoom
  valuesFit := hn
  valuesRoom := .inr hm
  valuesSorted := hs.valuesSorted
  valuesShort := hs.valuesShort
  detached := hs.detached

theorem inserted (hs : key.Sound cm) {v : KeyValue} {i : ℕ} (hfit : key.values.length < key.nbValues)
    (hname : v.name.length ≤ maxNameLen) (hi : i ≤ key.values.length)
    (hlow : ∀ b ∈ (key.values.map fun v => fold cm v.name).take i, b < fold cm v.name)
    (hhigh : ∀ b ∈ (key.values.map fun v => fold cm v.name).drop i, fold cm v.name < b) :
    Key.Sound cm { key with values := key.values.insertIdx i v } where
  short := hs.short
  subkeysFit := hs.subkeysFit
  subkeysRoom := hs.subkeysRoom
  valuesFit := by
    rw [List.length_insertIdx_of_le_length hi]
    exact hfit
  valuesRoom := hs.valuesRoom
  valuesSorted := by
    rw [List.map_insertIdx]
    exact pairwise_insertIdx hs.valuesSorted (by simpa using hi) hlow hhigh
  valuesShort w hw := by
    rcases (List.mem_insertIdx hi).mp hw with rfl | hw
    · exact hname
    · exact hs.valuesShort w hw
  detached := hs.detached

/-- New data for a value that keeps its name. -/
theorem stored (hs : key.Sound cm) (i : ℕ) {f : KeyValue → KeyValue} (hf : ∀ v, (f v).name = v.name) :
    Key.Sound cm { key with values := key.values.modify i f } := by
  have hnames : (key.values.modify i f).map KeyValue.name = key.values.map KeyValue.name := by
    apply List.ext_getElem?
    intro j
    simp only [List.getElem?_map, List.getElem?_modify]
    cases key.values[j]? with
    | none => rfl
    | some v =>
      by_cases hij : i = j
      · simp only [hij, if_true, Option.map_some, Option.map_eq_map, hf]
      · simp only [hij, if_false, Option.map_some, Option.map_eq_map]
  refine ⟨hs.short, hs.subkeysFit, hs.subkeysRoom, ?_, hs.valuesRoom, ?_, ?_, hs.detached⟩
  · simpa only [List.length_modify] using hs.valuesFit
  · have h := hs.names_sorted
    rw [← hnames, List.map_map] at h
    exact h
  · intro v hv
    have hmem : v.name ∈ key.values.map KeyValue.name := by
      rw [← hnames]
      exact List.mem_map_of_mem hv
    exact hs.names_short _ hmem

theorem erased (hs : key.Sound cm) (i : ℕ) :
    Key.Sound cm { key with values := key.values.eraseIdx i } where
  short := hs.short
  subkeysFit := hs.subkeysFit
  subkeysRoom := hs.subkeysRoom
  valuesFit := Nat.le_trans (List.length_eraseIdx_le _ _) hs.valuesFit
  valuesRoom := hs.valuesRoom
  valuesSorted := hs.valuesSorted.sublist ((List.eraseIdx_sublist _ _).map _)
  valuesShort v hv := hs.valuesShort v ((List.eraseIdx_sublist _ _).mem hv)
  detached := hs.detached

end Key.Sound

/-! ## Insertion -/

theorem wp_growValues {s : State} (hk : Keeps cm h q r s.toTree) (hkey : s.keys k = some key)
    (hfull : key.values.length = key.nbValues) :
    wp (growValues k) (fun b s' => Keeps cm h q r s'.toTree ∧
      s.toTree.Kept (fun _ => False) False s'.toTree ∧ s'.grants = s.grants ∧ (s.Granted → b = true) ∧
        (b = true → ∃ key', s'.keys k = some key' ∧ key'.values = key.values ∧
          key'.flags = key.flags ∧ key'.values.length < key'.nbValues)) NotEndless s := by
  have hs := hk.wf.sound k key hkey
  unfold growValues
  simp only [wp_bind]
  refine wp_getKey_some hkey (wp_memAlloc fun b s₁ h₁ => ?_)
  cases b with
  | false =>
    simp only [Bool.false_eq_true, if_false, wp_pure, h₁.tree, false_implies, and_true]
    exact ⟨hk, .refl _ _ _, h₁.grants, fun hg => (by cases h₁.granted hg)⟩
  | true =>
    simp only [if_true, wp_bind, wp_modifyKey, wp_pure, h₁.tree]
    have hroom := hs.valuesRoom
    have hm : minValues = 8 := rfl
    have hn : key.values.length <
        (if key.nbValues ≠ 0 then key.nbValues + key.nbValues / 2 else minValues) ∧ minValues ≤
        (if key.nbValues ≠ 0 then key.nbValues + key.nbValues / 2 else minValues) := by
      by_cases h0 : key.nbValues = 0
      · simp only [h0, ne_eq, not_true_eq_false, if_false]
        omega
      · simp only [ne_eq, h0, not_false_eq_true, if_true]
        omega
    refine ⟨hk.andUpdate hkey rfl rfl (hs.grownValues (Nat.le_of_lt hn.1) hn.2) (.inr rfl),
      .updateKey hkey rfl rfl rfl (.inr rfl), h₁.grants, fun _ => trivial,
      fun _ => ⟨_, Tree.updateKey_self hkey, rfl, rfl, hn.1⟩⟩

/-- The result of `insert_value`: the new value stands at its place, without data. -/
structure Inserted (cm : CaseMap) (h q : Prop) (r : Tree) (k : ℕ) (key : Key)
    (name : List WChar) (index : ℕ) (b : Bool) (s' : State) : Prop where
  failed : b = false → Keeps cm h q r s'.toTree
  done : KeepsBut cm (· = k) h q r s'.toTree
  value : b = true → ∃ key' v, s'.keys k = some key' ∧ key'.flags = key.flags ∧ v.name = name ∧
    key'.values = key.values.insertIdx index v

theorem wp_placeValue {s : State} {index : ℕ} (hk : Keeps cm h q r s.toTree)
    (hkey : s.keys k = some key) (hfit : key.values.length < key.nbValues)
    (hname : name.length ≤ maxNameLen) (hf : findValue cm key name = .missing index) :
    wp (placeValue k name index) (fun b s' => Inserted cm h q r k key name index b s' ∧
      s.toTree.Kept (· = k) False s'.toTree ∧ s'.grants = s.grants ∧ (s.Granted → b = true))
      NotEndless s := by
  have hs := hk.wf.sound k key hkey
  obtain ⟨hle, hlow, hhigh⟩ := hs.findValue_missing hname hf
  unfold placeValue
  simp only [wp_bind]
  refine wp_memdup fun b s₁ h₁ => ?_
  cases b with
  | false =>
    simp only [Bool.false_eq_true, if_false, wp_pure, h₁.tree]
    refine ⟨⟨fun _ => h₁.tree ▸ hk, h₁.tree ▸ hk.but _, fun hb => (by cases hb)⟩, .refl _ _ _, h₁.grants,
      fun hg => (by cases h₁.granted hg)⟩
  | true =>
    simp only [if_true, wp_bind]
    refine wp_getKey_some (h₁.tree ▸ hkey) ?_
    simp only [wp_get, wp_modifyKey, wp_pure, h₁.tree]
    refine ⟨⟨fun hb => (by cases hb), (hk.but _).andUpdate hkey rfl rfl
      (hs.inserted hfit hname hle hlow hhigh) (.inl rfl),
      fun _ => ⟨_, _, Tree.updateKey_self hkey, rfl, rfl, rfl⟩⟩,
      .updateKey hkey rfl rfl rfl (.inl rfl), h₁.grants, fun _ => trivial⟩

theorem findValue_congr {key' : Key} (hv : key'.values = key.values) :
    findValue cm key' name = findValue cm key name := by
  simp only [findValue, valueName, hv]

theorem wp_insertValue {s : State} {index : ℕ} (hk : Keeps cm h q r s.toTree)
    (hkey : s.keys k = some key) (hf : findValue cm key name = .missing index) :
    wp (insertValue k name index) (fun b s' => Inserted cm h q r k key name index b s' ∧
      s.toTree.Kept (· = k) False s'.toTree ∧ s'.grants = s.grants ∧
        (s.Granted → name.length ≤ maxNameLen → b = true)) NotEndless s := by
  unfold insertValue
  by_cases hlong : maxNameLen * 2 < byteLen name
  · simp only [hlong, if_true, wp_bind, wp_setError, wp_pure]
    refine ⟨⟨fun _ => hk, hk.but _, fun hb => (by cases hb)⟩, .refl _ _ _, trivial, fun _ hn => ?_⟩
    unfold byteLen at hlong
    omega
  · simp only [hlong, if_false, wp_bind]
    have hname : name.length ≤ maxNameLen := by
      unfold byteLen at hlong
      omega
    refine wp_getKey_some hkey ?_
    have hs := hk.wf.sound k key hkey
    by_cases hfull : key.lastValue + 1 = key.nbValues
    · simp only [hfull, if_true, wp_bind]
      have hlen : key.values.length = key.nbValues := by
        unfold Key.lastValue at hfull
        omega
      refine wp_mono (wp_growValues hk hkey hlen) ?_
      rintro b s₁ ⟨hk₁, hkept, hg, hb, hgrown⟩
      cases b with
      | false =>
        simp only [Bool.false_eq_true, if_false, wp_pure]
        exact ⟨⟨fun _ => hk₁, hk₁.but _, fun hb => (by cases hb)⟩, hkept.weaken (fun _ hf => hf.elim) id, hg,
          fun hgr _ => (by cases hb hgr)⟩
      | true =>
        obtain ⟨key₁, hkey₁, hval, hfl, hfit⟩ := hgrown rfl
        simp only [if_true]
        refine wp_mono (wp_placeValue hk₁ hkey₁ hfit hname ((findValue_congr hval).trans hf)) ?_
        rintro b s₂ ⟨hins, hkept', hg', hb'⟩
        have hins' : Inserted cm h q r k key name index b s₂ :=
          ⟨hins.failed, hins.done, fun hb => by
            obtain ⟨key₂, v, hkey₂, hfl₂, hv, hval₂⟩ := hins.value hb
            exact ⟨key₂, v, hkey₂, hfl₂.trans hfl, hv, hval ▸ hval₂⟩⟩
        exact ⟨hins', (hkept.weaken (fun _ hf => hf.elim) id).trans hkept', hg'.trans hg,
          fun hgr _ => hb' fun n => by rw [hg, hgr n]⟩
    · simp only [hfull, if_false]
      have hfit : key.values.length < key.nbValues := by
        have := hs.valuesFit
        unfold Key.lastValue at hfull
        omega
      refine wp_mono (wp_placeValue hk hkey hfit hname hf) ?_
      rintro b s₂ ⟨hins, hkept', hg', hb'⟩
      exact ⟨hins, hkept', hg', fun hgr _ => hb' hgr⟩

theorem wp_storeValue {s : State} {index : ℕ} {type : BitVec 32} {data : List Byte}
    (hk : KeepsBut cm (· = k) h q r s.toTree) (hkey : s.keys k = some key) :
    wp (storeValue k index type data) (fun _ s' => KeepsBut cm (· = k) h q r s'.toTree ∧
      s.toTree.Kept (· = k) False s'.toTree ∧ s'.grants = s.grants ∧
        ∃ key', s'.keys k = some key' ∧ key'.values = key.values.modify index fun v =>
          { v with type := type.setWidth 16, data := data }) NotEndless s := by
  have hs := hk.wf.sound k key hkey
  simp only [storeValue, wp_modifyKey]
  exact ⟨hk.andUpdate hkey rfl rfl (hs.stored index fun _ => rfl) (.inl rfl),
    .updateKey hkey rfl rfl rfl (.inl rfl), trivial, _, Tree.updateKey_self hkey, rfl⟩

/-! ## The requests -/

theorem wp_storeTouch {s : State} {index : ℕ} {type : BitVec 32} {data : List Byte}
    (hk : KeepsBut cm (· = k) h q r s.toTree) (hkey : s.keys k = some key) :
    wp (do storeValue k index type data; touchKey k) (fun _ s' => Keeps cm h q r s'.toTree)
      NotEndless s := by
  simp only [wp_bind]
  refine wp_mono (wp_storeValue hk hkey) ?_
  rintro _ s' ⟨hk', -, -, -⟩
  exact wp_mono (wp_touchKey hk') fun _ _ h => h.1

theorem wp_setValue {s : State} {type : BitVec 32} {data : List Byte}
    (hk : Keeps cm h q r s.toTree) :
    wp (setValue cm k name type data) (fun _ s' => Keeps cm h q r s'.toTree) NotEndless s := by
  unfold setValue
  simp only [wp_bind]
  refine wp_getKey fun key hkey => ?_
  cases hf : findValue cm key name with
  | found i =>
    simp only [wp_ite, wp_pure]
    refine ⟨fun _ => hk, fun _ => ?_⟩
    simp only [wp_bind]
    refine wp_memdup fun b s₁ h₁ => ?_
    simp only [wp_ite, wp_pure]
    exact ⟨fun _ => wp_storeTouch (h₁.tree ▸ hk.but _) (h₁.tree ▸ hkey), fun _ => h₁.tree ▸ hk⟩
  | missing i =>
    simp only [wp_bind]
    refine wp_memdup fun b s₁ h₁ => ?_
    simp only [wp_ite, wp_pure, wp_bind]
    refine ⟨fun _ => ?_, fun _ => h₁.tree ▸ hk⟩
    refine wp_mono (wp_insertValue (h₁.tree ▸ hk) (h₁.tree ▸ hkey) hf) ?_
    rintro b s₂ ⟨hins, -, -, -⟩
    refine ⟨fun hb => ?_, fun hb => hins.failed (by simpa using hb)⟩
    obtain ⟨key₂, _, hkey₂, -, -, -⟩ := hins.value hb
    simpa only [wp_bind] using @wp_storeTouch cm h q r k key₂ s₂ i type data hins.done hkey₂

theorem wp_shrinkValues {s : State} (hk : Keeps cm h q r s.toTree) :
    wp (shrinkValues k) (fun _ s' => Keeps cm h q r s'.toTree) NotEndless s := by
  unfold shrinkValues
  simp only [wp_bind]
  refine wp_getKey fun key hkey => ?_
  have hs := hk.wf.sound k key hkey
  simp only [wp_ite, wp_pure, wp_bind]
  refine ⟨fun hc => wp_allocate fun b s₁ h₁ => ?_, fun _ => hk⟩
  simp only [wp_modifyKey, h₁.tree]
  refine ⟨fun _ => hk.andUpdate hkey rfl rfl (hs.grownValues ?_ (Nat.le_max_right _ _)) (.inr rfl),
    fun _ => hk⟩
  have hlen := hs.valuesFit
  have h8 := hc.1
  have hlast := hc.2
  unfold Key.lastValue at hlast
  omega

theorem wp_deleteValue {s : State} (hk : Keeps cm h q r s.toTree) :
    wp (deleteValue cm k name) (fun _ s' => Keeps cm h q r s'.toTree) NotEndless s := by
  unfold deleteValue
  simp only [wp_bind]
  refine wp_getKey fun key hkey => ?_
  cases findValue cm key name with
  | missing i => simpa only [wp_setError] using hk
  | found i =>
    simp only [wp_bind, wp_modifyKey]
    have hs := hk.wf.sound k key hkey
    have hu := (hk.but (· = k)).andUpdate
      (f := fun key : Key => { key with values := key.values.eraseIdx i }) hkey rfl rfl
      (hs.erased i) (.inl rfl)
    refine wp_mono (wp_touchKey (s := { s with toTree := _ }) hu) ?_
    rintro _ s' ⟨hk', -⟩
    exact wp_shrinkValues hk'

end Wine.Registry
