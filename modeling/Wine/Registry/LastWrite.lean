import Wine.Registry.ValueSpecs
import Wine.Registry.Requests

/-!
# The last write to a value

`set_value` keeps only the lower half of a type, since the field of a value has 16 bits. Types that
fit are given back by `get_value`, and no other value changes.
-/

namespace Wine.Registry
open Wine.Lib

variable {cm : CaseMap} {s s' : State} {k i : ℕ} {key key' : Key} {name : List WChar}
  {type : BitVec 32} {data : List Byte} {v : KeyValue} {b : Bool}

/-- `get_value`: the type, the length and as much of the data as the reply has room for. -/
def getValue (cm : CaseMap) (k : ℕ) (name : List WChar) (maxSize : ℕ) :
    M (BitVec 32 × ℕ × List Byte) := do
  let key ← getKey k
  match findValue cm key name with
  | .found i =>
    match key.values[i]? with
    | some v => pure (v.type.setWidth 32, v.data.length, v.data.take maxSize)
    | none => throw .badPointer
  | .missing _ =>
    setError .objectNameNotFound
    pure (-1, 0, [])

/-- `set_value` finds the value that it is to store and leaves it alone. -/
def SkipsSetting (cm : CaseMap) (key : Key) (name : List WChar) (type : BitVec 32)
    (data : List Byte) : Prop :=
  ∃ i, findValue cm key name = .found i ∧
    (key.values[i]?).any fun v => v.type.setWidth 32 = type ∧ v.data ≠ [] ∧ v.data = data

/-- A write that reads of the value give back, and that no other value shows. -/
structure LastWrite (cm : CaseMap) (s s' : State) (k : ℕ) (name : List WChar) (type : BitVec 32)
    (data : List Byte) : Prop where
  get : ∀ maxSize, data.length ≤ maxSize →
    getValue cm k name maxSize s' = .ok ((type, data.length, data), s')
  others : ∀ key key', s.keys k = some key → s'.keys k = some key' →
    ∀ v, fold cm v.name ≠ fold cm name → (v ∈ key'.values ↔ v ∈ key.values)
  skip : ∀ key, s.keys k = some key → SkipsSetting cm key name type data →
    ∃ v ∈ key.values, fold cm v.name = fold cm name ∧ v.type.setWidth 32 = type ∧
      v.data.length = data.length ∧ v.data = data

/-! ## What is written -/

/-- The values of the key after a write that went well. -/
inductive Written (cm : CaseMap) (key : Key) (name : List WChar) (type : BitVec 32)
    (data : List Byte) : List KeyValue → Prop
  | skipped : SkipsSetting cm key name type data → Written cm key name type data key.values
  | changed {i : ℕ} : findValue cm key name = .found i → Written cm key name type data
      (key.values.modify i fun v => { v with type := type.setWidth 16, data := data })
  | inserted {i : ℕ} {v : KeyValue} : findValue cm key name = .missing i →
      name.length ≤ maxNameLen → v.name = name → Written cm key name type data
        ((key.values.insertIdx i v).modify i fun v => { v with type := type.setWidth 16, data := data })

theorem wp_memAlloc_error {Q : Bool → State → Prop} {E : Fault → Prop}
    (h : ∀ b s', s'.toTree = s.toTree → (b = false → s'.error ≠ none) → Q b s') :
    wp memAlloc Q E s := by
  unfold memAlloc allocate
  simp only [wp_bind, wp_get, wp_set, wp_pure]
  cases s.grants s.allocs with
  | true => exact h true _ rfl (fun hb => by cases hb)
  | false => exact h false _ rfl fun _ => Option.some_ne_none _

theorem wp_memdup_error {Q : Bool → State → Prop} {E : Fault → Prop} {α : Type} {l : List α}
    (h : ∀ b s', s'.toTree = s.toTree → (b = false → s'.error ≠ none) → Q b s') :
    wp (memdup l) Q E s := by
  cases l with
  | nil => exact h true s rfl (fun hb => by cases hb)
  | cons a l => exact wp_memAlloc_error h

/-- A key and its values. -/
def Holds (s : State) (k : ℕ) (values : List KeyValue) : Prop :=
  ∃ key, s.keys k = some key ∧ key.values = values

theorem Holds.update {values : List KeyValue} {f : Key → Key} (h : Holds s k values) (j : ℕ)
    (hf : ∀ key, (f key).values = key.values) :
    Holds { s with toTree := s.toTree.updateKey j f } k values := by
  obtain ⟨key, hkey, hval⟩ := h
  by_cases hkj : k = j
  · subst hkj
    exact ⟨f key, Tree.updateKey_self hkey, (hf key).trans hval⟩
  · exact ⟨key, (Tree.updateKey_other hkj).trans hkey, hval⟩

/-- A fault of any kind. -/
def AnyFault (_ : Fault) : Prop := True

theorem wp_getKey_any {Q : Key → State → Prop} (h : ∀ key, s.keys k = some key → Q key s) :
    wp (getKey k) Q AnyFault s :=
  wp_mono_error (wp_getKey h) fun _ _ => trivial

theorem wp_dirtyUp_holds {values : List KeyValue} {fuel j : ℕ} (h : Holds s k values) :
    wp (dirtyUp fuel j) (fun _ s' => Holds s' k values) AnyFault s := by
  induction fuel generalizing j s with
  | zero => trivial
  | succ fuel ih =>
    unfold dirtyUp
    simp only [wp_bind]
    refine wp_getKey_any fun key hkey => ?_
    rw [wp_ite]
    refine ⟨fun _ => h, fun _ => ?_⟩
    simp only [wp_bind, wp_modifyKey]
    have hup := h.update j (f := fun key =>
      { key with flags := { key.flags with dirty := true } }) fun _ => rfl
    cases key.parent with
    | none => exact hup
    | some p => exact ih hup

/-- Storing a value and marking the key change the one value. -/
theorem wp_storeTouch_holds {values : List KeyValue} (h : Holds s k values) :
    wp (do storeValue k i type data; touchKey k)
      (fun _ s' => Holds s' k (values.modify i fun v =>
        { v with type := type.setWidth 16, data := data })) AnyFault s := by
  obtain ⟨key, hkey, rfl⟩ := h
  unfold storeValue touchKey makeDirty
  simp only [wp_bind, wp_modifyKey, wp_get]
  have hstored : Holds { s with toTree := s.toTree.updateKey k fun key =>
      { key with values := key.values.modify i fun v =>
        { v with type := type.setWidth 16, data := data } } } k (key.values.modify i fun v =>
          { v with type := type.setWidth 16, data := data }) :=
    ⟨_, Tree.updateKey_self hkey, rfl⟩
  exact wp_dirtyUp_holds (hstored.update k fun _ => rfl)

/-! ## Insertion -/

theorem wp_placeValue_holds {values : List KeyValue} (h : Holds s k values) :
    wp (placeValue k name i) (fun b s' => if b then ∃ v, v.name = name ∧
      Holds s' k (values.insertIdx i v) else s'.error ≠ none) AnyFault s := by
  obtain ⟨key, hkey, rfl⟩ := h
  unfold placeValue
  simp only [wp_bind]
  refine wp_memdup_error fun b s₁ htree herr => ?_
  cases b with
  | false => exact herr rfl
  | true =>
    simp only [if_true, wp_bind]
    refine wp_getKey_any fun key₁ hkey₁ => ?_
    rw [htree] at hkey₁
    obtain rfl := Option.some.inj (hkey.symm.trans hkey₁)
    simp only [wp_get, wp_modifyKey, wp_pure, if_true]
    refine ⟨_, rfl, _, Tree.updateKey_self (htree ▸ hkey), rfl⟩

theorem wp_growValues_holds {values : List KeyValue} (h : Holds s k values) :
    wp (growValues k) (fun b s' => if b then Holds s' k values else s'.error ≠ none) AnyFault s := by
  unfold growValues
  simp only [wp_bind]
  refine wp_getKey_any fun key hkey => ?_
  refine wp_memAlloc_error fun b s₁ htree herr => ?_
  cases b with
  | false => exact herr rfl
  | true =>
    simp only [if_true, wp_bind, wp_modifyKey, wp_pure]
    have h₁ : Holds s₁ k values := by
      obtain ⟨key, hkey, hval⟩ := h
      exact ⟨key, htree ▸ hkey, hval⟩
    exact h₁.update k fun _ => rfl

theorem wp_insertValue_holds {values : List KeyValue} (h : Holds s k values) :
    wp (insertValue k name i) (fun b s' => if b then name.length ≤ maxNameLen ∧
      ∃ v, v.name = name ∧ Holds s' k (values.insertIdx i v) else s'.error ≠ none) AnyFault s := by
  unfold insertValue
  rw [wp_ite]
  refine ⟨fun _ => Option.some_ne_none _, fun hshort => ?_⟩
  have hname : name.length ≤ maxNameLen := by
    unfold byteLen at hshort
    omega
  have hplace : ∀ s₁, Holds s₁ k values → wp (placeValue k name i) (fun b s' =>
      if b then name.length ≤ maxNameLen ∧ ∃ v, v.name = name ∧ Holds s' k (values.insertIdx i v)
      else s'.error ≠ none) AnyFault s₁ := by
    intro s₁ h₁
    refine wp_mono (wp_placeValue_holds h₁) fun b s' hb => ?_
    cases b with
    | false => exact hb
    | true => exact ⟨hname, hb⟩
  simp only [wp_bind]
  refine wp_getKey_any fun key hkey => ?_
  rw [wp_ite]
  refine ⟨fun _ => ?_, fun _ => hplace s h⟩
  simp only [wp_bind]
  refine wp_mono (wp_growValues_holds h) fun b s₁ hb => ?_
  cases b with
  | false => exact hb
  | true => exact hplace s₁ hb

theorem wp_setValue_written (hkey : s.keys k = some key) :
    wp (setValue cm k name type data) (fun _ s' => s'.error = none →
      ∃ values, Holds s' k values ∧ Written cm key name type data values) AnyFault s := by
  unfold setValue
  simp only [wp_bind]
  refine wp_getKey_any fun key₁ hkey₁ => ?_
  obtain rfl := Option.some.inj (hkey.symm.trans hkey₁)
  cases hf : findValue cm key name with
  | found i =>
    rw [wp_ite]
    refine ⟨fun hskip _ => ⟨_, ⟨key, hkey, rfl⟩, .skipped ⟨i, hf, hskip⟩⟩, fun _ => ?_⟩
    simp only [wp_bind]
    refine wp_memdup_error fun b s₁ htree herr => ?_
    cases b with
    | false => exact fun hnone => absurd hnone (herr rfl)
    | true =>
      have h₁ : Holds s₁ k key.values := ⟨key, htree ▸ hkey, rfl⟩
      exact wp_mono (wp_storeTouch_holds h₁) fun _ s' h' _ => ⟨_, h', .changed hf⟩
  | missing i =>
    simp only [wp_bind]
    refine wp_memdup_error fun b s₁ htree herr => ?_
    cases b with
    | false => exact fun hnone => absurd hnone (herr rfl)
    | true =>
      have h₁ : Holds s₁ k key.values := ⟨key, htree ▸ hkey, rfl⟩
      simp only [if_true, wp_bind]
      refine wp_mono (wp_insertValue_holds h₁) fun b s₂ hb => ?_
      cases b with
      | false => exact fun hnone => absurd hnone hb
      | true =>
        obtain ⟨hname, v, hv, h₂⟩ := hb
        exact wp_mono (wp_storeTouch_holds h₂) fun _ s' h' _ => ⟨_, h', .inserted hf hname hv⟩

/-! ## What is read -/

theorem findValue_of_getElem? (hs : key.Sound cm) (hname : name.length < maxPathLen)
    (hv : key.values[i]? = some v) (hfold : fold cm v.name = fold cm name) :
    findValue cm key name = .found i := by
  obtain ⟨j, hj⟩ := (hs.findValue_iff hname).mpr ⟨v, List.mem_of_getElem? hv, hfold⟩
  obtain ⟨hlt, hfound⟩ := hs.findValue_found hname hj
  obtain ⟨hi, rfl⟩ := List.getElem?_eq_some_iff.mp hv
  have hsorted := List.pairwise_iff_getElem.mp hs.valuesSorted
  simp only [List.length_map, List.getElem_map] at hsorted
  have heq := hfound.trans hfold.symm
  obtain hji | rfl | hij := Nat.lt_trichotomy j i
  · exact absurd (hsorted j i hlt hi hji) (heq ▸ lt_irrefl _)
  · exact hj
  · exact absurd (hsorted i j hi hlt hij) (heq ▸ lt_irrefl _)

/-- The value that was written stands among the values. -/
theorem Written.stored {values : List KeyValue} (hs : key.Sound cm) (hname : name.length < maxPathLen)
    (h : Written cm key name type data values) : ∃ (i : ℕ) (v : KeyValue), values[i]? = some v ∧
      fold cm v.name = fold cm name ∧ v.type = type.setWidth 16 ∧ v.data = data := by
  cases h with
  | skipped h =>
    obtain ⟨i, hf, hv⟩ := h
    obtain ⟨hi, hfold⟩ := hs.findValue_found hname hf
    rw [List.getElem?_eq_getElem hi, Option.any_some, decide_eq_true_eq] at hv
    refine ⟨i, _, List.getElem?_eq_getElem hi, hfold, ?_, hv.2.2⟩
    rw [← hv.1, BitVec.setWidth_setWidth_of_le _ (by decide), BitVec.setWidth_eq]
  | @changed i hf =>
    obtain ⟨hi, hfold⟩ := hs.findValue_found hname hf
    refine ⟨i, { key.values[i] with type := type.setWidth 16, data := data }, ?_, hfold, rfl, rfl⟩
    rw [List.getElem?_modify_eq, List.getElem?_eq_getElem hi]
    rfl
  | @inserted i v hf hshort hv =>
    obtain ⟨hle, -⟩ := hs.findValue_missing hshort hf
    refine ⟨i, { v with type := type.setWidth 16, data := data }, ?_, congrArg (fold cm) hv, rfl, rfl⟩
    rw [List.getElem?_modify_eq, List.getElem?_insertIdx_self, if_pos hle]
    rfl

/-- The values stay in order, so that they are found. -/
theorem Written.sound {values : List KeyValue} (hs : key.Sound cm)
    (h : Written cm key name type data values) : ∃ key' : Key, key'.Sound cm ∧ key'.values = values := by
  cases h with
  | skipped h => exact ⟨key, hs, rfl⟩
  | @changed i hf =>
    exact ⟨_, hs.stored (f := fun v => { v with type := type.setWidth 16, data := data }) i
      fun _ => rfl, rfl⟩
  | @inserted i v hf hshort hv =>
    obtain ⟨hle, hlow, hhigh⟩ := hs.findValue_missing hshort hf
    have hroom := hs.grownValues (n := key.values.length + minValues) (Nat.le_add_right _ _)
      (Nat.le_add_left _ _)
    have hfit : key.values.length < key.values.length + minValues :=
      Nat.lt_add_of_pos_right (by decide)
    have hins := hroom.inserted (v := v) hfit (hv ▸ hshort) hle (hv ▸ hlow) (hv ▸ hhigh)
    exact ⟨_, hins.stored (f := fun v => { v with type := type.setWidth 16, data := data }) i
      fun _ => rfl, rfl⟩

theorem mem_modify {l : List KeyValue} {f : KeyValue → KeyValue}
    (hne : ∀ w, l[i]? = some w → w ≠ v ∧ f w ≠ v) : v ∈ l.modify i f ↔ v ∈ l := by
  simp only [List.mem_iff_getElem?]
  refine exists_congr fun j => ?_
  by_cases hij : i = j
  · subst hij
    rw [List.getElem?_modify_eq]
    cases hw : l[i]? with
    | none => exact Iff.rfl
    | some w =>
      obtain ⟨hold, hnew⟩ := hne w hw
      exact iff_of_false (fun h => hnew (Option.some.inj h)) fun h => hold (Option.some.inj h)
  · rw [List.getElem?_modify_ne f l hij]

/-- Values with other names are the same as before. -/
theorem Written.others {values : List KeyValue} (hs : key.Sound cm) (hname : name.length < maxPathLen)
    (h : Written cm key name type data values) (hv : fold cm v.name ≠ fold cm name) :
    v ∈ values ↔ v ∈ key.values := by
  cases h with
  | skipped h => exact Iff.rfl
  | @changed i hf =>
    obtain ⟨hi, hfold⟩ := hs.findValue_found hname hf
    refine mem_modify fun w hw => ?_
    rw [List.getElem?_eq_getElem hi] at hw
    obtain rfl := Option.some.inj hw
    exact ⟨fun heq => hv (heq ▸ hfold), fun heq => hv (heq ▸ hfold)⟩
  | @inserted i w hf hshort hw =>
    obtain ⟨hle, -⟩ := hs.findValue_missing hshort hf
    have hwv : w ≠ v := fun heq => hv (by rw [← heq, hw])
    rw [mem_modify fun u hu => ?_, List.mem_insertIdx hle]
    · exact or_iff_right fun heq => hwv heq.symm
    · rw [List.getElem?_insertIdx_self, if_pos hle] at hu
      obtain rfl := Option.some.inj hu
      exact ⟨hwv, fun heq => hv (by rw [← heq, hw])⟩

theorem Written.getValue {values : List KeyValue} {maxSize : ℕ} (hs : key.Sound cm)
    (hname : name.length < maxPathLen) (h : Written cm key name type data values)
    (hh : Holds s k values) (hmax : data.length ≤ maxSize) : getValue cm k name maxSize s =
      .ok (((type.setWidth 16).setWidth 32, data.length, data), s) := by
  obtain ⟨key', hkey', rfl⟩ := hh
  obtain ⟨i, v, hv, hfold, htype, hdata⟩ := h.stored hs hname
  obtain ⟨key'', hs'', hval⟩ := h.sound hs
  have hfound := findValue_of_getElem? hs'' hname (hval ▸ hv) hfold
  rw [findValue_congr hval] at hfound
  apply eq_of_wp
  unfold Wine.Registry.getValue getKey
  simp only [wp_bind, wp_get, hkey', wp_pure, hfound, hv, htype, hdata, List.take_of_length_le hmax,
    and_self]

/-- A write that succeeded is given back, whatever stood there before, exactly if its type fits into
16 bits. -/
theorem lastWrite_iff (cm : CaseMap) (s s' : State) (k : ℕ) (key : Key) (name : List WChar)
    (type : BitVec 32) (data : List Byte) (hkey : s.keys k = some key) (hs : key.Sound cm)
    (hname : name.length < maxPathLen)
    (hset : setValue cm k name type data s = .ok (⟨⟩, s')) (herr : s'.error = none) :
    LastWrite cm s s' k name type data ↔ type.toNat < 65536 := by
  obtain ⟨values, hh, hw⟩ := wp_of_ok (@wp_setValue_written cm s k key name type data hkey) hset herr
  have hget := hw.getValue hs hname hh (Nat.le_refl _)
  have htype : (type.setWidth 16).setWidth 32 = type ↔ type.toNat < 65536 := by
    rw [← BitVec.toNat_inj, BitVec.toNat_setWidth, BitVec.toNat_setWidth]
    have hlt := type.isLt
    omega
  constructor
  · intro h
    have heq := (h.get _ (Nat.le_refl _)).symm.trans hget
    exact htype.mp (congrArg (fun r => r.1.1) (Except.ok.inj heq)).symm
  · intro hlt
    refine ⟨fun maxSize hmax => ?_, fun key₁ key' hkey₁ hkey' v hv => ?_, fun key₁ hkey₁ hskip => ?_⟩
    · rw [hw.getValue hs hname hh hmax, htype.mpr hlt]
    · obtain ⟨key₂, hkey₂, rfl⟩ := hh
      obtain rfl := Option.some.inj (hkey₁.symm.trans hkey)
      obtain rfl := Option.some.inj (hkey'.symm.trans hkey₂)
      exact hw.others hs hname hv
    · obtain rfl := Option.some.inj (hkey₁.symm.trans hkey)
      obtain ⟨i, hf, hv⟩ := hskip
      obtain ⟨hi, hfold⟩ := hs.findValue_found hname hf
      rw [List.getElem?_eq_getElem hi, Option.any_some, decide_eq_true_eq] at hv
      exact ⟨_, List.getElem_mem hi, hfold, hv.1, congrArg List.length hv.2.2, hv.2.2⟩

/-- The root of a new registry, as the server starts with it. -/
def blankState : State := State.blank (fun _ => true) (fun _ => 0) 1

theorem sound_blank : (Key.new [] 1).Sound cm where
  short := Nat.zero_le _
  subkeysFit := Nat.zero_le _
  subkeysRoom := .inl rfl
  valuesFit := Nat.zero_le _
  valuesRoom := .inl rfl
  valuesSorted := .nil
  valuesShort _ hv := absurd hv List.not_mem_nil
  detached h := absurd h Bool.false_ne_true

/-- The call on the root of a new registry. -/
def setRootValue (type : BitVec 32) : Except Fault (PUnit × State) :=
  setValue asciiCaseMap rootKey [0x76] type [1, 2] blankState

theorem lastWrite_small : ∃ s', setRootValue 3 = .ok (⟨⟩, s') ∧
    LastWrite asciiCaseMap blankState s' rootKey [0x76] 3 [1, 2] := by
  have hrun : ((setRootValue 3).toOption.map fun r => r.2.error) = some none := by decide +kernel
  cases hset : setRootValue 3 with
  | error e =>
    rw [hset] at hrun
    cases hrun
  | ok r =>
    rw [hset] at hrun
    have hname : [(0x76 : WChar)].length < maxPathLen := by
      rw [maxPathLen_eq]
      decide
    exact ⟨r.2, rfl, (lastWrite_iff asciiCaseMap blankState r.2 rootKey (.new [] 1) [0x76] 3 [1, 2]
      rfl sound_blank hname hset (Option.some.inj hrun)).mpr (by decide)⟩

/-- The type 0x10001 is given back as 1. -/
theorem not_lastWrite_large : ∃ s', setRootValue 0x10001 = .ok (⟨⟩, s') ∧ s'.error = none ∧
    ¬ LastWrite asciiCaseMap blankState s' rootKey [0x76] 0x10001 [1, 2] := by
  have hrun : ((setRootValue 0x10001).toOption.map fun r => r.2.error) = some none ∧
      ((setRootValue 0x10001).toOption.bind fun r =>
        (getValue asciiCaseMap rootKey [0x76] 2 r.2).toOption.map fun g => g.1.1) = some 1 := by
    decide +kernel
  cases hset : setRootValue 0x10001 with
  | error e =>
    rw [hset] at hrun
    cases hrun.1
  | ok r =>
    rw [hset] at hrun
    obtain ⟨herr, hget⟩ := hrun
    refine ⟨r.2, rfl, Option.some.inj herr, fun h => ?_⟩
    have hread : (Except.toOption (getValue asciiCaseMap rootKey [0x76] 2 r.2)).map
      (fun g => g.1.1) = some 1 := hget
    rw [h.get 2 (Nat.le_refl _)] at hread
    cases hread

end Wine.Registry
