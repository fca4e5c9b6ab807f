import Wine.Lib.Storing

/-!
# The properties of a storage

A property takes 128 bytes of the chain of the root property. The reader and the writer each name the
offsets of the fields. The writer starts from zeros, and so what is not a field becomes zero; and the reader
gives the root property the name of the file.
-/

namespace Wine.Ole32
open Wine.Lib

/-! ## Fields -/

def offsetPsName : ℕ := 0x00
def offsetPsNameLength : ℕ := 0x40
def offsetPsPropertyType : ℕ := 0x42
def offsetPsPreviousProp : ℕ := 0x44
def offsetPsNextProp : ℕ := 0x48
def offsetPsDirProp : ℕ := 0x4c
def offsetPsGuid : ℕ := 0x50
def offsetPsTss1 : ℕ := 0x64
def offsetPsTsd1 : ℕ := 0x68
def offsetPsTss2 : ℕ := 0x6c
def offsetPsTsd2 : ℕ := 0x70
def offsetPsStartBlock : ℕ := 0x74
def offsetPsSize : ℕ := 0x78

def propertyNameBufferLen : ℕ := 0x40

def propsetBlockSize : ℕ := 0x80

/-- An array of bytes. -/
abbrev Bytes (n : ℕ) := { bytes : List (BitVec 8) // bytes.length = n }

structure Guid where
  data1 : BitVec 32
  data2 : BitVec 16
  data3 : BitVec 16
  data4 : Bytes 8

/-- The name is the memory of its 32 characters, and the size is a `ULARGE_INTEGER`. -/
structure StgProperty where
  name : Bytes propertyNameBufferLen
  sizeOfNameString : BitVec 16
  propertyType : BitVec 8
  previousProperty : BitVec 32
  nextProperty : BitVec 32
  dirProperty : BitVec 32
  propertyUniqueID : Guid
  timeStampS1 : BitVec 32
  timeStampD1 : BitVec 32
  timeStampS2 : BitVec 32
  timeStampD2 : BitVec 32
  startingBlock : BitVec 32
  sizeLow : BitVec 32
  sizeHigh : BitVec 32

/-- What reading and writing properties uses of `StorageImpl`: the contents of the root chain, with their
size, and the memory of the file name. -/
structure PropertyStorage where
  rootBlockChain : Memory
  size : ℕ
  filename : Memory
  rootPropertySetIndex : BitVec 32

/-! ## Reading -/

def readBytes (buffer : Memory) (offset n : ℕ) : Bytes n :=
  ⟨Reading.bytesAt buffer offset n, Reading.length_bytesAt⟩

/-- `StorageUtl_ReadWord` -/
def readWord (buffer : Memory) (offset : ℕ) : BitVec 16 :=
  BitVec.ofNat 16 (Reading.load buffer offset 2)

/-- `StorageUtl_ReadDWord` -/
def readDWord (buffer : Memory) (offset : ℕ) : BitVec 32 :=
  BitVec.ofNat 32 (Reading.load buffer offset 4)

/-- `StorageUtl_ReadGUID` -/
def readGuid (buffer : Memory) (offset : ℕ) : Guid where
  data1 := readDWord buffer offset
  data2 := readWord buffer (offset + 4)
  data3 := readWord buffer (offset + 6)
  data4 := readBytes buffer (offset + 8) 8

/-- The fields of a buffer with a property, with the name from `propName`. -/
def parseProperty (propName currentProperty : Memory) : StgProperty where
  name := readBytes propName offsetPsName propertyNameBufferLen
  propertyType := currentProperty offsetPsPropertyType
  sizeOfNameString := readWord currentProperty offsetPsNameLength
  previousProperty := readDWord currentProperty offsetPsPreviousProp
  nextProperty := readDWord currentProperty offsetPsNextProp
  dirProperty := readDWord currentProperty offsetPsDirProp
  propertyUniqueID := readGuid currentProperty offsetPsGuid
  timeStampS1 := readDWord currentProperty offsetPsTss1
  timeStampD1 := readDWord currentProperty offsetPsTsd1
  timeStampS2 := readDWord currentProperty offsetPsTss2
  timeStampD2 := readDWord currentProperty offsetPsTsd2
  startingBlock := readDWord currentProperty offsetPsStartBlock
  sizeLow := readDWord currentProperty offsetPsSize
  sizeHigh := 0

/-- Where the property is; the offset is a `ULONG`. -/
def offsetInPropSet (index : BitVec 32) : ℕ := (index * BitVec.ofNat 32 propsetBlockSize).toNat

/-- `StorageImpl_ReadProperty` -/
def PropertyStorage.readProperty (st : PropertyStorage) (index : BitVec 32) : Option StgProperty :=
  if st.size < offsetInPropSet index + propsetBlockSize then none
  else
    let currentProperty : Memory := fun i => st.rootBlockChain (offsetInPropSet index + i)
    -- the root property gets the name of the file
    let propName := if index = st.rootPropertySetIndex then st.filename else currentProperty
    some (parseProperty propName currentProperty)

/-! ## Writing -/

/-- `StorageUtl_WriteWord` and what it writes where. -/
def wordAt (offset : ℕ) (value : BitVec 16) : ℕ × List (BitVec 8) :=
  (offset, littleEndian 2 value.toNat)

def dwordAt (offset : ℕ) (value : BitVec 32) : ℕ × List (BitVec 8) :=
  (offset, littleEndian 4 value.toNat)

/-- What the writer stores, in its order. -/
def StgProperty.stores (p : StgProperty) : List (ℕ × List (BitVec 8)) :=
  [(offsetPsName, p.name.1), (offsetPsPropertyType, [p.propertyType]),
    wordAt offsetPsNameLength p.sizeOfNameString,
    dwordAt offsetPsPreviousProp p.previousProperty,
    dwordAt offsetPsNextProp p.nextProperty,
    dwordAt offsetPsDirProp p.dirProperty,
    dwordAt offsetPsGuid p.propertyUniqueID.data1,
    wordAt (offsetPsGuid + 4) p.propertyUniqueID.data2,
    wordAt (offsetPsGuid + 6) p.propertyUniqueID.data3,
    (offsetPsGuid + 8, p.propertyUniqueID.data4.1),
    dwordAt offsetPsTss1 p.timeStampS1,
    dwordAt offsetPsTsd1 p.timeStampD1,
    dwordAt offsetPsTss2 p.timeStampS2,
    dwordAt offsetPsTsd2 p.timeStampD2,
    dwordAt offsetPsStartBlock p.startingBlock,
    dwordAt offsetPsSize p.sizeLow]

def storeAll (m : Memory) : List (ℕ × List (BitVec 8)) → Memory
  | [] => m
  | (offset, bytes) :: stores => storeAll (store m offset bytes) stores

/-- The buffer that the writer fills. -/
def StgProperty.buffer (p : StgProperty) : Memory := storeAll (fun _ => 0) p.stores

/-- `StorageImpl_WriteProperty` -/
def PropertyStorage.writeProperty (st : PropertyStorage) (index : BitVec 32) (p : StgProperty) :
    Option PropertyStorage :=
  if st.size < offsetInPropSet index + propsetBlockSize then none
  else
    let currentProperty := Reading.bytesAt p.buffer 0 propsetBlockSize
    some { st with rootBlockChain := store st.rootBlockChain (offsetInPropSet index) currentProperty }

/-! ## What changes -/

/-- The bytes of a property that are no field. -/
def Unnamed (i : ℕ) : Prop := i = 0x43 ∨ (0x60 ≤ i ∧ i < 0x64) ∨ 0x7c ≤ i

instance (i : ℕ) : Decidable (Unnamed i) := inferInstanceAs (Decidable (_ ∨ _ ∨ _))

inductive PropertyField
  | name | sizeOfNameString | propertyType | previousProperty | nextProperty | dirProperty
  | propertyUniqueID | timeStampS1 | timeStampD1 | timeStampS2 | timeStampD2 | startingBlock | size
  deriving DecidableEq

/-- The offset and the width of a field. -/
def PropertyField.range : PropertyField → ℕ × ℕ
  | name => (offsetPsName, propertyNameBufferLen)
  | sizeOfNameString => (offsetPsNameLength, 2)
  | propertyType => (offsetPsPropertyType, 1)
  | previousProperty => (offsetPsPreviousProp, 4)
  | nextProperty => (offsetPsNextProp, 4)
  | dirProperty => (offsetPsDirProp, 4)
  | propertyUniqueID => (offsetPsGuid, 16)
  | timeStampS1 => (offsetPsTss1, 4)
  | timeStampD1 => (offsetPsTsd1, 4)
  | timeStampS2 => (offsetPsTss2, 4)
  | timeStampD2 => (offsetPsTsd2, 4)
  | startingBlock => (offsetPsStartBlock, 4)
  | size => (offsetPsSize, 4)

/-- The byte belongs to the field. -/
def PropertyField.Covers (f : PropertyField) (i : ℕ) : Prop :=
  f.range.1 ≤ i ∧ i < f.range.1 + f.range.2

/-- The properties differ in the field only. -/
structure AgreeBut (f : PropertyField) (p q : StgProperty) : Prop where
  name : f ≠ .name → p.name = q.name
  sizeOfNameString : f ≠ .sizeOfNameString → p.sizeOfNameString = q.sizeOfNameString
  propertyType : f ≠ .propertyType → p.propertyType = q.propertyType
  previousProperty : f ≠ .previousProperty → p.previousProperty = q.previousProperty
  nextProperty : f ≠ .nextProperty → p.nextProperty = q.nextProperty
  dirProperty : f ≠ .dirProperty → p.dirProperty = q.dirProperty
  propertyUniqueID : f ≠ .propertyUniqueID → p.propertyUniqueID = q.propertyUniqueID
  timeStampS1 : f ≠ .timeStampS1 → p.timeStampS1 = q.timeStampS1
  timeStampD1 : f ≠ .timeStampD1 → p.timeStampD1 = q.timeStampD1
  timeStampS2 : f ≠ .timeStampS2 → p.timeStampS2 = q.timeStampS2
  timeStampD2 : f ≠ .timeStampD2 → p.timeStampD2 = q.timeStampD2
  startingBlock : f ≠ .startingBlock → p.startingBlock = q.startingBlock
  sizeLow : f ≠ .size → p.sizeLow = q.sizeLow
  sizeHigh : f ≠ .size → p.sizeHigh = q.sizeHigh

/-- What is left of the property when it is read and written back. -/
def rewritten (st : PropertyStorage) (index : BitVec 32) (i : ℕ) : BitVec 8 :=
  if Unnamed i then 0
  else if index = st.rootPropertySetIndex ∧ i < propertyNameBufferLen then st.filename i
  else st.rootBlockChain (offsetInPropSet index + i)

variable {m m' e e' : Memory} {i : ℕ} {p q : StgProperty} {f : PropertyField} {st : PropertyStorage}

/-! ## Storing blocks -/

theorem storeAll_congr {xs ys : List (ℕ × List (BitVec 8))} (h : m i = m' i)
    (hall : List.Forall₂ (fun x y => x.1 = y.1 ∧ x.2.length = y.2.length ∧
      (x.2 = y.2 ∨ i < x.1 ∨ x.1 + x.2.length ≤ i)) xs ys) : storeAll m xs i = storeAll m' ys i := by
  induction hall generalizing m m' with
  | nil => exact h
  | @cons x y xs ys hxy _ ih =>
    obtain ⟨a, bytes⟩ := x
    obtain ⟨b, bytes'⟩ := y
    obtain ⟨rfl, hlen, hbytes⟩ := hxy
    dsimp only at hlen hbytes
    refine ih ?_
    rcases hbytes with rfl | hout
    · unfold store
      split
      · rfl
      · exact h
    · rw [Reading.store_of_not_mem hout, Reading.store_of_not_mem (by omega), h]

/-- Storing blocks of a memory copies them. -/
theorem storeAll_bytesAt (layout : List (ℕ × ℕ)) :
    storeAll m (layout.map fun f => (f.1, Reading.bytesAt e f.1 f.2)) i =
      if ∃ f ∈ layout, f.1 ≤ i ∧ i < f.1 + f.2 then e i else m i := by
  induction layout generalizing m with
  | nil =>
    rw [if_neg (by simp)]
    rfl
  | cons f layout ih =>
    rw [List.map_cons, storeAll, ih]
    by_cases hrest : ∃ f ∈ layout, f.1 ≤ i ∧ i < f.1 + f.2
    · rw [if_pos hrest, if_pos]
      obtain ⟨g, hg, hi⟩ := hrest
      exact ⟨g, List.mem_cons_of_mem _ hg, hi⟩
    · rw [if_neg hrest]
      by_cases hf : f.1 ≤ i ∧ i < f.1 + f.2
      · rw [if_pos ⟨f, List.mem_cons_self, hf⟩]
        obtain ⟨k, rfl⟩ := Nat.exists_eq_add_of_le hf.1
        have hk : k < f.2 := by omega
        rw [Reading.store_of_mem (by rw [Reading.length_bytesAt]; exact hk), Reading.getD_bytesAt hk]
      · rw [Reading.store_of_not_mem (by rw [Reading.length_bytesAt]; omega), if_neg]
        rintro ⟨g, hg, hi⟩
        rcases List.mem_cons.mp hg with rfl | hg
        · exact hf hi
        · exact hrest ⟨g, hg, hi⟩

/-! ## Reading and writing -/

theorem wordAt_readWord (offset : ℕ) :
    wordAt offset (readWord e offset) = (offset, Reading.bytesAt e offset 2) := by
  have hlt := Reading.load_lt (m := e) (a := offset) (n := 2)
  rw [wordAt, readWord, BitVec.toNat_ofNat, Nat.mod_eq_of_lt (by simpa using hlt),
    Reading.littleEndian_load]

theorem dwordAt_readDWord (offset : ℕ) :
    dwordAt offset (readDWord e offset) = (offset, Reading.bytesAt e offset 4) := by
  have hlt := Reading.load_lt (m := e) (a := offset) (n := 4)
  rw [dwordAt, readDWord, BitVec.toNat_ofNat, Nat.mod_eq_of_lt (by simpa using hlt),
    Reading.littleEndian_load]

/-- The blocks that reader and writer name. -/
def layout : List (ℕ × ℕ) :=
  [(0, 64), (0x42, 1), (0x40, 2), (0x44, 4), (0x48, 4), (0x4c, 4), (0x50, 4), (0x54, 2), (0x56, 2), (0x58, 8),
    (0x64, 4), (0x68, 4), (0x6c, 4), (0x70, 4), (0x74, 4), (0x78, 4)]

theorem stores_parseProperty (e : Memory) :
    (parseProperty e e).stores = layout.map fun f => (f.1, Reading.bytesAt e f.1 f.2) := by
  unfold StgProperty.stores parseProperty readGuid
  dsimp only
  simp only [wordAt_readWord, dwordAt_readDWord]
  rfl

theorem parseProperty_congr (hname : ∀ i < 64, m i = m' i) (he : ∀ i, 64 ≤ i → e i = e' i) :
    parseProperty m e = parseProperty m' e' := by
  have hw (offset : ℕ) (h : 64 ≤ offset) : readWord e offset = readWord e' offset := by
    rw [readWord, readWord, Reading.load_congr fun i hi _ => he i (by omega)]
  have hd (offset : ℕ) (h : 64 ≤ offset) : readDWord e offset = readDWord e' offset := by
    rw [readDWord, readDWord, Reading.load_congr fun i hi _ => he i (by omega)]
  have hb (offset n : ℕ) (h : 64 ≤ offset) : readBytes e offset n = readBytes e' offset n :=
    Subtype.ext (Reading.bytesAt_congr fun i hi _ => he i (by omega))
  have hn : readBytes m offsetPsName propertyNameBufferLen =
      readBytes m' offsetPsName propertyNameBufferLen :=
    Subtype.ext (Reading.bytesAt_congr fun i _ hi => hname i hi)
  have hguid : readGuid e offsetPsGuid = readGuid e' offsetPsGuid := by
    rw [readGuid, hd _ (by decide), hw _ (by decide), hw _ (by decide), hb _ _ (by decide), readGuid]
  rw [parseProperty, hn, he _ (by decide), hw _ (by decide), hd offsetPsPreviousProp (by decide),
    hd offsetPsNextProp (by decide), hd offsetPsDirProp (by decide), hguid, hd offsetPsTss1 (by decide),
    hd offsetPsTsd1 (by decide), hd offsetPsTss2 (by decide), hd offsetPsTsd2 (by decide),
    hd offsetPsStartBlock (by decide), hd offsetPsSize (by decide), parseProperty]

theorem mem_layout_iff (hi : i < 128) : (∃ f ∈ layout, f.1 ≤ i ∧ i < f.1 + f.2) ↔ ¬Unnamed i := by
  unfold layout Unnamed
  simp only [List.mem_cons, List.not_mem_nil, or_false, exists_eq_or_imp, exists_eq_left]
  omega

/-- The buffer for what has been read. -/
theorem buffer_parseProperty (hi : i < 128) : (parseProperty m e).buffer i =
    if Unnamed i then 0 else if i < 64 then m i else e i := by
  have hsame : parseProperty m e = parseProperty (fun i => if i < 64 then m i else e i)
      (fun i => if i < 64 then m i else e i) :=
    parseProperty_congr (fun i hi => (if_pos hi).symm) (fun i hi => (if_neg (Nat.not_lt.mpr hi)).symm)
  rw [hsame, StgProperty.buffer, stores_parseProperty, storeAll_bytesAt]
  by_cases h : Unnamed i
  · rw [if_pos h, if_neg (fun hmem => (mem_layout_iff hi).mp hmem h)]
  · rw [if_neg h, if_pos ((mem_layout_iff hi).mpr h)]

/-! ## Changing a field -/

theorem field_agree (g : PropertyField) {a : ℕ} {bytes bytes' : List (BitVec 8)} (hi : ¬f.Covers i)
    (hlen : bytes.length = bytes'.length)
    (hcovers : g.range.1 ≤ a ∧ a + bytes.length ≤ g.range.1 + g.range.2)
    (heq : f ≠ g → bytes = bytes') :
    (a, bytes).1 = (a, bytes').1 ∧ (a, bytes).2.length = (a, bytes').2.length ∧
      ((a, bytes).2 = (a, bytes').2 ∨ i < (a, bytes).1 ∨ (a, bytes).1 + (a, bytes).2.length ≤ i) := by
  refine ⟨rfl, hlen, ?_⟩
  by_cases hfg : f = g
  · subst hfg
    unfold PropertyField.Covers at hi
    right
    dsimp only
    omega
  · exact .inl (heq hfg)

theorem buffer_agree (h : AgreeBut f p q) (hi : ¬f.Covers i) : p.buffer i = q.buffer i := by
  have hword (g : PropertyField) (a : ℕ) (v w : BitVec 16)
      (hcovers : g.range.1 ≤ a ∧ a + 2 ≤ g.range.1 + g.range.2) (heq : f ≠ g → v = w) :=
    field_agree g hi (Reading.length_littleEndian.trans Reading.length_littleEndian.symm)
      (by rw [Reading.length_littleEndian]; exact hcovers)
      (fun hne => congrArg (fun v : BitVec 16 => littleEndian 2 v.toNat) (heq hne))
  have hdword (g : PropertyField) (a : ℕ) (v w : BitVec 32)
      (hcovers : g.range.1 ≤ a ∧ a + 4 ≤ g.range.1 + g.range.2) (heq : f ≠ g → v = w) :=
    field_agree g hi (Reading.length_littleEndian.trans Reading.length_littleEndian.symm)
      (by rw [Reading.length_littleEndian]; exact hcovers)
      (fun hne => congrArg (fun v : BitVec 32 => littleEndian 4 v.toNat) (heq hne))
  have hguid (hne : f ≠ .propertyUniqueID) := h.propertyUniqueID hne
  refine storeAll_congr rfl ?_
  refine .cons (field_agree .name hi (p.name.2.trans q.name.2.symm) (by rw [p.name.2]; decide)
    fun hne => congrArg Subtype.val (h.name hne)) ?_
  refine .cons (field_agree .propertyType hi rfl ⟨Nat.le_refl _, Nat.le_refl _⟩
    fun hne => congrArg (fun b => [b]) (h.propertyType hne)) ?_
  refine .cons (hword .sizeOfNameString _ _ _ (by decide) h.sizeOfNameString) ?_
  refine .cons (hdword .previousProperty _ _ _ (by decide) h.previousProperty) ?_
  refine .cons (hdword .nextProperty _ _ _ (by decide) h.nextProperty) ?_
  refine .cons (hdword .dirProperty _ _ _ (by decide) h.dirProperty) ?_
  refine .cons (hdword .propertyUniqueID _ _ _ (by decide) fun hne => by rw [hguid hne]) ?_
  refine .cons (hword .propertyUniqueID _ _ _ (by decide) fun hne => by rw [hguid hne]) ?_
  refine .cons (hword .propertyUniqueID _ _ _ (by decide) fun hne => by rw [hguid hne]) ?_
  refine .cons (field_agree .propertyUniqueID hi
    (p.propertyUniqueID.data4.2.trans q.propertyUniqueID.data4.2.symm)
    (by rw [p.propertyUniqueID.data4.2]; decide) fun hne => by rw [hguid hne]) ?_
  refine .cons (hdword .timeStampS1 _ _ _ (by decide) h.timeStampS1) ?_
  refine .cons (hdword .timeStampD1 _ _ _ (by decide) h.timeStampD1) ?_
  refine .cons (hdword .timeStampS2 _ _ _ (by decide) h.timeStampS2) ?_
  refine .cons (hdword .timeStampD2 _ _ _ (by decide) h.timeStampD2) ?_
  refine .cons (hdword .startingBlock _ _ _ (by decide) h.startingBlock) ?_
  exact .cons (hdword .size _ _ _ (by decide) h.sizeLow) .nil

/-! ## Rewriting -/

theorem chain_write (p : StgProperty) (o i : ℕ) :
    store m o (Reading.bytesAt p.buffer 0 propsetBlockSize) i =
      if o ≤ i ∧ i < o + 128 then p.buffer (i - o) else m i := by
  by_cases h : o ≤ i ∧ i < o + 128
  · obtain ⟨k, rfl⟩ := Nat.exists_eq_add_of_le h.1
    have hk : k < propsetBlockSize := by
      unfold propsetBlockSize
      omega
    rw [if_pos h, Reading.store_of_mem (by rw [Reading.length_bytesAt]; exact hk),
      Reading.getD_bytesAt hk, Nat.zero_add, Nat.add_sub_cancel_left]
  · rw [if_neg h, Reading.store_of_not_mem]
    rw [Reading.length_bytesAt]
    unfold propsetBlockSize
    omega

/-- A property that is read and written back keeps its bytes, but for those that no field has and for the
name of the root property; and a change of one field changes no other byte of the chain. -/
theorem property_rewritten (st : PropertyStorage) (index : BitVec 32) (p : StgProperty)
    (hread : st.readProperty index = some p) :
    ∃ st', st.writeProperty index p = some st' ∧
      (∀ i < 128, st'.rootBlockChain (offsetInPropSet index + i) = rewritten st index i) ∧
      (∀ i, (i < offsetInPropSet index ∨ offsetInPropSet index + 128 ≤ i) →
        st'.rootBlockChain i = st.rootBlockChain i) ∧
      ∀ f q, AgreeBut f p q → ∃ st'', st.writeProperty index q = some st'' ∧
        ∀ i, (∀ k, f.Covers k → i ≠ offsetInPropSet index + k) →
          st''.rootBlockChain i = st'.rootBlockChain i := by
  unfold PropertyStorage.readProperty at hread
  unfold PropertyStorage.writeProperty
  split at hread
  · exact nomatch hread
  · next hsize =>
    rw [if_neg hsize]
    have hp := (Option.some.inj hread).symm
    refine ⟨_, rfl, fun i hi => ?_, fun i hi => ?_, fun f q hagree => ?_⟩
    · dsimp only
      rw [chain_write, if_pos ⟨Nat.le_add_right _ _, Nat.add_lt_add_left hi _⟩, Nat.add_sub_cancel_left,
        hp, buffer_parseProperty hi, rewritten]
      by_cases hroot : index = st.rootPropertySetIndex
      · simp only [hroot, true_and, propertyNameBufferLen, if_true]
      · simp only [hroot, false_and, if_false, ite_self]
    · dsimp only
      rw [chain_write, if_neg (by omega)]
    · refine ⟨_, if_neg hsize, fun i hi => ?_⟩
      dsimp only
      rw [chain_write, chain_write]
      split
      · next hin =>
        refine (buffer_agree hagree fun hcovers => ?_).symm
        exact hi _ hcovers (by omega)
      · rfl

/-- A property with the colour of a black node. -/
def blackNode : PropertyStorage :=
  ⟨fun i => if i = 0x43 then 1 else 0, 128, fun _ => 0, 1⟩

theorem property_rewritten_black : ∃ p st', blackNode.readProperty 0 = some p ∧
    blackNode.writeProperty 0 p = some st' ∧
    ∀ i < 128, st'.rootBlockChain (offsetInPropSet 0 + i) = rewritten blackNode 0 i := by
  obtain ⟨st', hwrite, hbytes, -⟩ := property_rewritten blackNode 0 _ rfl
  exact ⟨_, st', rfl, hwrite, hbytes⟩

/-- The colour is lost. -/
theorem rewriting_loses_colour : ∃ p st', blackNode.readProperty 0 = some p ∧
    blackNode.writeProperty 0 p = some st' ∧
    st'.rootBlockChain 0x43 ≠ blackNode.rootBlockChain 0x43 := by
  refine ⟨_, _, rfl, rfl, ?_⟩
  dsimp only
  rw [chain_write, if_pos (by decide), buffer_parseProperty (by decide), if_pos (by decide)]
  decide

end Wine.Ole32
