import Wine.Lib.Masks

/-!
# Bitmap ranges

Setting, clearing and testing a range of bits. The range is cut into a piece of the first byte, whole
bytes and a piece of the last byte; a range of at most seven bits that starts inside a byte is a word
of masks for this byte and the next one.
-/

namespace Wine.Bitmaps
open Wine.Lib Bytes

/-- One more than the greatest `ULONG`. -/
def ulongLimit : ℕ := 0x100000000

/-- An `RTL_BITMAP`. The buffer goes on behind the bits of the bitmap. -/
structure Bitmap where
  sizeOfBitMap : ℕ
  buffer : Bytes
  size_lt : sizeOfBitMap < ulongLimit

def Bitmap.bit (b : Bitmap) (i : ℕ) : Bool := b.buffer.bit i

/-- `NTDLL_maskBits` -/
def maskBits (n : ℕ) : BitVec 8 := [0, 1, 3, 7, 15, 31, 63, 127].getD n 0

/-- `0xff << shift`, as far as it is in a byte. -/
def highMask (shift : ℕ) : BitVec 8 := 0xff#8 <<< shift

/-- `NTDLL_maskBits[ulCount] << shift` -/
def initialWord (ulCount shift : ℕ) : BitVec 16 := (maskBits ulCount).setWidth 16 <<< shift

def lowByte (w : BitVec 16) : BitVec 8 := w.setWidth 8

def highByte (w : BitVec 16) : BitVec 8 := (w >>> 8).setWidth 8

/-- The test that all four functions start with. -/
def outside (b : Bitmap) (ulStart ulCount : ℕ) : Prop :=
  ulCount = 0 ∨ b.sizeOfBitMap ≤ ulStart ∨ b.sizeOfBitMap - ulStart < ulCount

instance (b : Bitmap) (ulStart ulCount : ℕ) : Decidable (outside b ulStart ulCount) := by
  unfold outside
  infer_instance

/-- The bytes and the rest behind a first piece. -/
def setBytes (m : Bytes) (lpOut ulCount : ℕ) : Bytes :=
  (m.fill lpOut (ulCount / 8) 0xff).orAt (lpOut + ulCount / 8) (maskBits (ulCount % 8))

def rtlSetBits (b : Bitmap) (ulStart ulCount : ℕ) : Bitmap :=
  if outside b ulStart ulCount then b
  else
    let lpOut := ulStart / 8
    let shift := ulStart % 8
    if shift = 0 then { b with buffer := setBytes b.buffer lpOut ulCount }
    else if 7 < ulCount then
      { b with
        buffer := setBytes (b.buffer.orAt lpOut (highMask shift)) (lpOut + 1)
          (ulCount - (8 - shift)) }
    else
      -- the next byte is written also when none of its bits is in the range
      let word := initialWord ulCount shift
      { b with
        buffer := (b.buffer.orAt lpOut (lowByte word)).orAt (lpOut + 1) (highByte word) }

def clearBytes (m : Bytes) (lpOut ulCount : ℕ) : Bytes :=
  let cleared := m.fill lpOut (ulCount / 8) 0
  if ulCount % 8 = 0 then cleared
  else cleared.andAt (lpOut + ulCount / 8) (~~~(maskBits (ulCount % 8)))

def rtlClearBits (b : Bitmap) (ulStart ulCount : ℕ) : Bitmap :=
  if outside b ulStart ulCount then b
  else
    let lpOut := ulStart / 8
    let shift := ulStart % 8
    if shift = 0 then { b with buffer := clearBytes b.buffer lpOut ulCount }
    else if 7 < ulCount then
      { b with
        buffer := clearBytes (b.buffer.andAt lpOut (~~~(highMask shift))) (lpOut + 1)
          (ulCount - (8 - shift)) }
    else
      let word := ~~~(initialWord ulCount shift)
      { b with buffer := (b.buffer.andAt lpOut (lowByte word)).andAt (lpOut + 1) (highByte word) }

/-- The loop over whole bytes: it stops at the first one that fails. -/
def allBytes (test : BitVec 8 → Bool) (m : Bytes) (lpOut : ℕ) : ℕ → Bool
  | 0 => true
  | n + 1 => test (m lpOut) && allBytes test m (lpOut + 1) n

def areBytesSet (m : Bytes) (lpOut ulCount : ℕ) : Bool :=
  let ulRemainder := ulCount % 8
  allBytes (· == 0xff) m lpOut (ulCount / 8) &&
    (ulRemainder == 0 ||
      m (lpOut + ulCount / 8) &&& maskBits ulRemainder == maskBits ulRemainder)

def rtlAreBitsSet (b : Bitmap) (ulStart ulCount : ℕ) : Bool :=
  if outside b ulStart ulCount then false
  else
    let lpOut := ulStart / 8
    let shift := ulStart % 8
    if shift = 0 then areBytesSet b.buffer lpOut ulCount
    else if 7 < ulCount then
      b.buffer lpOut &&& highMask shift == highMask shift &&
        areBytesSet b.buffer (lpOut + 1) (ulCount - (8 - shift))
    else
      let word := initialWord ulCount shift
      b.buffer lpOut &&& lowByte word == lowByte word &&
        -- the next byte is read only when the range goes on in it
        (highByte word == 0 || b.buffer (lpOut + 1) &&& highByte word == highByte word)

def areBytesClear (m : Bytes) (lpOut ulCount : ℕ) : Bool :=
  let ulRemainder := ulCount % 8
  allBytes (· == 0) m lpOut (ulCount / 8) &&
    (ulRemainder == 0 || m (lpOut + ulCount / 8) &&& maskBits ulRemainder == 0)

def rtlAreBitsClear (b : Bitmap) (ulStart ulCount : ℕ) : Bool :=
  if outside b ulStart ulCount then false
  else
    let lpOut := ulStart / 8
    let shift := ulStart % 8
    if shift = 0 then areBytesClear b.buffer lpOut ulCount
    else if 7 < ulCount then
      b.buffer lpOut &&& highMask shift == 0 &&
        areBytesClear b.buffer (lpOut + 1) (ulCount - (8 - shift))
    else
      let word := initialWord ulCount shift
      b.buffer lpOut &&& lowByte word == 0 &&
        (highByte word == 0 || b.buffer (lpOut + 1) &&& highByte word == 0)

variable {b : Bitmap} {m : Bytes} {s c n i j p : ℕ}

theorem getLsbD_maskBits (hn : n < 8) : (maskBits n).getLsbD j = decide (j < n) := by
  by_cases hj : j < 8
  · have hall : ∀ n < 8, ∀ j < 8, (maskBits n).getLsbD j = decide (j < n) := by decide
    exact hall n hn j hj
  · rw [BitVec.getLsbD_of_ge _ _ (by omega), decide_eq_false (by omega)]

theorem getLsbD_highMask : (highMask n).getLsbD j = decide (n ≤ j ∧ j < 8) := by
  have hall : ∀ k < 8, (0xff#8).getLsbD k = true := by decide
  rw [highMask, BitVec.getLsbD_shiftLeft]
  by_cases hj : j < 8
  · by_cases hn : n ≤ j
    · simp [hj, hn, hall (j - n) (by omega)]
    · simp [hn, Nat.lt_of_not_le hn]
  · simp [hj]

theorem getLsbD_initialWord (hc : c < 8) (hs : s < 8) :
    (initialWord c s).getLsbD j = decide (s ≤ j ∧ j < s + c) := by
  rw [initialWord, BitVec.getLsbD_shiftLeft, BitVec.getLsbD_setWidth, getLsbD_maskBits hc]
  rw [Bool.eq_iff_iff]
  simp only [Bool.and_eq_true, Bool.not_eq_true', decide_eq_true_eq, decide_eq_false_iff_not]
  omega

theorem getLsbD_lowByte {w : BitVec 16} : (lowByte w).getLsbD j = (decide (j < 8) && w.getLsbD j) := by
  rw [lowByte, BitVec.getLsbD_setWidth]

theorem getLsbD_highByte {w : BitVec 16} :
    (highByte w).getLsbD j = (decide (j < 8) && w.getLsbD (8 + j)) := by
  rw [highByte, BitVec.getLsbD_setWidth, BitVec.getLsbD_ushiftRight]

/-- A range that is not empty and inside the bitmap. -/
def Within (b : Bitmap) (ulStart ulCount : ℕ) : Prop :=
  0 < ulCount ∧ ulStart + ulCount ≤ b.sizeOfBitMap

theorem outside_iff : outside b s c ↔ ¬Within b s c := by
  unfold outside Within
  omega

theorem within_of_not_outside (h : ¬outside b s c) : Within b s c := by
  rw [outside_iff, not_not] at h
  exact h

theorem bit_setBytes : (setBytes m p c).bit i ↔ m.bit i ∨ 8 * p ≤ i ∧ i < 8 * p + c := by
  have hall : ∀ k < 8, BitVec.getLsbD 0xff#8 k = true := by decide
  have hfill : (m.fill p (c / 8) 0xff).bit i ↔ m.bit i ∨ 8 * p ≤ i ∧ i < 8 * (p + c / 8) := by
    rw [bit_fill]
    split
    · next h => exact iff_of_true (hall _ (Nat.mod_lt _ (by decide))) (Or.inr h)
    · next h => exact (or_iff_left h).symm
  rw [setBytes, bit_orAt, Bool.or_eq_true, hfill, getLsbD_maskBits (Nat.mod_lt _ (by decide)),
    Bool.and_eq_true, decide_eq_true_eq, decide_eq_true_eq, or_assoc]
  refine or_congr_right ?_
  omega

theorem bit_rtlSetBits :
    (rtlSetBits b s c).bit i ↔ b.bit i ∨ Within b s c ∧ s ≤ i ∧ i < s + c := by
  have hs : s % 8 < 8 := Nat.mod_lt _ (by decide)
  rw [rtlSetBits]
  by_cases hout : outside b s c
  · rw [if_pos hout, or_iff_left fun h => outside_iff.mp hout h.1]
  · rw [if_neg hout, and_iff_right (within_of_not_outside hout)]
    dsimp only
    split
    · rw [Bitmap.bit, bit_setBytes]
      refine or_congr_right ?_
      omega
    · split
      · rw [Bitmap.bit, bit_setBytes, bit_orAt, getLsbD_highMask, Bool.or_eq_true, Bool.and_eq_true,
          decide_eq_true_eq, decide_eq_true_eq, or_assoc]
        refine or_congr_right ?_
        omega
      · rw [Bitmap.bit, bit_orAt, bit_orAt, getLsbD_lowByte, getLsbD_highByte,
          getLsbD_initialWord (by omega) hs, getLsbD_initialWord (by omega) hs]
        simp only [Bool.or_eq_true, Bool.and_eq_true, decide_eq_true_eq, or_assoc]
        refine or_congr_right ?_
        omega

theorem bit_clearBytes : (clearBytes m p c).bit i ↔ m.bit i ∧ ¬(8 * p ≤ i ∧ i < 8 * p + c) := by
  have hi : i % 8 < 8 := Nat.mod_lt _ (by decide)
  have hfill : (m.fill p (c / 8) 0).bit i ↔ m.bit i ∧ ¬(8 * p ≤ i ∧ i < 8 * (p + c / 8)) := by
    rw [bit_fill]
    split
    · next h =>
      have hzero : BitVec.getLsbD 0#8 (i % 8) = false := BitVec.getLsbD_zero
      exact iff_of_false (Bool.eq_false_iff.mp hzero) fun h' => h'.2 h
    · next h => exact (and_iff_left h).symm
  rw [clearBytes]
  split
  · rw [hfill]
    refine and_congr_right fun _ => ?_
    omega
  · rw [bit_andAt, Bool.and_eq_true, hfill, BitVec.getLsbD_not,
      getLsbD_maskBits (Nat.mod_lt _ (by decide)), and_assoc]
    refine and_congr_right fun _ => ?_
    simp only [hi, decide_true, Bool.true_and, Bool.not_not, Bool.not_eq_true', Bool.and_eq_false_iff,
      decide_eq_false_iff_not]
    omega

theorem bit_rtlClearBits :
    (rtlClearBits b s c).bit i ↔ b.bit i ∧ ¬(Within b s c ∧ s ≤ i ∧ i < s + c) := by
  have hi : i % 8 < 8 := Nat.mod_lt _ (by decide)
  have hs : s % 8 < 8 := Nat.mod_lt _ (by decide)
  rw [rtlClearBits]
  by_cases hout : outside b s c
  · rw [if_pos hout, and_iff_left fun h => outside_iff.mp hout h.1]
  · rw [if_neg hout, and_iff_right (within_of_not_outside hout)]
    dsimp only
    split
    · rw [Bitmap.bit, bit_clearBytes]
      refine and_congr_right fun _ => ?_
      omega
    · split
      · rw [Bitmap.bit, bit_clearBytes, bit_andAt, BitVec.getLsbD_not, getLsbD_highMask,
          Bool.and_eq_true, and_assoc]
        refine and_congr_right fun _ => ?_
        simp only [hi, decide_true, Bool.true_and, Bool.not_not, Bool.not_eq_true',
          Bool.and_eq_false_iff, decide_eq_false_iff_not, and_true]
        omega
      · rw [Bitmap.bit, bit_andAt, bit_andAt, getLsbD_lowByte, getLsbD_highByte, BitVec.getLsbD_not,
          BitVec.getLsbD_not, getLsbD_initialWord (by omega) hs, getLsbD_initialWord (by omega) hs,
          Bool.and_eq_true, Bool.and_eq_true, and_assoc]
        refine and_congr_right fun _ => ?_
        have hlow : i % 8 < 16 := by omega
        have hhigh : 8 + i % 8 < 16 := by omega
        simp only [hi, hlow, hhigh, decide_true, Bool.true_and, Bool.not_not, Bool.not_eq_true',
          Bool.and_eq_false_iff, decide_eq_false_iff_not]
        omega

theorem allBytes_iff {test : BitVec 8 → Bool} :
    allBytes test m p n = true ↔ ∀ k, p ≤ k → k < p + n → test (m k) = true := by
  induction n generalizing p with
  | zero => exact iff_of_true rfl fun k hk hk' => absurd hk' (by omega)
  | succ n ih =>
    rw [allBytes, Bool.and_eq_true, ih]
    constructor
    · rintro ⟨hp, hrest⟩ k hk hk'
      rcases Nat.eq_or_lt_of_le hk with rfl | hk
      · exact hp
      · exact hrest k hk (by omega)
    · intro h
      exact ⟨h p (Nat.le_refl p) (by omega), fun k hk hk' => h k (by omega) (by omega)⟩

theorem areBytesSet_iff :
    areBytesSet m p c = true ↔ ∀ i, 8 * p ≤ i → i < 8 * p + c → m.bit i = true := by
  simp only [areBytesSet, Bool.and_eq_true, allBytes_iff, beq_iff_eq, Bool.or_eq_true, byte_full_iff,
    Bytes.and_eq_right_iff, getLsbD_maskBits (Nat.mod_lt c (by decide : 8 > 0)), decide_eq_true_eq]
  constructor
  · rintro ⟨hbytes, hrest⟩ i hi hi'
    by_cases hk : i / 8 < p + c / 8
    · exact hbytes (i / 8) (by omega) hk i (by omega) (by omega)
    · exact hrest.resolve_left (by omega) i (by omega) (by omega)
  · intro h
    exact ⟨fun k hk hk' i hi hi' => h i (by omega) (by omega),
      Or.inr fun i hi hi' => h i (by omega) (by omega)⟩

theorem rtlAreBitsSet_iff : rtlAreBitsSet b s c = true ↔
    Within b s c ∧ ∀ i, s ≤ i → i < s + c → b.bit i = true := by
  have hs : s % 8 < 8 := Nat.mod_lt _ (by decide)
  rw [rtlAreBitsSet]
  by_cases hout : outside b s c
  · rw [if_pos hout]
    exact iff_of_false (by decide) fun h => outside_iff.mp hout h.1
  · rw [if_neg hout, and_iff_right (within_of_not_outside hout)]
    dsimp only
    split
    · rw [areBytesSet_iff]
      have hstart : 8 * (s / 8) = s := by omega
      rw [hstart]
      rfl
    · split
      · rw [Bool.and_eq_true, beq_iff_eq, Bytes.and_eq_right_iff, areBytesSet_iff]
        simp only [getLsbD_highMask, decide_eq_true_eq]
        constructor
        · rintro ⟨hfirst, hrest⟩ i hi hi'
          by_cases hk : i / 8 = s / 8
          · exact hfirst i hk (by omega)
          · exact hrest i (by omega) (by omega)
        · intro h
          exact ⟨fun i hi hi' => h i (by omega) (by omega), fun i hi hi' => h i (by omega) (by omega)⟩
      · rw [Bool.and_eq_true, beq_iff_eq, Bytes.and_eq_right_iff, Bool.or_eq_true, beq_iff_eq,
          beq_iff_eq, Bytes.and_eq_right_iff]
        simp only [getLsbD_lowByte, getLsbD_highByte,
          getLsbD_initialWord (Nat.lt_succ_of_le (Nat.le_of_not_lt ‹_›)) hs, Bool.and_eq_true,
          decide_eq_true_eq]
        constructor
        · rintro ⟨hfirst, hnext⟩ i hi hi'
          by_cases hk : i / 8 = s / 8
          · exact hfirst i hk (by omega)
          · rcases hnext with hnext | hnext
            · have hbit : (highByte (initialWord c (s % 8))).getLsbD (i % 8) = true := by
                rw [getLsbD_highByte, getLsbD_initialWord (by omega) hs, Bool.and_eq_true,
                  decide_eq_true_eq, decide_eq_true_eq]
                omega
              rw [hnext, BitVec.ofNat_eq_ofNat, BitVec.getLsbD_zero] at hbit
              cases hbit
            · exact hnext i (by omega) (by omega)
        · intro h
          exact ⟨fun i hi hi' => h i (by omega) (by omega),
            Or.inr fun i hi hi' => h i (by omega) (by omega)⟩

/-- Every bit is inverted. -/
def Bitmap.not (b : Bitmap) : Bitmap := { b with buffer := b.buffer.not }

@[simp] theorem bit_not : b.not.bit i = !b.bit i := Bytes.bit_not

theorem not_and_eq_right_iff {x v : BitVec 8} : ~~~x &&& v = v ↔ x &&& v = 0 := by
  rw [Lib.and_eq_right_iff, Lib.and_eq_zero_iff]
  constructor
  · rintro h ⟨j, hx, hv⟩
    have hnot := h j hv
    rw [BitVec.getLsbD_not, hx, Bool.not_true, Bool.and_false] at hnot
    cases hnot
  · intro h j hv
    have hx : x.getLsbD j = false := Bool.eq_false_iff.mpr fun hx => h ⟨j, hx, hv⟩
    rw [BitVec.getLsbD_not, hx, decide_eq_true (BitVec.lt_of_getLsbD hv)]
    rfl

theorem not_eq_full_iff {x : BitVec 8} : ~~~x = 0xff ↔ x = 0 := by
  have hand : ∀ y : BitVec 8, y &&& 0xff = y := fun y => BitVec.and_allOnes
  have h := not_and_eq_right_iff (x := x) (v := 0xff)
  rwa [hand, hand] at h

theorem areBytesClear_eq : areBytesClear m p c = areBytesSet m.not p c := by
  have hloop : allBytes (· == 0) m p (c / 8) = allBytes (· == 0xff) m.not p (c / 8) := by
    rw [Bool.eq_iff_iff, allBytes_iff, allBytes_iff]
    refine forall_congr' fun k => imp_congr_right fun _ => imp_congr_right fun _ => ?_
    rw [beq_iff_eq, beq_iff_eq]
    exact not_eq_full_iff.symm
  have hmask : ∀ k v, (m k &&& v == 0) = (m.not k &&& v == v) := by
    intro k v
    rw [Bool.eq_iff_iff, beq_iff_eq, beq_iff_eq]
    exact not_and_eq_right_iff.symm
  rw [areBytesClear, areBytesSet, hloop, hmask]

theorem rtlAreBitsClear_eq : rtlAreBitsClear b s c = rtlAreBitsSet b.not s c := by
  have hmask : ∀ k v, (b.buffer k &&& v == 0) = (b.not.buffer k &&& v == v) := by
    intro k v
    rw [Bool.eq_iff_iff, beq_iff_eq, beq_iff_eq]
    exact not_and_eq_right_iff.symm
  simp only [rtlAreBitsClear, rtlAreBitsSet, areBytesClear_eq, hmask]
  rfl

theorem rtlAreBitsClear_iff : rtlAreBitsClear b s c = true ↔
    Within b s c ∧ ∀ i, s ≤ i → i < s + c → b.bit i = false := by
  rw [rtlAreBitsClear_eq, rtlAreBitsSet_iff]
  simp only [bit_not, Bool.not_eq_true']
  rfl

theorem rtlSetBits_size : (rtlSetBits b s c).sizeOfBitMap = b.sizeOfBitMap := by
  simp only [rtlSetBits]
  split_ifs <;> rfl

theorem rtlClearBits_size : (rtlClearBits b s c).sizeOfBitMap = b.sizeOfBitMap := by
  simp only [rtlClearBits]
  split_ifs <;> rfl

/-- Bitmaps of one size with the same bits in a range. -/
def AgreeOn (b b' : Bitmap) (ulStart ulCount : ℕ) : Prop :=
  b.sizeOfBitMap = b'.sizeOfBitMap ∧ ∀ i, ulStart ≤ i → i < ulStart + ulCount → b.bit i = b'.bit i

theorem AgreeOn.not {b' : Bitmap} (h : AgreeOn b b' s c) : AgreeOn b.not b'.not s c :=
  ⟨h.1, fun i hi hi' => by rw [bit_not, bit_not, h.2 i hi hi']⟩

theorem AgreeOn.rtlAreBitsSet_eq {b' : Bitmap} (h : AgreeOn b b' s c) :
    rtlAreBitsSet b s c = rtlAreBitsSet b' s c := by
  rw [Bool.eq_iff_iff, rtlAreBitsSet_iff, rtlAreBitsSet_iff, Within, Within, h.1]
  refine and_congr_right fun _ => ?_
  refine forall_congr' fun i => imp_congr_right fun hi => imp_congr_right fun hi' => ?_
  rw [h.2 i hi hi']

/-- The operations on a range are what they are bit by bit, for the bits of the bitmap and for all that
lies behind it in the buffer. -/
structure RangesExact (b : Bitmap) (ulStart ulCount : ℕ) : Prop where
  set : ∀ i, (rtlSetBits b ulStart ulCount).bit i ↔
    b.bit i ∨ Within b ulStart ulCount ∧ ulStart ≤ i ∧ i < ulStart + ulCount
  clear : ∀ i, (rtlClearBits b ulStart ulCount).bit i ↔
    b.bit i ∧ ¬(Within b ulStart ulCount ∧ ulStart ≤ i ∧ i < ulStart + ulCount)
  set_size : (rtlSetBits b ulStart ulCount).sizeOfBitMap = b.sizeOfBitMap
  clear_size : (rtlClearBits b ulStart ulCount).sizeOfBitMap = b.sizeOfBitMap
  areSet : rtlAreBitsSet b ulStart ulCount ↔
    Within b ulStart ulCount ∧ ∀ i, ulStart ≤ i → i < ulStart + ulCount → b.bit i = true
  areClear : rtlAreBitsClear b ulStart ulCount ↔
    Within b ulStart ulCount ∧ ∀ i, ulStart ≤ i → i < ulStart + ulCount → b.bit i = false
  areSet_congr : ∀ b', AgreeOn b b' ulStart ulCount →
    rtlAreBitsSet b ulStart ulCount = rtlAreBitsSet b' ulStart ulCount
  areClear_congr : ∀ b', AgreeOn b b' ulStart ulCount →
    rtlAreBitsClear b ulStart ulCount = rtlAreBitsClear b' ulStart ulCount

end Wine.Bitmaps
