import Wine.Bitmaps.Ranges

/-!
# The next run of a bitmap

The search for a run masks the first byte by the start offset and takes the position of the first bit
from tables, then it counts whole bytes and a tail. It looks at the size of the bitmap only when it
goes on to a next byte, so that bits behind the bitmap may be taken for a part of it; and in the first
byte the offset of the bit is added to the start instead of the start of the byte. `fuel` bounds the
bytes that are looked at, as the loops need not end.
-/

namespace Wine.Bitmaps
open Wine.Lib Bytes

/-- `NTDLL_leastSignificant` -/
def leastSignificant (nibble : BitVec 8) : ℕ :=
  [0, 0, 1, 0, 2, 0, 1, 0, 3, 0, 1, 0, 2, 0, 1, 0].getD nibble.toNat 0

/-- The position of the first bit of a byte, from the table of nibbles. -/
def firstOffset (bFirst : BitVec 8) : ℕ :=
  if bFirst &&& 0x0f ≠ 0 then leastSignificant (bFirst &&& 0x0f)
  else 4 + leastSignificant (bFirst >>> 4)

/-- How many of the `n` bits from `ulOffset` on are set before the first clear one. -/
def countBits (v : BitVec 8) (ulOffset : ℕ) : ℕ → ℕ
  | 0 => 0
  | n + 1 => if v.getLsbD ulOffset then countBits v (ulOffset + 1) n + 1 else 0

/-- What the first loop ends with: no bit, a run that ends inside its byte, or a run to count on. -/
inductive FirstPart where
  | none
  | ended (ulFoundAt ulCount : ℕ)
  | on (ulFoundAt ulCount ulStart lpOut : ℕ)
  deriving DecidableEq, Repr

/-- The first loop. -/
def firstPart (m : Bytes) (size : ℕ) : ℕ → ℕ → ℕ → Option FirstPart
  | 0, _, _ => .none
  | fuel + 1, ulStart, lpOut =>
    let bMask := highMask (ulStart % 8)
    let bFirst := m lpOut &&& bMask
    let next := (ulStart / 8 * 8 + 8) % ulongLimit
    if bFirst ≠ 0 then
      if bFirst ≠ bMask then
        let ulOffset := firstOffset bFirst
        let ulFoundAt := (ulStart + ulOffset) % ulongLimit
        let ulCount := countBits bFirst ulOffset (8 - ulOffset)
        if ulOffset + ulCount < 8 then some (.ended ulFoundAt ulCount)
        else some (.on ulFoundAt ulCount ((ulFoundAt + ulCount) % ulongLimit) (lpOut + 1))
      else some (.on ulStart (8 - ulStart % 8) next (lpOut + 1))
    else if size ≤ next then some .none
    else firstPart m size fuel next (lpOut + 1)

/-- The second loop and the remaining bits: the length of the run. -/
def countOn (m : Bytes) (size : ℕ) : ℕ → ℕ → ℕ → ℕ → Option ℕ
  | 0, _, _, _ => none
  | fuel + 1, ulCount, ulStart, lpOut =>
    if m lpOut = 0xff then
      let count := (ulCount + 8) % ulongLimit
      let start := (ulStart + 8) % ulongLimit
      if size ≤ start then some ((count + ulongLimit - (start - size)) % ulongLimit)
      else countOn m size fuel count start (lpOut + 1)
    else if (m lpOut).getLsbD 0 then some ((ulCount + countBits (m lpOut) 0 7) % ulongLimit)
    else some ulCount

/-- The position that is returned and the length that is stored, if one is. -/
def findRunIn (m : Bytes) (size fuel ulStart : ℕ) : Option (ℕ × Option ℕ) :=
  match firstPart m size fuel ulStart (ulStart / 8) with
  | none => none
  | some .none => some (ulongLimit - 1, none)
  | some (.ended ulFoundAt ulCount) => some (ulFoundAt, some ulCount)
  | some (.on ulFoundAt ulCount start lpOut) =>
    (countOn m size fuel ulCount start lpOut).map fun n => (ulFoundAt, some n)

/-- `NTDLL_FindSetRun` -/
def findSetRun (b : Bitmap) (fuel ulStart : ℕ) : Option (ℕ × Option ℕ) :=
  findRunIn b.buffer b.sizeOfBitMap fuel ulStart

/-- `NTDLL_FindClearRun`. It has the complement of every byte in place of the byte. -/
def findClearRun (b : Bitmap) (fuel ulStart : ℕ) : Option (ℕ × Option ℕ) :=
  findRunIn b.buffer.not b.sizeOfBitMap fuel ulStart

/-- The length that is returned, which is 0 when none is stored, and what becomes of `*lpPos`. -/
def nextForwardRun (run : ℕ → Option (ℕ × Option ℕ)) (b : Bitmap) (ulStart : ℕ) :
    Option (ℕ × Option ℕ) :=
  if ulStart < b.sizeOfBitMap then (run ulStart).map fun r => (r.2.getD 0, some r.1)
  else some (0, none)

def rtlFindNextForwardRunSet (b : Bitmap) (fuel ulStart : ℕ) : Option (ℕ × Option ℕ) :=
  nextForwardRun (findSetRun b fuel) b ulStart

def rtlFindNextForwardRunClear (b : Bitmap) (fuel ulStart : ℕ) : Option (ℕ × Option ℕ) :=
  nextForwardRun (findClearRun b fuel) b ulStart

variable {m : Bytes} {b b' : Bitmap} {v : Bool} {x : BitVec 8} {w f fuel s p e k c n o i j : ℕ}

theorem firstOffset_spec : ∀ x : BitVec 8, x ≠ 0 → firstOffset x < 8 ∧
    x.getLsbD (firstOffset x) = true ∧ ∀ j < firstOffset x, x.getLsbD j = false := by
  decide

theorem firstOffset_eq (ho : x.getLsbD o = true) (hbefore : ∀ j < o, x.getLsbD j = false) :
    firstOffset x = o := by
  have hne : x ≠ 0 := by
    rintro rfl
    rw [BitVec.ofNat_eq_ofNat, BitVec.getLsbD_zero] at ho
    cases ho
  obtain ⟨-, hset, hclear⟩ := firstOffset_spec x hne
  rcases Nat.lt_trichotomy (firstOffset x) o with h | h | h
  · rw [hbefore _ h] at hset
    cases hset
  · exact h
  · rw [hclear _ h] at ho
    cases ho

theorem countBits_eq (hset : ∀ j, o ≤ j → j < o + c → x.getLsbD j = true) (hc : c ≤ n)
    (hend : c < n → x.getLsbD (o + c) = false) : countBits x o n = c := by
  induction n generalizing o c with
  | zero => exact (Nat.le_zero.mp hc).symm
  | succ n ih =>
    rw [countBits]
    cases c with
    | zero =>
      have hfirst : x.getLsbD o = false := hend (Nat.succ_pos n)
      rw [hfirst]
      rfl
    | succ c =>
      rw [if_pos (hset o (Nat.le_refl o) (by omega))]
      rw [ih (c := c) (fun j hj hj' => hset j (by omega) (by omega)) (by omega)]
      intro h
      have hlast := hend (by omega)
      rwa [show o + 1 + c = o + (c + 1) by omega]

/-- The bits that are left of a byte behind an offset. -/
theorem getLsbD_masked (hj : j < 8) :
    (m k &&& highMask o).getLsbD j = (m.bit (8 * k + j) && decide (o ≤ j)) := by
  rw [BitVec.getLsbD_and, getLsbD_highMask, bit_byte hj]
  congr 1
  rw [decide_eq_decide]
  exact and_iff_left hj

theorem masked_eq_zero_iff :
    m k &&& highMask o = 0 ↔ ∀ i, 8 * k + o ≤ i → i < 8 * k + 8 → m.bit i = false := by
  rw [Bytes.and_eq_zero_iff]
  simp only [getLsbD_highMask, decide_eq_true_eq]
  constructor
  · exact fun h i hi hi' => h i (by omega) (by omega)
  · exact fun h i hi hi' => h i (by omega) (by omega)

theorem masked_eq_mask_iff :
    m k &&& highMask o = highMask o ↔ ∀ i, 8 * k + o ≤ i → i < 8 * k + 8 → m.bit i = true := by
  rw [Bytes.and_eq_right_iff]
  simp only [getLsbD_highMask, decide_eq_true_eq]
  constructor
  · exact fun h i hi hi' => h i (by omega) (by omega)
  · exact fun h i hi hi' => h i (by omega) (by omega)

/-- The first bit from `s` on is `p`. -/
structure FirstBit (m : Bytes) (s p : ℕ) : Prop where
  le : s ≤ p
  set : m.bit p = true
  before : ∀ i, s ≤ i → i < p → m.bit i = false

/-- The run from `p` on ends before `e`. -/
structure RunTo (m : Bytes) (p e : ℕ) : Prop where
  lt : p < e
  set : ∀ i, p ≤ i → i < e → m.bit i = true
  ends : m.bit e = false

namespace FirstBit

theorem masked_ne_zero (h : FirstBit m s p) (hs : s / 8 = p / 8) :
    m (p / 8) &&& highMask (s % 8) ≠ 0 := by
  have hle := h.le
  rw [Ne, masked_eq_zero_iff]
  intro hzero
  have hp := h.set
  rw [hzero p (by omega) (by omega)] at hp
  cases hp

theorem firstOffset (h : FirstBit m s p) (hs : s / 8 = p / 8) :
    firstOffset (m (p / 8) &&& highMask (s % 8)) = p % 8 := by
  have hle := h.le
  apply firstOffset_eq
  · rw [getLsbD_masked (Nat.mod_lt _ (by decide)), Nat.div_add_mod, h.set, Bool.true_and,
      decide_eq_true_eq]
    omega
  · intro j hj
    rw [getLsbD_masked (by omega), Bool.and_eq_false_iff, decide_eq_false_iff_not]
    by_cases hsj : s % 8 ≤ j
    · exact Or.inl (h.before _ (by omega) (by omega))
    · exact Or.inr hsj

/-- How many bits are counted in the byte of the first bit. -/
theorem countBits (h : FirstBit m s p) (hs : s / 8 = p / 8)
    (hset : ∀ i, p ≤ i → i < p + c → m.bit i = true) (hc : p % 8 + c ≤ 8)
    (hend : p % 8 + c < 8 → m.bit (p + c) = false) :
    countBits (m (p / 8) &&& highMask (s % 8)) (p % 8) (8 - p % 8) = c := by
  have hle := h.le
  apply countBits_eq
  · intro j hj hj'
    rw [getLsbD_masked (by omega), hset _ (by omega) (by omega), Bool.true_and, decide_eq_true_eq]
    omega
  · omega
  · intro hlt
    rw [getLsbD_masked (by omega), show 8 * (p / 8) + (p % 8 + c) = p + c by omega,
      hend (by omega), Bool.false_and]

/-- The run ends in the byte of the first bit. -/
theorem firstPart_ended (h : FirstBit m s p) (hs : s / 8 = p / 8) (hrun : RunTo m p e)
    (he : e < p / 8 * 8 + 8) : firstPart m w (f + 1) s (p / 8) =
      some (.ended ((s + p % 8) % ulongLimit) (e - p)) := by
  have hle := h.le
  have hlt := hrun.lt
  have hmask : m (p / 8) &&& highMask (s % 8) ≠ highMask (s % 8) := by
    rw [Ne, masked_eq_mask_iff]
    intro hall
    have hclear := hrun.ends
    rw [hall e (by omega) (by omega)] at hclear
    cases hclear
  have hcount := h.countBits hs (c := e - p)
    (fun i hi hi' => hrun.set i hi (by omega)) (by omega)
    (fun _ => by rw [show p + (e - p) = e by omega]; exact hrun.ends)
  rw [firstPart]
  dsimp only
  rw [if_pos (h.masked_ne_zero hs), if_pos hmask, h.firstOffset hs, hcount, if_pos (by omega)]

/-- The run goes on behind the byte of the first bit, which is not the bit the search starts with. -/
theorem firstPart_on (h : FirstBit m s p) (hs : s / 8 = p / 8) (hlt : s < p)
    (hset : ∀ i, p ≤ i → i < p / 8 * 8 + 8 → m.bit i = true) :
    firstPart m w (f + 1) s (p / 8) = some (.on ((s + p % 8) % ulongLimit) (8 - p % 8)
      (((s + p % 8) % ulongLimit + (8 - p % 8)) % ulongLimit) (p / 8 + 1)) := by
  have hmask : m (p / 8) &&& highMask (s % 8) ≠ highMask (s % 8) := by
    rw [Ne, masked_eq_mask_iff]
    intro hall
    have hclear := h.before s (Nat.le_refl s) hlt
    rw [hall s (by omega) (by omega)] at hclear
    cases hclear
  have hcount := h.countBits hs (c := 8 - p % 8)
    (fun i hi hi' => hset i hi (by omega)) (by omega) (fun hc => absurd hc (by omega))
  rw [firstPart]
  dsimp only
  rw [if_pos (h.masked_ne_zero hs), if_pos hmask, h.firstOffset hs, hcount, if_neg (by omega)]

/-- Every bit from the start of the search to the end of its byte is set. -/
theorem firstPart_full (hset : ∀ i, s ≤ i → i < s / 8 * 8 + 8 → m.bit i = true) :
    firstPart m w (f + 1) s (s / 8) = some (.on s (8 - s % 8)
      ((s / 8 * 8 + 8) % ulongLimit) (s / 8 + 1)) := by
  have h : FirstBit m s s :=
    ⟨Nat.le_refl s, hset s (Nat.le_refl s) (by omega), fun i hi hi' => absurd hi' (by omega)⟩
  have hmask : m (s / 8) &&& highMask (s % 8) = highMask (s % 8) := by
    rw [masked_eq_mask_iff]
    exact fun i hi hi' => hset i (by omega) (by omega)
  rw [firstPart]
  dsimp only
  rw [if_pos (h.masked_ne_zero rfl), if_neg (not_not_intro hmask)]

/-- Bytes without a bit are skipped. -/
theorem firstPart_skip (h : FirstBit m s p) (hs : s / 8 < p / 8) (hp : 8 * (p / 8) < w)
    (hsize : w < ulongLimit) : firstPart m w (f + (p / 8 - s / 8)) s (s / 8) =
      firstPart m w f (8 * (p / 8)) (p / 8) := by
  obtain ⟨d, hd⟩ : ∃ d, p / 8 = s / 8 + 1 + d := ⟨p / 8 - s / 8 - 1, by omega⟩
  induction d generalizing s f with
  | zero =>
    have hzero : m (s / 8) &&& highMask (s % 8) = 0 := by
      rw [masked_eq_zero_iff]
      exact fun i hi hi' => h.before i (by omega) (by omega)
    have hnext : (s / 8 * 8 + 8) % ulongLimit = 8 * (p / 8) := by
      rw [Nat.mod_eq_of_lt (by omega)]
      omega
    rw [show f + (p / 8 - s / 8) = f + 1 by omega, firstPart]
    dsimp only
    rw [if_neg (not_not_intro hzero), hnext, if_neg (by omega), show s / 8 + 1 = p / 8 by omega]
  | succ d ih =>
    have hzero : m (s / 8) &&& highMask (s % 8) = 0 := by
      rw [masked_eq_zero_iff]
      exact fun i hi hi' => h.before i (by omega) (by omega)
    have hnext : (s / 8 * 8 + 8) % ulongLimit = s / 8 * 8 + 8 := Nat.mod_eq_of_lt (by omega)
    have hrest : FirstBit m (s / 8 * 8 + 8) p :=
      ⟨by omega, h.set, fun i hi hi' => h.before i (by omega) hi'⟩
    have hih := ih (f := f) hrest (by omega) (by omega)
    rw [show f + (p / 8 - s / 8) = f + (p / 8 - (s / 8 * 8 + 8) / 8) + 1 by omega, firstPart]
    dsimp only
    rw [if_neg (not_not_intro hzero), hnext, if_neg (by omega),
      show s / 8 + 1 = (s / 8 * 8 + 8) / 8 by omega, hih]

end FirstBit

/-- There is no bit up to the end of the last byte. -/
theorem firstPart_none (hs : s < w) (hsize : w + 8 ≤ ulongLimit)
    (hclear : ∀ i, s ≤ i → i < (w + 7) / 8 * 8 → m.bit i = false) :
    firstPart m w ((w + 7) / 8 - s / 8) s (s / 8) = some .none := by
  obtain ⟨d, hd⟩ : ∃ d, (w + 7) / 8 = s / 8 + 1 + d := ⟨(w + 7) / 8 - s / 8 - 1, by omega⟩
  have hzero : m (s / 8) &&& highMask (s % 8) = 0 := by
    rw [masked_eq_zero_iff]
    exact fun i hi hi' => hclear i (by omega) (by omega)
  have hnext : (s / 8 * 8 + 8) % ulongLimit = s / 8 * 8 + 8 := Nat.mod_eq_of_lt (by omega)
  induction d generalizing s with
  | zero =>
    rw [show (w + 7) / 8 - s / 8 = 0 + 1 by omega, firstPart]
    dsimp only
    rw [if_neg (not_not_intro hzero), hnext, if_pos (by omega)]
  | succ d ih =>
    have hzero' : m ((s / 8 * 8 + 8) / 8) &&& highMask ((s / 8 * 8 + 8) % 8) = 0 := by
      rw [masked_eq_zero_iff]
      exact fun i hi hi' => hclear i (by omega) (by omega)
    have hih := ih (s := s / 8 * 8 + 8) (by omega) (fun i hi hi' => hclear i (by omega) hi')
      (by omega) hzero' (Nat.mod_eq_of_lt (by omega))
    rw [show (w + 7) / 8 - s / 8 = (w + 7) / 8 - (s / 8 * 8 + 8) / 8 + 1 by omega, firstPart]
    dsimp only
    rw [if_neg (not_not_intro hzero), hnext, if_neg (by omega),
      show s / 8 + 1 = (s / 8 * 8 + 8) / 8 by omega, hih]

/-- The loop over whole bytes goes on to the byte `k + d`. -/
theorem countOn_bytes {d : ℕ} (hset : ∀ i, 8 * k ≤ i → i < 8 * (k + d) → m.bit i = true)
    (hsize : ∀ j, k ≤ j → j < k + d → (8 * j + 8) % ulongLimit < w) :
    countOn m w (fuel + d) c (8 * k % ulongLimit) k =
      countOn m w fuel (if d = 0 then c else (c + 8 * d) % ulongLimit)
        (8 * (k + d) % ulongLimit) (k + d) := by
  induction d generalizing k c with
  | zero => rfl
  | succ d ih =>
    have hfull : m k = 0xff := byte_full_iff.mpr fun i hi hi' => hset i hi (by omega)
    have hnext : (8 * k % ulongLimit + 8) % ulongLimit = 8 * (k + 1) % ulongLimit := by
      rw [Nat.mod_add_mod, Nat.mul_succ]
    have hlt := hsize k (Nat.le_refl k) (by omega)
    rw [show fuel + (d + 1) = fuel + d + 1 by omega, countOn, if_pos hfull]
    dsimp only
    rw [hnext, if_neg (by rw [Nat.mul_succ]; omega),
      ih (fun i hi hi' => hset i (by omega) (by omega)) (fun j hj hj' => hsize j (by omega) (by omega)),
      if_neg (Nat.succ_ne_zero d), show k + 1 + d = k + (d + 1) by omega]
    congr 1
    split
    · next hd => rw [hd]
    · rw [Nat.mod_add_mod]
      congr 1
      omega

/-- The run ends in a byte that is looked at. -/
theorem countOn_ends (hk : 8 * k ≤ e) (hset : ∀ i, 8 * k ≤ i → i < e → m.bit i = true)
    (hends : m.bit e = false) (hsize : ∀ j, k ≤ j → j < e / 8 → (8 * j + 8) % ulongLimit < w)
    (hc : c < ulongLimit) :
    ∃ fuel, countOn m w fuel c (8 * k % ulongLimit) k =
      some ((c + (e - 8 * k)) % ulongLimit) := by
  obtain ⟨d, hd⟩ : ∃ d, e / 8 = k + d := ⟨e / 8 - k, by omega⟩
  have hne : m (k + d) ≠ 0xff := by
    rw [Ne, byte_full_iff]
    intro hall
    rw [hall e (by omega) (by omega)] at hends
    cases hends
  have htail : ∀ c', countOn m w 1 c' (8 * (k + d) % ulongLimit) (k + d) =
      if e % 8 = 0 then some c' else some ((c' + e % 8) % ulongLimit) := by
    intro c'
    rw [countOn, if_neg hne]
    by_cases he : e % 8 = 0
    · have hfirst : (m (k + d)).getLsbD 0 = false := by
        rw [← bit_byte (by decide), show 8 * (k + d) + 0 = e by omega]
        exact hends
      rw [hfirst, if_neg (by decide), if_pos he]
    · have hfirst : (m (k + d)).getLsbD 0 = true := by
        rw [← bit_byte (by decide)]
        exact hset _ (by omega) (by omega)
      have hcount : countBits (m (k + d)) 0 7 = e % 8 := by
        apply countBits_eq
        · intro j _ hj
          rw [← bit_byte (by omega)]
          exact hset _ (by omega) (by omega)
        · omega
        · intro _
          rw [← bit_byte (by omega), show 8 * (k + d) + (0 + e % 8) = e by omega]
          exact hends
      rw [hfirst, if_pos rfl, if_neg he, hcount]
  refine ⟨1 + d, ?_⟩
  rw [countOn_bytes (fun i hi hi' => hset i hi (by omega)) (fun j hj hj' => hsize j hj (by omega)),
    htail]
  by_cases hd' : d = 0
  · rw [if_pos hd']
    split
    · next he => rw [show e - 8 * k = 0 by omega, Nat.add_zero, Nat.mod_eq_of_lt hc]
    · rw [show e - 8 * k = e % 8 by omega]
  · rw [if_neg hd']
    split
    · next he => rw [show e - 8 * k = 8 * d by omega]
    · rw [Nat.mod_add_mod, show e - 8 * k = 8 * d + e % 8 by omega, Nat.add_assoc]

/-- The run covers the last byte. -/
theorem countOn_clipped {l : ℕ} (hk : k ≤ l)
    (hset : ∀ i, 8 * k ≤ i → i < 8 * l + 8 → m.bit i = true)
    (hlast : 8 * l < w) (hsize : w ≤ 8 * l + 8) (hlimit : 8 * l + 8 < ulongLimit)
    (hc : c ≤ 8 * k) :
    ∃ fuel, countOn m w fuel c (8 * k % ulongLimit) k = some (c + w - 8 * k) := by
  obtain ⟨d, hd⟩ : ∃ d, l = k + d := ⟨l - k, by omega⟩
  have hfull : m l = 0xff := byte_full_iff.mpr fun i hi hi' => hset i (by omega) hi'
  have hnext : (8 * l % ulongLimit + 8) % ulongLimit = 8 * l + 8 := by
    rw [Nat.mod_add_mod, Nat.mod_eq_of_lt hlimit]
  refine ⟨1 + d, ?_⟩
  rw [countOn_bytes (fun i hi hi' => hset i hi (by omega))
    (fun j hj hj' => by rw [Nat.mod_eq_of_lt (by omega)]; omega), ← hd, countOn, if_pos hfull]
  dsimp only
  rw [hnext, if_pos hsize]
  have hcount : ((if d = 0 then c else (c + 8 * d) % ulongLimit) + 8) % ulongLimit =
      c + 8 * d + 8 := by
    split
    · next hd' => rw [Nat.mod_eq_of_lt (by omega), hd', Nat.mul_zero, Nat.add_zero]
    · rw [Nat.mod_add_mod, Nat.mod_eq_of_lt (by omega)]
  rw [hcount, show c + 8 * d + 8 + ulongLimit - (8 * l + 8 - w) =
    c + w - 8 * k + ulongLimit by omega, Nat.add_mod_right, Nat.mod_eq_of_lt (by omega)]

/-- A loop that ends does not depend on the bound of its steps. -/
theorem firstPart_mono {r : FirstPart} {lpOut : ℕ} (h : firstPart m w fuel s lpOut = some r) :
    firstPart m w (fuel + n) s lpOut = some r := by
  induction fuel generalizing s lpOut with
  | zero => cases h
  | succ fuel ih =>
    rw [Nat.succ_add, firstPart]
    rw [firstPart] at h
    dsimp only at h ⊢
    split_ifs at h ⊢ with h₁ h₂ h₃ h₄
    · exact h
    · exact h
    · exact h
    · exact h
    · exact ih h

theorem countOn_mono {r start lpOut : ℕ} (h : countOn m w fuel c start lpOut = some r) :
    countOn m w (fuel + n) c start lpOut = some r := by
  induction fuel generalizing c start lpOut with
  | zero => cases h
  | succ fuel ih =>
    rw [Nat.succ_add, countOn]
    rw [countOn] at h
    dsimp only at h ⊢
    split_ifs at h ⊢ with h₁ h₂ h₃
    · exact h
    · exact ih h
    · exact h
    · exact h

theorem findRunIn_mono {r : ℕ × Option ℕ} (h : findRunIn m w fuel s = some r) :
    findRunIn m w (fuel + n) s = some r := by
  rw [findRunIn] at h ⊢
  cases hfirst : firstPart m w fuel s (s / 8) with
  | none =>
    rw [hfirst] at h
    cases h
  | some part =>
    rw [hfirst] at h
    rw [firstPart_mono hfirst]
    cases part with
    | none => exact h
    | ended _ _ => exact h
    | on foundAt count start lpOut =>
      obtain ⟨l, hl, hr⟩ := Option.map_eq_some_iff.mp h
      exact Option.map_eq_some_iff.mpr ⟨l, countOn_mono hl, hr⟩

/-- The search ends with this result. -/
def Finds (m : Bytes) (w s : ℕ) (r : ℕ × Option ℕ) : Prop :=
  ∃ fuel, findRunIn m w fuel s = some r

theorem Finds.unique {r r' : ℕ × Option ℕ} (h : Finds m w s r) (h' : Finds m w s r') :
    r = r' := by
  obtain ⟨fuel, h⟩ := h
  obtain ⟨fuel', h'⟩ := h'
  have hboth := findRunIn_mono (n := fuel') h
  rw [Nat.add_comm, findRunIn_mono h'] at hboth
  exact Option.some.inj hboth.symm

theorem finds_of_ended {foundAt count : ℕ}
    (h : firstPart m w fuel s (s / 8) = some (.ended foundAt count)) :
    Finds m w s (foundAt, some count) := by
  refine ⟨fuel, ?_⟩
  rw [findRunIn, h]

theorem finds_of_on {foundAt count start lpOut fuel' l : ℕ}
    (h : firstPart m w fuel s (s / 8) = some (.on foundAt count start lpOut))
    (hl : countOn m w fuel' count start lpOut = some l) : Finds m w s (foundAt, some l) := by
  refine ⟨fuel + fuel', ?_⟩
  rw [findRunIn, firstPart_mono h, Nat.add_comm]
  dsimp only
  rw [countOn_mono hl]
  rfl

/-- The first byte does not put the position of the first bit off: the search starts at a byte, the
first bit is in a later byte, or the rest of the byte is set. -/
def Placed (m : Bytes) (s p : ℕ) : Prop :=
  s % 8 = 0 ∨ s / 8 < p / 8 ∨ ∀ i, s ≤ i → i < s / 8 * 8 + 8 → m.bit i = true

/-- The first byte with its part of the run. -/
theorem FirstBit.firstPart_of_placed (h : FirstBit m s p) (hplaced : Placed m s p)
    (hp : 8 * (p / 8) < w) (hsize : w < ulongLimit) :
    (∀ e, RunTo m p e → e < p / 8 * 8 + 8 →
      ∃ fuel, firstPart m w fuel s (s / 8) = some (.ended p (e - p))) ∧
    ((∀ i, p ≤ i → i < p / 8 * 8 + 8 → m.bit i = true) →
      ∃ fuel, firstPart m w fuel s (s / 8) =
        some (.on p (8 - p % 8) (8 * (p / 8 + 1) % ulongLimit) (p / 8 + 1))) := by
  have hle := h.le
  have hlimit : ulongLimit = 0x100000000 := rfl
  -- the search starts at a byte
  have haligned : ∀ t, FirstBit m t p → t % 8 = 0 → t / 8 = p / 8 →
      (∀ e, RunTo m p e → e < p / 8 * 8 + 8 →
        firstPart m w 1 t (p / 8) = some (.ended p (e - p))) ∧
      ((∀ i, p ≤ i → i < p / 8 * 8 + 8 → m.bit i = true) → firstPart m w 1 t (p / 8) =
        some (.on p (8 - p % 8) (8 * (p / 8 + 1) % ulongLimit) (p / 8 + 1))) := by
    intro t h ht hbyte
    have hle := h.le
    have hpos : (t + p % 8) % ulongLimit = p := by
      rw [show t + p % 8 = p by omega, Nat.mod_eq_of_lt (by omega)]
    constructor
    · intro e hrun he
      rw [h.firstPart_ended hbyte hrun he, hpos]
    · intro hset
      by_cases heq : t = p
      · rw [heq, firstPart_full hset, show p / 8 * 8 + 8 = 8 * (p / 8 + 1) by omega]
      · rw [h.firstPart_on hbyte (by omega) hset, hpos,
          show p + (8 - p % 8) = 8 * (p / 8 + 1) by omega]
  by_cases hbyte : s / 8 = p / 8
  · rcases hplaced with hs | hlt | hall
    · obtain ⟨hended, hon⟩ := haligned s h hs hbyte
      rw [hbyte]
      exact ⟨fun e hrun he => ⟨1, hended e hrun he⟩, fun hset => ⟨1, hon hset⟩⟩
    · omega
    · have heq : p = s := by
        by_contra hne
        have hclear := h.before s (Nat.le_refl s) (by omega)
        rw [hall s (Nat.le_refl s) (by omega)] at hclear
        cases hclear
      subst heq
      constructor
      · intro e hrun he
        have hclear := hrun.ends
        have hlt := hrun.lt
        rw [hall e (by omega) he] at hclear
        cases hclear
      · intro _
        refine ⟨1, ?_⟩
        rw [firstPart_full hall, show p / 8 * 8 + 8 = 8 * (p / 8 + 1) by omega]
  · have hlt : s / 8 < p / 8 := by omega
    have hrest : FirstBit m (8 * (p / 8)) p :=
      ⟨by omega, h.set, fun i hi hi' => h.before i (by omega) hi'⟩
    obtain ⟨hended, hon⟩ := haligned (8 * (p / 8)) hrest (by omega) (by omega)
    refine ⟨fun e hrun he => ⟨1 + (p / 8 - s / 8), ?_⟩, fun hset => ⟨1 + (p / 8 - s / 8), ?_⟩⟩
    · rw [h.firstPart_skip hlt hp hsize]
      exact hended e hrun he
    · rw [h.firstPart_skip hlt hp hsize]
      exact hon hset

end Wine.Bitmaps
