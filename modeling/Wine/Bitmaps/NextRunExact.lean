import Mathlib.Data.Nat.Find
import Wine.Bitmaps.NextRun

/-!
# When the next run is the one of the bitmap

Bits behind the bitmap must not matter. They do when the last byte is not full and no bit is found
before it, and when the run goes up to the end of the bitmap, unless whole bytes are counted there.
-/

namespace Wine.Bitmaps
open Wine.Lib Bytes

variable {m : Bytes} {b b' : Bitmap} {v : Bool} {w s p e k c l i : ℕ} {r : ℕ × Option ℕ}

/-- What is returned and stored is the next run of bits equal to `v`, as far as it is in the bitmap. -/
def IsNextRun (v : Bool) (b : Bitmap) (ulStart : ℕ) (r : ℕ × Option ℕ) : Prop :=
  (r.1 = 0 ∧ ∀ i, ulStart ≤ i → i < b.sizeOfBitMap → b.bit i = !v) ∨
    ∃ p, r.2 = some p ∧ ulStart ≤ p ∧ (∀ i, ulStart ≤ i → i < p → b.bit i = !v) ∧ 0 < r.1 ∧
      p + r.1 ≤ b.sizeOfBitMap ∧ (∀ i, p ≤ i → i < p + r.1 → b.bit i = v) ∧
      (p + r.1 < b.sizeOfBitMap → b.bit (p + r.1) = !v)

/-- The function that looks for runs of bits equal to `v`. -/
def nextRun (v : Bool) : Bitmap → ℕ → ℕ → Option (ℕ × Option ℕ) :=
  if v then rtlFindNextForwardRunSet else rtlFindNextForwardRunClear

/-- The next run is returned whatever stands behind the bits of the bitmap. -/
def RunExact (v : Bool) (b : Bitmap) (ulStart : ℕ) : Prop :=
  ∀ b', AgreeOn b b' 0 b.sizeOfBitMap →
    ∃ fuel r, nextRun v b' fuel ulStart = some r ∧ IsNextRun v b ulStart r

/-- The position is not put off by the offset of the start. -/
def PositionKnown (v : Bool) (b : Bitmap) (ulStart p : ℕ) : Prop :=
  ulStart % 8 = 0 ∨ ulStart / 8 < p / 8 ∨
    (ulStart / 8 * 8 + 8 ≤ b.sizeOfBitMap ∧
      ∀ i, ulStart ≤ i → i < ulStart / 8 * 8 + 8 → b.bit i = v)

/-- The run ends in the bitmap, or it comes to the end of the bitmap from an earlier byte, where the
last byte is full or only its last bit is missing. -/
def EndKnown (v : Bool) (b : Bitmap) (p : ℕ) : Prop :=
  (∃ i, p ≤ i ∧ i < b.sizeOfBitMap ∧ b.bit i = !v) ∨
    (p / 8 * 8 + 8 < b.sizeOfBitMap ∧
      (b.sizeOfBitMap % 8 = 0 ∨ b.sizeOfBitMap % 8 = 7 ∧ b.sizeOfBitMap ≠ ulongLimit - 1))

/-- No bit is found and the last byte is full, or position and end of the run are known. -/
def RunKnown (v : Bool) (b : Bitmap) (ulStart : ℕ) : Prop :=
  ((∀ i, ulStart ≤ i → i < b.sizeOfBitMap → b.bit i = !v) ∧ b.sizeOfBitMap % 8 = 0) ∨
    ∃ p, ulStart ≤ p ∧ p < b.sizeOfBitMap ∧ b.bit p = v ∧
      (∀ i, ulStart ≤ i → i < p → b.bit i = !v) ∧ PositionKnown v b ulStart p ∧ EndKnown v b p

theorem nextRun_iff (hs : s < b'.sizeOfBitMap) : (∃ fuel, nextRun true b' fuel s = some r) ↔
    ∃ r', Finds b'.buffer b'.sizeOfBitMap s r' ∧ (r'.2.getD 0, some r'.1) = r := by
  have hnext : ∀ fuel, nextRun true b' fuel s =
      (findRunIn b'.buffer b'.sizeOfBitMap fuel s).map fun r => (r.2.getD 0, some r.1) := by
    intro fuel
    change nextForwardRun (findSetRun b' fuel) b' s = _
    rw [nextForwardRun, if_pos hs]
    rfl
  simp only [hnext, Option.map_eq_some_iff, Finds]
  constructor
  · rintro ⟨fuel, r', hr', heq⟩
    exact ⟨r', ⟨fuel, hr'⟩, heq⟩
  · rintro ⟨r', ⟨fuel, hr'⟩, heq⟩
    exact ⟨fuel, r', hr', heq⟩

/-- What the search finds behind the bits of an exact bitmap. -/
theorem RunExact.finds (h : RunExact true b s) (hs : s < b.sizeOfBitMap)
    (hagree : AgreeOn b b' 0 b.sizeOfBitMap) :
    ∃ r, Finds b'.buffer b.sizeOfBitMap s r ∧ IsNextRun true b s (r.2.getD 0, some r.1) := by
  obtain ⟨fuel, r, hr, hnext⟩ := h b' hagree
  rw [hagree.1] at hs ⊢
  obtain ⟨r', hr', rfl⟩ := (nextRun_iff hs).mp ⟨fuel, hr⟩
  exact ⟨r', hr', hnext⟩

theorem exists_firstBit (h : ∃ i, s ≤ i ∧ i < w ∧ m.bit i = true) :
    ∃ p, FirstBit m s p ∧ p < w := by
  obtain ⟨hle, hlt, hset⟩ := Nat.find_spec h
  refine ⟨Nat.find h, ⟨hle, hset, fun i hi hi' => ?_⟩, hlt⟩
  exact Bool.eq_false_iff.mpr fun hi'' => Nat.find_min h hi' ⟨hi, by omega, hi''⟩

theorem exists_runTo (hp : m.bit p = true) (h : ∃ i, p ≤ i ∧ i < w ∧ m.bit i = false) :
    ∃ e, RunTo m p e ∧ e < w := by
  obtain ⟨hle, hlt, hclear⟩ := Nat.find_spec h
  refine ⟨Nat.find h, ⟨?_, fun i hi hi' => ?_, hclear⟩, hlt⟩
  · refine Nat.lt_of_le_of_ne hle fun heq => ?_
    rw [← heq, hp] at hclear
    cases hclear
  · by_contra hi''
    exact Nat.find_min h hi' ⟨hi, by omega, Bool.eq_false_iff.mpr hi''⟩

/-- A run is counted up to its end when the loops come to the byte of the end. -/
theorem FirstBit.finds_runTo (h : FirstBit m s p) (hplaced : Placed m s p) (hp : 8 * (p / 8) < w)
    (hsize : w < ulongLimit) (hrun : RunTo m p e)
    (hbytes : ∀ j, p / 8 < j → j < e / 8 → (8 * j + 8) % ulongLimit < w) :
    Finds m w s (p, some ((e - p) % ulongLimit)) := by
  have hlimit : ulongLimit = 0x100000000 := rfl
  have hlt := hrun.lt
  obtain ⟨hended, hon⟩ := h.firstPart_of_placed hplaced hp hsize
  by_cases he : e < p / 8 * 8 + 8
  · obtain ⟨fuel, hfuel⟩ := hended e hrun he
    rw [Nat.mod_eq_of_lt (by omega)]
    exact finds_of_ended hfuel
  · obtain ⟨fuel, hfuel⟩ := hon fun i hi hi' => hrun.set i hi (by omega)
    obtain ⟨fuel', hfuel'⟩ := countOn_ends (m := m) (w := w) (k := p / 8 + 1)
      (c := 8 - p % 8) (by omega) (fun i hi hi' => hrun.set i (by omega) hi') hrun.ends
      (fun j hj hj' => hbytes j (by omega) hj') (by omega)
    rw [show 8 - p % 8 + (e - 8 * (p / 8 + 1)) = e - p by omega] at hfuel'
    exact finds_of_on hfuel hfuel'

/-- A run that covers the last byte is clipped. -/
theorem FirstBit.finds_clipped (h : FirstBit m s p) (hplaced : Placed m s p)
    (hset : ∀ i, p ≤ i → i < 8 * l + 8 → m.bit i = true) (hl : p / 8 < l) (hlast : 8 * l < w)
    (hsize : w ≤ 8 * l + 8) (hlimit : 8 * l + 8 < ulongLimit) :
    Finds m w s (p, some (w - p)) := by
  obtain ⟨-, hon⟩ := h.firstPart_of_placed hplaced (w := w) (by omega) (by omega)
  obtain ⟨fuel, hfuel⟩ := hon fun i hi hi' => hset i hi (by omega)
  obtain ⟨fuel', hfuel'⟩ := countOn_clipped (m := m) (k := p / 8 + 1) (c := 8 - p % 8) hl
    (fun i hi hi' => hset i (by omega) hi') hlast hsize hlimit (by omega)
  rw [show 8 - p % 8 + w - 8 * (p / 8 + 1) = w - p by omega] at hfuel'
  exact finds_of_on hfuel hfuel'

/-- A run up to the end is found when the last byte is counted as a whole or bit by bit. -/
theorem FirstBit.finds_rest (h : FirstBit m s p) (hplaced : Placed m s p) (hlt : p < w)
    (hsize : w < ulongLimit) (hall : ∀ i, p ≤ i → i < w → m.bit i = true) (hbyte : p / 8 * 8 + 8 < w)
    (hmod : w % 8 = 0 ∨ w % 8 = 7 ∧ w ≠ ulongLimit - 1) : Finds m w s (p, some (w - p)) := by
  have hlimit : ulongLimit = 0x100000000 := rfl
  rcases hmod with hmod | ⟨hmod, hne⟩
  · exact h.finds_clipped hplaced (l := w / 8 - 1) (fun i hi hi' => hall i hi (by omega)) (by omega)
      (by omega) (by omega) (by omega)
  · cases hbeyond : m.bit w with
    | true =>
      refine h.finds_clipped hplaced (l := w / 8) (fun i hi hi' => ?_) (by omega) (by omega) (by omega)
        (by omega)
      rcases Nat.lt_or_ge i w with hi'' | hi''
      · exact hall i hi hi''
      · rw [show i = w by omega]
        exact hbeyond
    | false =>
      have hfinds := h.finds_runTo hplaced (w := w) (by omega) hsize ⟨hlt, hall, hbeyond⟩
        fun j hj hj' => by rw [Nat.mod_eq_of_lt (by omega)]; omega
      rw [Nat.mod_eq_of_lt (by omega)] at hfinds
      exact hfinds

/-- A known run is found behind all that may follow the bitmap. -/
theorem runExact_of_known (hs : s < b.sizeOfBitMap) (h : RunKnown true b s) : RunExact true b s := by
  have hlimit : ulongLimit = 0x100000000 := rfl
  have hsize := b.size_lt
  rintro b' ⟨hsize', hagree⟩
  have hbit : ∀ i < b.sizeOfBitMap, b'.buffer.bit i = b.bit i :=
    fun i hi => (hagree i (Nat.zero_le i) (by omega)).symm
  suffices hfinds : ∃ r, Finds b'.buffer b.sizeOfBitMap s r ∧
      IsNextRun true b s (r.2.getD 0, some r.1) by
    obtain ⟨r, hr, hnext⟩ := hfinds
    rw [hsize'] at hs hr
    obtain ⟨fuel, hfuel⟩ := (nextRun_iff hs).mpr ⟨r, hr, rfl⟩
    exact ⟨fuel, _, hfuel, hnext⟩
  rcases h with ⟨hclear, hfull⟩ | ⟨p, hle, hlt, hp, hbefore, hposition, hend⟩
  · have hnone := firstPart_none (m := b'.buffer) hs (by omega) fun i hi hi' => by
      rw [hbit i (by omega)]
      exact hclear i hi (by omega)
    refine ⟨(ulongLimit - 1, none), ⟨(b.sizeOfBitMap + 7) / 8 - s / 8, ?_⟩, Or.inl ⟨rfl, hclear⟩⟩
    rw [findRunIn, hnone]
  · have hfirst : FirstBit b'.buffer s p :=
      ⟨hle, by rw [hbit p hlt, hp], fun i hi hi' => by rw [hbit i (by omega), hbefore i hi hi']; rfl⟩
    have hplaced : Placed b'.buffer s p := by
      refine hposition.imp_right (Or.imp_right ?_)
      rintro ⟨hin, hset⟩ i hi hi'
      rw [hbit i (by omega)]
      exact hset i hi hi'
    -- the run ends at `e`, in the bitmap or with it
    have hrun : ∀ e, p < e → e ≤ b.sizeOfBitMap → (∀ i, p ≤ i → i < e → b.bit i = true) →
        (e < b.sizeOfBitMap → b.bit e = false) →
        IsNextRun true b s ((some (e - p)).getD 0, some p) := by
      intro e hpe he hset hends
      refine Or.inr ⟨p, rfl, hle, hbefore, ?_⟩
      simp only [Option.getD_some, show p + (e - p) = e by omega]
      exact ⟨by omega, he, hset, hends⟩
    by_cases hin : ∃ i, p ≤ i ∧ i < b.sizeOfBitMap ∧ b'.buffer.bit i = false
    · obtain ⟨e, he, hlast⟩ := exists_runTo hfirst.set hin
      have hfinds := hfirst.finds_runTo hplaced (w := b.sizeOfBitMap) (by omega) hsize he
        fun j hj hj' => by rw [Nat.mod_eq_of_lt (by omega)]; omega
      rw [Nat.mod_eq_of_lt (by omega)] at hfinds
      refine ⟨_, hfinds, hrun e he.lt (by omega) (fun i hi hi' => ?_) fun _ => ?_⟩
      · rw [← hbit i (by omega)]
        exact he.set i hi hi'
      · rw [← hbit e hlast]
        exact he.ends
    · have hall : ∀ i, p ≤ i → i < b.sizeOfBitMap → b'.buffer.bit i = true := by
        intro i hi hi'
        by_contra hclear
        exact hin ⟨i, hi, hi', Bool.eq_false_iff.mpr hclear⟩
      have hdone : IsNextRun true b s ((some (b.sizeOfBitMap - p)).getD 0, some p) :=
        hrun b.sizeOfBitMap hlt (Nat.le_refl _)
          (fun i hi hi' => by rw [← hbit i hi']; exact hall i hi hi')
          (fun h => absurd h (Nat.lt_irrefl _))
      rcases hend with ⟨i, hi, hi', hclear⟩ | ⟨hbyte, hmod⟩
      · rw [← hbit i hi', hall i hi hi'] at hclear
        cases hclear
      exact ⟨_, hfirst.finds_rest hplaced hlt hsize hall hbyte hmod, hdone⟩

/-- The loops come to the byte of the first bit, with a start in this byte. -/
theorem FirstBit.reach (h : FirstBit m s p) (hp : 8 * (p / 8) < w) (hsize : w < ulongLimit) :
    ∃ t d, FirstBit m t p ∧ t / 8 = p / 8 ∧ (t = s ∨ t % 8 = 0) ∧
      ∀ fuel, firstPart m w (fuel + d) s (s / 8) = firstPart m w fuel t (p / 8) := by
  have hle := h.le
  by_cases hbyte : s / 8 = p / 8
  · exact ⟨s, 0, h, hbyte, Or.inl rfl, fun fuel => by rw [hbyte]; rfl⟩
  · refine ⟨8 * (p / 8), p / 8 - s / 8, ⟨by omega, h.set, ?_⟩, by omega, Or.inr (by omega), ?_⟩
    · exact fun i hi hi' => h.before i (by omega) hi'
    · exact fun fuel => h.firstPart_skip (by omega) hp hsize

/-- The bits of the bitmap, and nothing set behind them. -/
def Bitmap.bare (b : Bitmap) : Bitmap := { b with buffer := b.buffer.below b.sizeOfBitMap }

/-- The bits of the bitmap, and one bit set behind them. -/
def Bitmap.followed (b : Bitmap) : Bitmap :=
  { b with buffer := (b.buffer.below b.sizeOfBitMap).setBit b.sizeOfBitMap }

theorem bit_bare : b.bare.bit i = (b.bit i && decide (i < b.sizeOfBitMap)) := bit_below

theorem bit_followed :
    b.followed.bit i = ((b.bit i && decide (i < b.sizeOfBitMap)) || decide (i = b.sizeOfBitMap)) := by
  rw [← bit_bare]
  exact bit_setBit

theorem bare_agree : AgreeOn b b.bare 0 b.sizeOfBitMap := by
  refine ⟨rfl, fun i _ hi => ?_⟩
  rw [bit_bare, decide_eq_true (by omega), Bool.and_true]

theorem followed_bit_lt (hi : i < b.sizeOfBitMap) : b.followed.bit i = b.bit i := by
  rw [bit_followed, decide_eq_true hi, decide_eq_false (by omega), Bool.and_true, Bool.or_false]

theorem followed_bit_size : b.followed.bit b.sizeOfBitMap = true := by
  rw [bit_followed, decide_eq_true rfl, Bool.or_true]

theorem followed_bit_gt (hi : b.sizeOfBitMap < i) : b.followed.bit i = false := by
  rw [bit_followed, decide_eq_false (by omega), decide_eq_false (by omega), Bool.and_false,
    Bool.or_false]

theorem followed_agree : AgreeOn b b.followed 0 b.sizeOfBitMap :=
  ⟨rfl, fun _ _ hi => (followed_bit_lt (by omega)).symm⟩

/-- A bit behind the last bit of a byte that is not full is taken for a run. -/
theorem size_mod_of_exact (hs : s < b.sizeOfBitMap)
    (hclear : ∀ i, s ≤ i → i < b.sizeOfBitMap → b.bit i = false) (h : RunExact true b s) :
    b.sizeOfBitMap % 8 = 0 := by
  have hsize := b.size_lt
  by_contra hmod
  have hfirst : FirstBit b.followed.buffer s b.sizeOfBitMap :=
    ⟨by omega, followed_bit_size, fun i hi hi' => (followed_bit_lt hi').trans (hclear i hi hi')⟩
  have hrun : RunTo b.followed.buffer b.sizeOfBitMap (b.sizeOfBitMap + 1) := by
    refine ⟨Nat.lt_succ_self _, fun i hi hi' => ?_, followed_bit_gt (Nat.lt_succ_self _)⟩
    rw [show i = b.sizeOfBitMap by omega]
    exact followed_bit_size
  obtain ⟨t, d, ht, hbyte, hstart, hreach⟩ := hfirst.reach (w := b.sizeOfBitMap) (by omega) hsize
  have hone : ∃ q, Finds b.followed.buffer b.sizeOfBitMap s (q, some 1) := by
    by_cases hlast : b.sizeOfBitMap % 8 = 7
    · have hpart := ht.firstPart_on (w := b.sizeOfBitMap) (f := 0) hbyte (by omega)
        fun i hi hi' => hrun.set i hi (by omega)
      rw [← hreach 1] at hpart
      have hcount : ∀ start, countOn b.followed.buffer b.sizeOfBitMap 1 1 start
          (b.sizeOfBitMap / 8 + 1) = some 1 := by
        intro start
        have hfirst : (b.followed.buffer (b.sizeOfBitMap / 8 + 1)).getLsbD 0 = false := by
          rw [← bit_byte (by decide)]
          exact followed_bit_gt (by omega)
        have hne : b.followed.buffer (b.sizeOfBitMap / 8 + 1) ≠ 0xff := by
          intro heq
          rw [heq] at hfirst
          cases hfirst
        rw [countOn, if_neg hne, hfirst]
        rfl
      rw [show 8 - b.sizeOfBitMap % 8 = 1 by omega] at hpart
      exact ⟨_, finds_of_on hpart (hcount _)⟩
    · have hpart := ht.firstPart_ended (w := b.sizeOfBitMap) (f := 0) hbyte hrun (by omega)
      rw [← hreach 1, Nat.add_sub_cancel_left] at hpart
      exact ⟨_, finds_of_ended hpart⟩
  obtain ⟨q, hq⟩ := hone
  obtain ⟨r, hr, hnext⟩ := h.finds hs followed_agree
  rw [← hq.unique hr] at hnext
  rcases hnext with ⟨hzero, -⟩ | ⟨p, -, hle, -, hpos, hin, hset, -⟩
  · cases hzero
  · have hp := hclear p hle (by omega)
    rw [hset p (Nat.le_refl p) (by omega)] at hp
    cases hp

/-- With a bit of the bitmap, the position is this bit and the run is not empty. -/
theorem IsNextRun.of_bit {r : ℕ × Option ℕ} (h : IsNextRun true b s r) (hle : s ≤ p)
    (hlt : p < b.sizeOfBitMap) (hp : b.bit p = true)
    (hbefore : ∀ i, s ≤ i → i < p → b.bit i = false) :
    r.2 = some p ∧ p + r.1 ≤ b.sizeOfBitMap ∧
      (p + r.1 < b.sizeOfBitMap → b.bit (p + r.1) = false) := by
  rcases h with ⟨-, hclear⟩ | ⟨q, hq, hsq, hq', hpos, hin, hset, hends⟩
  · rw [hclear p hle hlt] at hp
    cases hp
  · have heq : q = p := by
      rcases Nat.lt_trichotomy q p with h | h | h
      · have hclear := hbefore q hsq h
        rw [hset q (Nat.le_refl q) (by omega)] at hclear
        cases hclear
      · exact h
      · rw [hq' p hle h] at hp
        cases hp
    subst heq
    exact ⟨hq, hin, hends⟩

/-- The position is that of the first part. -/
theorem fst_of_finds {fuel q : ℕ} (h : Finds m w s r)
    (hpart : (∃ count, firstPart m w fuel s (s / 8) = some (.ended q count)) ∨
      ∃ count start lpOut, firstPart m w fuel s (s / 8) = some (.on q count start lpOut)) :
    r.1 = q := by
  obtain ⟨fuel', h⟩ := h
  have hboth := findRunIn_mono (n := fuel) h
  rw [findRunIn, Nat.add_comm] at hboth
  rcases hpart with ⟨count, hpart⟩ | ⟨count, start, lpOut, hpart⟩
  · rw [firstPart_mono hpart] at hboth
    exact congrArg Prod.fst (Option.some.inj hboth).symm
  · rw [firstPart_mono hpart] at hboth
    obtain ⟨l, -, heq⟩ := Option.map_eq_some_iff.mp hboth
    exact congrArg Prod.fst heq.symm

theorem positionKnown_of_exact (hle : s ≤ p) (hlt : p < b.sizeOfBitMap) (hp : b.bit p = true)
    (hbefore : ∀ i, s ≤ i → i < p → b.bit i = false) (h : RunExact true b s) :
    PositionKnown true b s p := by
  have hsize := b.size_lt
  have hlimit : ulongLimit = 0x100000000 := rfl
  by_contra hunknown
  simp only [PositionKnown, not_or] at hunknown
  obtain ⟨hoffset, hlater, hrest⟩ := hunknown
  have hbyte : s / 8 = p / 8 := by omega
  have hbit : ∀ i < b.sizeOfBitMap, b.bare.buffer.bit i = b.bit i :=
    fun i hi => (bare_agree.2 i (Nat.zero_le i) (by omega)).symm
  have hfirst : FirstBit b.bare.buffer s p :=
    ⟨hle, by rw [hbit p hlt, hp], fun i hi hi' => by rw [hbit i (by omega), hbefore i hi hi']⟩
  obtain ⟨r, hr, hnext⟩ := h.finds (Nat.lt_of_le_of_lt hle hlt) bare_agree
  have hposition := (hnext.of_bit hle hlt hp hbefore).1
  -- the offset of the start is counted twice
  have hput : r.1 = (s + p % 8) % ulongLimit := by
    by_cases hin : ∃ i, p ≤ i ∧ i < p / 8 * 8 + 8 ∧ b.bare.buffer.bit i = false
    · obtain ⟨e, he, hlast⟩ := exists_runTo hfirst.set hin
      have hpart := hfirst.firstPart_ended (w := b.sizeOfBitMap) (f := 0) hbyte he hlast
      rw [← hbyte] at hpart
      exact fst_of_finds hr (Or.inl ⟨_, hpart⟩)
    · have hall : ∀ i, p ≤ i → i < p / 8 * 8 + 8 → b.bare.buffer.bit i = true := by
        intro i hi hi'
        by_contra hclear
        exact hin ⟨i, hi, hi', Bool.eq_false_iff.mpr hclear⟩
      have hwhole : p / 8 * 8 + 8 ≤ b.sizeOfBitMap := by
        by_contra hpartial
        have hclear := hall b.sizeOfBitMap (by omega) (by omega)
        change b.bare.bit b.sizeOfBitMap = true at hclear
        rw [bit_bare, decide_eq_false (Nat.lt_irrefl _), Bool.and_false] at hclear
        cases hclear
      have hne : s ≠ p := by
        rintro rfl
        exact hrest ⟨hwhole, fun i hi hi' => by rw [← hbit i (by omega)]; exact hall i hi hi'⟩
      have hpart := hfirst.firstPart_on (w := b.sizeOfBitMap) (f := 0) hbyte (by omega) hall
      rw [← hbyte] at hpart
      exact fst_of_finds hr (Or.inr ⟨_, _, _, hpart⟩)
  have heq : p = (s + p % 8) % ulongLimit := by
    rw [← hput]
    exact (Option.some.inj hposition).symm
  rw [hlimit] at heq
  omega

theorem endKnown_of_exact (hle : s ≤ p) (hlt : p < b.sizeOfBitMap) (hp : b.bit p = true)
    (hbefore : ∀ i, s ≤ i → i < p → b.bit i = false) (hposition : PositionKnown true b s p)
    (h : RunExact true b s) : EndKnown true b p := by
  have hsize := b.size_lt
  have hlimit : ulongLimit = 0x100000000 := rfl
  by_contra hunknown
  simp only [EndKnown, not_or, not_exists, not_and] at hunknown
  obtain ⟨hin, hlast⟩ := hunknown
  have hall : ∀ i, p ≤ i → i < b.sizeOfBitMap → b.bit i = true := by
    intro i hi hi'
    exact Bool.of_not_eq_false (hin i hi hi')
  have hfirst : FirstBit b.followed.buffer s p :=
    ⟨hle, (followed_bit_lt hlt).trans hp,
      fun i hi hi' => (followed_bit_lt (by omega)).trans (hbefore i hi hi')⟩
  have hplaced : Placed b.followed.buffer s p := by
    refine hposition.imp_right (Or.imp_right ?_)
    rintro ⟨hwhole, hset⟩ i hi hi'
    exact (followed_bit_lt (by omega)).trans (hset i hi hi')
  have hrun : RunTo b.followed.buffer p (b.sizeOfBitMap + 1) := by
    refine ⟨by omega, fun i hi hi' => ?_, followed_bit_gt (Nat.lt_succ_self _)⟩
    rcases Nat.lt_or_ge i b.sizeOfBitMap with hi'' | hi''
    · exact (followed_bit_lt hi'').trans (hall i hi hi'')
    · rw [show i = b.sizeOfBitMap by omega]
      exact followed_bit_size
  have hfinds := hfirst.finds_runTo hplaced (w := b.sizeOfBitMap) (by omega) hsize hrun
    fun j hj hj' => by
      rw [hlimit]
      by_cases hbyte : p / 8 * 8 + 8 < b.sizeOfBitMap
      · have hmod := hlast hbyte
        omega
      · omega
  obtain ⟨r, hr, hnext⟩ := h.finds (Nat.lt_of_le_of_lt hle hlt) followed_agree
  rw [← hfinds.unique hr] at hnext
  obtain ⟨-, hcount, hends⟩ := hnext.of_bit hle hlt hp hbefore
  simp only [Option.getD_some] at hcount hends
  by_cases hfew : p + (b.sizeOfBitMap + 1 - p) % ulongLimit < b.sizeOfBitMap
  · have hclear := hends hfew
    rw [hall _ (by omega) hfew] at hclear
    cases hclear
  · rw [hlimit] at hfew hcount
    omega

theorem runExact_set_iff (hs : s < b.sizeOfBitMap) : RunExact true b s ↔ RunKnown true b s := by
  refine ⟨fun h => ?_, runExact_of_known hs⟩
  by_cases hbit : ∃ i, s ≤ i ∧ i < b.sizeOfBitMap ∧ b.buffer.bit i = true
  · obtain ⟨p, ⟨hle, hset, hbefore⟩, hlt⟩ := exists_firstBit hbit
    have hposition := positionKnown_of_exact hle hlt hset hbefore h
    exact Or.inr ⟨p, hle, hlt, hset, hbefore, hposition,
      endKnown_of_exact hle hlt hset hbefore hposition h⟩
  · have hclear : ∀ i, s ≤ i → i < b.sizeOfBitMap → b.bit i = false := by
      intro i hi hi'
      by_contra hset
      exact hbit ⟨i, hi, hi', Bool.of_not_eq_false hset⟩
    exact Or.inl ⟨hclear, size_mod_of_exact hs hclear h⟩

theorem not_not_bitmap : b.not.not = b := by
  obtain ⟨size, m, h⟩ := b
  simp only [Bitmap.not, Bitmap.mk.injEq, true_and]
  funext k
  exact BitVec.not_not

theorem runExact_clear_iff : RunExact false b s ↔ RunExact true b.not s := by
  have hnext : ∀ r, IsNextRun false b s r ↔ IsNextRun true b.not s r := by
    intro r
    simp only [IsNextRun, bit_not, Bool.not_true, Bool.not_false, Bool.not_eq_false',
      Bool.not_eq_true']
    rfl
  constructor
  · intro h b' hagree
    have hagree' := hagree.not
    rw [not_not_bitmap] at hagree'
    obtain ⟨fuel, r, hr, hrun⟩ := h b'.not hagree'
    refine ⟨fuel, r, ?_, (hnext r).mp hrun⟩
    have heq : nextRun false b'.not fuel s = nextRun true b'.not.not fuel s := rfl
    rw [heq, not_not_bitmap] at hr
    exact hr
  · intro h b' hagree
    obtain ⟨fuel, r, hr, hrun⟩ := h b'.not hagree.not
    exact ⟨fuel, r, hr, (hnext r).mpr hrun⟩

theorem runKnown_clear_iff : RunKnown false b s ↔ RunKnown true b.not s := by
  simp only [RunKnown, PositionKnown, EndKnown, bit_not, Bool.not_true, Bool.not_false,
    Bool.not_eq_false', Bool.not_eq_true']
  rfl

/-- The next run is exact behind every end exactly when its position and its end are known. -/
theorem next_run_exact_iff (v : Bool) (b : Bitmap) (ulStart : ℕ) (h : ulStart < b.sizeOfBitMap) :
    RunExact v b ulStart ↔ RunKnown v b ulStart := by
  cases v with
  | false =>
    rw [runExact_clear_iff, runKnown_clear_iff]
    exact runExact_set_iff h
  | true => exact runExact_set_iff h

theorem thirtyTwo_lt : 32 < ulongLimit := by decide

/-- Thirty-two bits, of which the third one is set. -/
def thirdBitSet : Bitmap where
  sizeOfBitMap := 32
  buffer k := if k = 0 then 4#8 else 0#8
  size_lt := thirtyTwo_lt

theorem next_run_exact_sample : RunExact true thirdBitSet 0 :=
  (next_run_exact_iff true thirdBitSet 0 (by decide)).mpr
    (Or.inr ⟨2, by decide, by decide, by decide, by decide, Or.inl rfl,
      Or.inl ⟨3, by decide, by decide, by decide⟩⟩)

/-- From the second bit on the third one is reported as the fourth. -/
theorem not_next_run_exact_unaligned :
    rtlFindNextForwardRunSet thirdBitSet 1 1 = some (1, some 3) ∧ ¬RunExact true thirdBitSet 1 := by
  refine ⟨by decide, fun h => ?_⟩
  have hposition := positionKnown_of_exact (p := 2) (by decide) (by decide) (by decide) (by decide) h
  rcases hposition with h | h | ⟨-, h⟩
  · exact absurd h (by decide)
  · exact absurd h (by decide)
  · exact absurd (h 1 (by decide) (by decide)) (by decide)

end Wine.Bitmaps
