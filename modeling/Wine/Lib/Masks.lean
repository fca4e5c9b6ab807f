import Mathlib.Tactic.Common

/-!
# Bit masks as sets of bits
-/

namespace Wine.Lib

variable {w : ℕ}

/-- Every bit of `y` is a bit of `x`. -/
def Covers (x y : BitVec w) : Prop :=
  ∀ i, y.getLsbD i → x.getLsbD i

/-- Some bit is set in both masks. -/
def Overlaps (x y : BitVec w) : Prop :=
  ∃ i, x.getLsbD i ∧ y.getLsbD i

theorem and_eq_right_iff (x y : BitVec w) : x &&& y = y ↔ Covers x y := by
  constructor
  · intro h i hi
    rw [← h, BitVec.getLsbD_and, Bool.and_eq_true] at hi
    exact hi.1
  · intro h
    apply BitVec.eq_of_getLsbD_eq
    intro i _
    rw [BitVec.getLsbD_and]
    cases hy : y.getLsbD i with
    | false => rw [Bool.and_false]
    | true => rw [h i hy, Bool.and_true]

theorem and_eq_left_iff (x y : BitVec w) : x &&& y = x ↔ Covers y x := by
  rw [BitVec.and_comm]
  exact and_eq_right_iff y x

theorem and_eq_zero_iff (x y : BitVec w) : x &&& y = 0 ↔ ¬Overlaps x y := by
  constructor
  · rintro h ⟨i, hx, hy⟩
    have hi : (x &&& y).getLsbD i = true := by rw [BitVec.getLsbD_and, hx, hy, Bool.and_true]
    rw [h] at hi
    simp at hi
  · intro h
    apply BitVec.eq_of_getLsbD_eq
    intro i _
    rw [BitVec.getLsbD_and, BitVec.ofNat_eq_ofNat, BitVec.getLsbD_zero]
    by_contra hxy
    rw [Bool.not_eq_false, Bool.and_eq_true] at hxy
    exact h ⟨i, hxy⟩

instance (x y : BitVec w) : Decidable (Covers x y) :=
  decidable_of_iff _ (and_eq_right_iff x y)

instance (x y : BitVec w) : Decidable (Overlaps x y) :=
  decidable_of_iff (¬x &&& y = 0) ((and_eq_zero_iff x y).not.trans not_not)

theorem Covers.refl (x : BitVec w) : Covers x x :=
  fun _ h => h

theorem overlaps_comm (x y : BitVec w) : Overlaps x y ↔ Overlaps y x :=
  exists_congr fun _ => and_comm

theorem Overlaps.mono {x y z : BitVec w} (h : Overlaps x z) (hyz : Covers y z) : Overlaps x y :=
  h.imp fun i hi => ⟨hi.1, hyz i hi.2⟩

theorem overlaps_or_left (x y z : BitVec w) :
    Overlaps (x ||| y) z ↔ Overlaps x z ∨ Overlaps y z := by
  simp only [Overlaps, BitVec.getLsbD_or, Bool.or_eq_true, or_and_right, exists_or]

/-- Clearing the bits of a mask leaves none of them. -/
theorem not_overlaps_and_not {x y z : BitVec w} (h : Covers y z) : ¬Overlaps (x &&& ~~~y) z := by
  rintro ⟨i, hx, hz⟩
  rw [BitVec.getLsbD_and, BitVec.getLsbD_not, h i hz] at hx
  simp at hx

theorem overlaps_and_not_iff {x y z : BitVec w} (h : ¬Overlaps y z) :
    Overlaps (x &&& ~~~y) z ↔ Overlaps x z := by
  refine exists_congr fun i => and_congr_left fun hz => ?_
  have hy : y.getLsbD i = false := by
    by_contra hy
    rw [Bool.not_eq_false] at hy
    exact h ⟨i, hy, hz⟩
  have hi : i < w := BitVec.lt_of_getLsbD hz
  rw [BitVec.getLsbD_and, BitVec.getLsbD_not, hy]
  simp [hi]

@[simp] theorem not_overlaps_zero (x : BitVec w) : ¬Overlaps x 0#w := by
  rintro ⟨i, _, h⟩
  simp at h

@[simp] theorem zero_not_overlaps (x : BitVec w) : ¬Overlaps 0#w x := by
  rintro ⟨i, h, _⟩
  simp at h

@[simp] theorem covers_zero (x : BitVec w) : Covers x 0#w := by
  intro i h
  simp at h

theorem overlaps_twoPow (x : BitVec w) {i : ℕ} (hi : i < w) :
    Overlaps x (BitVec.twoPow w i) ↔ x.getLsbD i := by
  constructor
  · rintro ⟨j, hx, hj⟩
    rw [BitVec.getLsbD_twoPow, Bool.and_eq_true, decide_eq_true_eq, decide_eq_true_eq] at hj
    exact hj.2 ▸ hx
  · intro hx
    exact ⟨i, hx, by simp [hi]⟩

theorem covers_twoPow (x : BitVec w) {i : ℕ} (hi : i < w) :
    Covers x (BitVec.twoPow w i) ↔ x.getLsbD i := by
  constructor
  · intro h
    exact h i (by simp [hi])
  · intro hx j hj
    rw [BitVec.getLsbD_twoPow, Bool.and_eq_true, decide_eq_true_eq, decide_eq_true_eq] at hj
    exact hj.2 ▸ hx

/-- All bits of a list of masks. -/
def union (l : List (BitVec w)) : BitVec w :=
  l.foldr (· ||| ·) 0

@[simp] theorem union_nil : union ([] : List (BitVec w)) = 0 := rfl

@[simp] theorem union_cons (x : BitVec w) (l : List (BitVec w)) :
    union (x :: l) = x ||| union l := rfl

end Wine.Lib

/-!
## Rows of bytes as rows of bits

The bits of a row of bytes are counted from the least significant bit of the first byte on. What a
byte operation does to the row is said bit by bit.
-/

namespace Wine.Lib

abbrev Bytes := ℕ → BitVec 8

namespace Bytes

variable {m : Bytes} {k n i j : ℕ} {v : BitVec 8}

def bit (m : Bytes) (i : ℕ) : Bool := (m (i / 8)).getLsbD (i % 8)

/-- `m[k] |= v` -/
def orAt (m : Bytes) (k : ℕ) (v : BitVec 8) : Bytes := Function.update m k (m k ||| v)

/-- `m[k] &= v` -/
def andAt (m : Bytes) (k : ℕ) (v : BitVec 8) : Bytes := Function.update m k (m k &&& v)

/-- The `n` bytes from `k` on become `v`. -/
def fill (m : Bytes) (k n : ℕ) (v : BitVec 8) : Bytes := fun j => if k ≤ j ∧ j < k + n then v else m j

/-- Every bit is inverted. -/
def not (m : Bytes) : Bytes := fun j => ~~~m j

/-- The bits from `n` on are cleared. -/
def below (m : Bytes) (n : ℕ) : Bytes := fun j => m j &&& ~~~(0xff#8 <<< (n - 8 * j))

def setBit (m : Bytes) (n : ℕ) : Bytes := m.orAt (n / 8) (1#8 <<< (n % 8))

theorem bit_byte (hj : j < 8) : m.bit (8 * k + j) = (m k).getLsbD j := by
  rw [bit, Nat.mul_add_div (by decide), Nat.div_eq_of_lt hj, Nat.add_zero, Nat.mul_add_mod,
    Nat.mod_eq_of_lt hj]

@[simp] theorem bit_not : m.not.bit i = !m.bit i := by
  have hi : i % 8 < 8 := Nat.mod_lt _ (by decide)
  rw [bit, bit, not, BitVec.getLsbD_not, decide_eq_true hi, Bool.true_and]

theorem bit_orAt : (m.orAt k v).bit i = (m.bit i || (decide (i / 8 = k) && v.getLsbD (i % 8))) := by
  rw [bit, bit, orAt, Function.update_apply]
  by_cases h : i / 8 = k
  · rw [if_pos h, BitVec.getLsbD_or, h, decide_eq_true rfl, Bool.true_and]
  · rw [if_neg h, decide_eq_false h, Bool.false_and, Bool.or_false]

theorem bit_andAt :
    (m.andAt k v).bit i = (m.bit i && !(decide (i / 8 = k) && !v.getLsbD (i % 8))) := by
  rw [bit, bit, andAt, Function.update_apply]
  by_cases h : i / 8 = k
  · rw [if_pos h, BitVec.getLsbD_and, h, decide_eq_true rfl, Bool.true_and, Bool.not_not]
  · rw [if_neg h, decide_eq_false h, Bool.false_and, Bool.not_false, Bool.and_true]

theorem bit_fill : (m.fill k n v).bit i =
    if 8 * k ≤ i ∧ i < 8 * (k + n) then v.getLsbD (i % 8) else m.bit i := by
  rw [bit, bit, fill]
  have hiff : (k ≤ i / 8 ∧ i / 8 < k + n) ↔ 8 * k ≤ i ∧ i < 8 * (k + n) := by omega
  simp only [hiff]
  split <;> rfl

theorem bit_below : (m.below n).bit i = (m.bit i && decide (i < n)) := by
  have hi : i % 8 < 8 := Nat.mod_lt _ (by decide)
  have hall : ∀ j < 8, BitVec.getLsbD 0xff#8 j = true := by decide
  rw [bit, bit, below, BitVec.getLsbD_and, BitVec.getLsbD_not, BitVec.getLsbD_shiftLeft,
    hall _ (by omega)]
  congr 1
  simp only [hi, decide_true, Bool.true_and, Bool.and_true, Bool.not_not, decide_eq_decide]
  omega

theorem bit_setBit : (m.setBit n).bit i = (m.bit i || decide (i = n)) := by
  have hi : i % 8 < 8 := Nat.mod_lt _ (by decide)
  have hone : ∀ j < 8, ∀ s < 8, (1#8 <<< s).getLsbD j = decide (j = s) := by decide
  rw [setBit, bit_orAt, hone _ hi _ (Nat.mod_lt _ (by decide)), ← Bool.decide_and]
  congr 1
  rw [decide_eq_decide]
  omega

/-- A byte has exactly the bits of a mask. -/
theorem and_eq_right_iff : m k &&& v = v ↔ ∀ i, i / 8 = k → v.getLsbD (i % 8) → m.bit i := by
  rw [Lib.and_eq_right_iff]
  constructor
  · rintro h i rfl hv
    exact h _ hv
  · intro h j hv
    have hj : j < 8 := BitVec.lt_of_getLsbD hv
    have hbit := h (8 * k + j) (by omega) (by rwa [Nat.mul_add_mod, Nat.mod_eq_of_lt hj])
    rwa [bit_byte hj] at hbit

theorem and_eq_zero_iff :
    m k &&& v = 0 ↔ ∀ i, i / 8 = k → v.getLsbD (i % 8) → m.bit i = false := by
  rw [Lib.and_eq_zero_iff]
  constructor
  · rintro h i rfl hv
    exact Bool.eq_false_iff.mpr fun hi => h ⟨_, hi, hv⟩
  · rintro h ⟨j, hm, hv⟩
    have hj : j < 8 := BitVec.lt_of_getLsbD hv
    have hbit := h (8 * k + j) (by omega) (by rwa [Nat.mul_add_mod, Nat.mod_eq_of_lt hj])
    rw [bit_byte hj, hm] at hbit
    cases hbit

theorem byte_full_iff : m k = 0xff ↔ ∀ i, 8 * k ≤ i → i < 8 * k + 8 → m.bit i = true := by
  have hand : m k &&& 0xff = m k := BitVec.and_allOnes
  have hall : ∀ j < 8, BitVec.getLsbD 0xff#8 j = true := by decide
  rw [← hand, and_eq_right_iff]
  constructor
  · exact fun h i hi hi' => h i (by omega) (hall _ (Nat.mod_lt _ (by decide)))
  · exact fun h i hi _ => h i (by omega) (by omega)

end Bytes

end Wine.Lib
