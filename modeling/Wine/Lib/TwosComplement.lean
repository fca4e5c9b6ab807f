import Mathlib.Algebra.Order.Ring.Int
import Mathlib.Data.BitVec
import Mathlib.Tactic.Ring

/-!
# Numbers as lists of bytes

Little-endian lists of bytes as natural numbers and, in two's complement, as integers. A list is
minimal when no byte at its end may be left out, which bounds its number from below.
-/

namespace Wine.Lib

abbrev Octet := BitVec 8

def unsignedOf : List Octet → ℤ
  | [] => 0
  | b :: bs => b.toNat + 256 * unsignedOf bs

/-- The byte with the sign. -/
def octetInt (b : Octet) : ℤ := if b.toNat < 128 then b.toNat else b.toNat - 256

def signedOf : List Octet → ℤ
  | [] => 0
  | [b] => octetInt b
  | b :: c :: bs => b.toNat + 256 * signedOf (c :: bs)

/-- The byte that fills up a number whose last byte is `b`. -/
def signFill (b : Octet) : Octet := if b.toNat < 128 then 0 else 255

/-- The last byte is not implied by the one before it. -/
def Minimal (bs : List Octet) : Prop :=
  bs ≠ [] ∧ ∀ x b t, bs = x ++ [b, t] → t ≠ signFill b

/-- The numbers of `n` bytes. -/
def Fits (n : ℕ) (v : ℤ) : Prop := -(128 * 256 ^ (n - 1)) ≤ v ∧ v < 128 * 256 ^ (n - 1)

variable {b t : Octet} {bs x : List Octet} {n : ℕ}

theorem signedOf_cons (h : bs ≠ []) : signedOf (b :: bs) = b.toNat + 256 * signedOf bs := by
  cases bs with
  | nil => exact absurd rfl h
  | cons c bs => rfl

theorem octetInt_signFill : octetInt (signFill b) = if b.toNat < 128 then 0 else -1 := by
  unfold octetInt signFill
  split <;> rfl

theorem octetInt_fill : (b.toNat : ℤ) + 256 * octetInt (signFill b) = octetInt b := by
  rw [octetInt_signFill, octetInt]
  split <;> omega

theorem signedOf_fill : signedOf (x ++ [b, signFill b]) = signedOf (x ++ [b]) := by
  induction x with
  | nil => exact octetInt_fill
  | cons a x ih =>
    rw [List.cons_append, List.cons_append, signedOf_cons (by simp), signedOf_cons (by simp), ih]

theorem signedOf_zero : signedOf (x ++ [0]) = unsignedOf x := by
  induction x with
  | nil => rfl
  | cons a x ih =>
    rw [List.cons_append, signedOf_cons (by simp), ih]
    rfl

theorem signedOf_bounds (h : bs ≠ []) : Fits bs.length (signedOf bs) := by
  induction bs with
  | nil => exact absurd rfl h
  | cons b bs ih =>
    have hb := b.isLt
    cases bs with
    | nil =>
      simp only [Fits, signedOf, octetInt, List.length_singleton, Nat.sub_self, pow_zero]
      split <;> omega
    | cons c bs =>
      obtain ⟨hlo, hhi⟩ := ih (List.cons_ne_nil c bs)
      rw [Fits, signedOf_cons (List.cons_ne_nil c bs)]
      simp only [List.length_cons, Nat.add_sub_cancel, pow_succ] at hlo hhi ⊢
      generalize (256 : ℤ) ^ bs.length = k at hlo hhi
      omega

theorem unsignedOf_nonneg : 0 ≤ unsignedOf bs := by
  induction bs with
  | nil => exact le_refl 0
  | cons b bs ih =>
    rw [unsignedOf]
    omega

theorem unsignedOf_lt : unsignedOf bs < 256 ^ bs.length := by
  induction bs with
  | nil => exact zero_lt_one
  | cons b bs ih =>
    have hb := b.isLt
    rw [unsignedOf, List.length_cons, pow_succ]
    omega

theorem fits_mono {m : ℕ} {v : ℤ} (h : Fits n v) (hle : n ≤ m) : Fits m v := by
  obtain ⟨hlo, hhi⟩ := h
  have hpow : (256 : ℤ) ^ (n - 1) ≤ 256 ^ (m - 1) := pow_le_pow_right₀ (by omega) (by omega)
  unfold Fits
  omega

theorem fits_of_small {v : ℤ} (h : -128 ≤ v ∧ v < 128) : Fits n v := by
  have hone : Fits 0 v := by
    unfold Fits
    simp only [Nat.zero_sub, pow_zero]
    omega
  exact fits_mono hone (Nat.zero_le n)

theorem unsignedOf_snoc : unsignedOf (x ++ [b]) = unsignedOf x + 256 ^ x.length * b.toNat := by
  induction x with
  | nil =>
    simp only [List.nil_append, unsignedOf, List.length_nil, pow_zero, one_mul, mul_zero, zero_add,
      add_zero]
  | cons a x ih =>
    rw [List.cons_append, unsignedOf, ih, unsignedOf, List.length_cons, pow_succ]
    ring

theorem signedOf_snoc :
    signedOf (x ++ [b]) = unsignedOf x + 256 ^ x.length * octetInt b := by
  induction x with
  | nil =>
    simp only [List.nil_append, unsignedOf, List.length_nil, pow_zero, one_mul, zero_add]
    rfl
  | cons a x ih =>
    rw [List.cons_append, signedOf_cons (by simp), ih, unsignedOf, List.length_cons, pow_succ]
    ring

/-- The value with the sign taken from the last byte. -/
theorem signedOf_eq : signedOf (x ++ [b]) =
    unsignedOf (x ++ [b]) + 256 ^ (x ++ [b]).length * if b.toNat < 128 then 0 else -1 := by
  rw [← octetInt_signFill, ← signedOf_snoc, List.append_assoc, List.singleton_append, signedOf_fill]

theorem unsignedOf_of_nonneg (h : 0 ≤ signedOf bs) : unsignedOf bs = signedOf bs := by
  obtain rfl | ⟨x, b, rfl⟩ := bs.eq_nil_or_concat'
  · rfl
  · have hlt := @unsignedOf_lt (x ++ [b])
    rw [signedOf_eq] at h ⊢
    split
    · rw [mul_zero, add_zero]
    · next hb =>
      rw [if_neg hb] at h
      omega

theorem minimal_singleton : Minimal [b] := by
  refine ⟨List.cons_ne_nil _ _, fun x c t h => ?_⟩
  have hlen := congrArg List.length h
  simp only [List.length_append, List.length_cons, List.length_nil] at hlen
  omega

theorem minimal_pad (ht : t ≠ signFill b) : Minimal (x ++ [b, t]) := by
  refine ⟨by simp, fun y c u h => ?_⟩
  obtain ⟨-, heq⟩ := List.append_inj' h rfl
  cases heq
  exact ht

theorem minimal_snoc (h₀ : b ≠ 0) (h₁ : b ≠ 255) : Minimal (x ++ [b]) := by
  obtain rfl | ⟨y, c, rfl⟩ := x.eq_nil_or_concat'
  · exact minimal_singleton
  · rw [List.append_assoc]
    refine minimal_pad ?_
    unfold signFill
    split
    · exact h₀
    · exact h₁

/-- A number that needs its last byte. -/
theorem not_fits_of_minimal (h : Minimal (x ++ [b, t])) :
    ¬ Fits (x.length + 1) (signedOf (x ++ [b, t])) := by
  have ht : t ≠ signFill b := h.2 x b t rfl
  clear h
  rw [Fits, Nat.add_sub_cancel, not_and_or, not_le, not_lt]
  induction x with
  | nil =>
    have hb := b.isLt
    have htlt := t.isLt
    have hne : t.toNat ≠ (signFill b).toNat := fun heq => ht (BitVec.eq_of_toNat_eq heq)
    have hval : signedOf ([] ++ [b, t]) = b.toNat + 256 * octetInt t := rfl
    have hfill : (signFill b).toNat = if b.toNat < 128 then 0 else 255 := by
      unfold signFill
      split <;> rfl
    rw [hfill] at hne
    rw [hval, octetInt, List.length_nil, pow_zero]
    split at hne
    all_goals split <;> omega
  | cons a x ih =>
    have ha := a.isLt
    rw [List.cons_append, signedOf_cons (by simp), List.length_cons]
    simp only [pow_succ]
    generalize (256 : ℤ) ^ x.length = k at ih
    generalize signedOf (x ++ [b, t]) = v at ih
    omega

/-- A minimal list has the least number of bytes. -/
theorem fits_iff_of_minimal (h : Minimal bs) (hn : n ≠ 0) :
    Fits n (signedOf bs) ↔ bs.length ≤ n := by
  refine ⟨fun hfits => ?_, fits_mono (signedOf_bounds h.1)⟩
  obtain rfl | ⟨x, t, rfl⟩ := bs.eq_nil_or_concat'
  · exact Nat.zero_le n
  obtain rfl | ⟨y, b, rfl⟩ := x.eq_nil_or_concat'
  · exact Nat.one_le_iff_ne_zero.mpr hn
  rw [List.append_assoc] at h hfits ⊢
  by_contra hlt
  refine not_fits_of_minimal h (fits_mono hfits ?_)
  simp only [List.length_append, List.length_cons, List.length_nil] at hlt
  omega

theorem eq_of_minimal_neg_one (h : Minimal bs) (hv : signedOf bs = -1) : bs = [255] := by
  have hlen : bs.length ≤ 1 := by
    refine (fits_iff_of_minimal h one_ne_zero).mp ?_
    rw [hv]
    exact fits_of_small (by decide)
  cases bs with
  | nil => exact absurd rfl h.1
  | cons b bs =>
    cases bs with
    | cons c bs =>
      simp only [List.length_cons] at hlen
      omega
    | nil =>
      have hb : octetInt b = -1 := hv
      unfold octetInt at hb
      have hnat : b.toNat = 255 := by
        split at hb <;> omega
      have heq : b = 255 := BitVec.eq_of_toNat_eq hnat
      rw [heq]

end Wine.Lib
