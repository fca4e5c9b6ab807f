import Mathlib.Data.Nat.Digits.Lemmas
import Wine.Crypt32.Integers

/-!
# Lengths of any size

The length bytes are the shortest form of the length, and reading them gives the length back.
-/

namespace Wine.Crypt32

variable {data contents bytes rest : List Byte} {n m k i : ℕ} {len temp : Dword} {tag : Byte}

/-! ## Writing -/

/-- The top byte of a double word is zero. -/
theorem and_top_eq_zero_iff : temp &&& 0xff000000 = 0 ↔ temp.toNat < 2 ^ 24 := by
  change temp &&& 0xff000000#32 = 0#32 ↔ temp.toNat < 2 ^ 24
  have hshift : temp >>> 24 = 0#32 ↔ temp.toNat < 2 ^ 24 := by
    rw [BitVec.toNat_eq, BitVec.toNat_ushiftRight, Nat.shiftRight_eq_div_pow]
    exact Nat.div_eq_zero_iff_lt (by decide)
  rw [← hshift]
  constructor
  · intro h
    apply BitVec.eq_of_getLsbD_eq
    intro j hj
    have hbit := congrArg (fun v => v.getLsbD (24 + j)) h
    simp only [BitVec.getLsbD_and, BitVec.getLsbD_zero] at hbit
    rw [BitVec.getLsbD_ushiftRight, BitVec.getLsbD_zero]
    by_cases hlt : 24 + j < 32
    · have hmask : (0xff000000#32).getLsbD (24 + j) = true := by
        have hj8 : j < 8 := by omega
        interval_cases j <;> rfl
      rwa [hmask, Bool.and_true] at hbit
    · exact BitVec.getLsbD_of_ge _ _ (Nat.le_of_not_lt hlt)
  · intro h
    apply BitVec.eq_of_getLsbD_eq
    intro j hj
    rw [BitVec.getLsbD_and, BitVec.getLsbD_zero]
    by_cases hge : 24 ≤ j
    · have hbit := congrArg (fun v => v.getLsbD (j - 24)) h
      simp only [BitVec.getLsbD_ushiftRight, BitVec.getLsbD_zero] at hbit
      rw [show 24 + (j - 24) = j by omega] at hbit
      rw [hbit, Bool.false_and]
    · have hmask : (0xff000000#32).getLsbD j = false := by
        have hj24 : j < 24 := by omega
        interval_cases j <;> rfl
      rw [hmask, Bool.and_false]

/-- The loop finds the number of digits. -/
theorem significantBytes_eq (hk : k ≤ 4) (hn : n < 256 ^ k) :
    significantBytes k (BitVec.ofNat 32 (n * 256 ^ (4 - k))) = (Nat.digits 256 n).length := by
  induction k with
  | zero =>
    obtain rfl : n = 0 := Nat.lt_one_iff.mp hn
    rfl
  | succ k ih =>
    have hpow : 256 ^ (4 - k) = 256 ^ (4 - (k + 1)) * 256 := by
      rw [← Nat.pow_succ]
      congr 1
      omega
    have htop : 256 ^ k * 256 ^ (4 - (k + 1)) = 2 ^ 24 := by
      rw [← Nat.pow_add, show k + (4 - (k + 1)) = 3 by omega]
      rfl
    have hall : 256 ^ (k + 1) * 256 ^ (4 - (k + 1)) = 2 ^ 32 := by
      rw [← Nat.pow_add, show k + 1 + (4 - (k + 1)) = 4 by omega]
      rfl
    have hpos : 0 < 256 ^ (4 - (k + 1)) := Nat.pow_pos (by decide)
    have hfit : n * 256 ^ (4 - (k + 1)) < 2 ^ 32 := hall ▸ Nat.mul_lt_mul_of_pos_right hn hpos
    have htemp := BitVec.toNat_ofNat (n * 256 ^ (4 - (k + 1))) 32
    rw [Nat.mod_eq_of_lt hfit] at htemp
    rw [significantBytes]
    by_cases hlt : n < 256 ^ k
    · have hsmall : n * 256 ^ (4 - (k + 1)) < 2 ^ 24 := htop ▸ Nat.mul_lt_mul_of_pos_right hlt hpos
      rw [← htemp] at hsmall
      rw [if_pos (and_top_eq_zero_iff.mpr hsmall), ← ih (by omega) hlt, hpow, ← Nat.mul_assoc]
      congr 1
      apply BitVec.eq_of_toNat_eq
      rw [BitVec.toNat_shiftLeft, BitVec.toNat_ofNat, BitVec.toNat_ofNat, Nat.shiftLeft_eq,
        Nat.mod_mul_mod]
    · have hle := Nat.le_of_not_lt hlt
      have hlarge : ¬n * 256 ^ (4 - (k + 1)) < 2 ^ 24 :=
        Nat.not_lt.mpr (htop ▸ Nat.mul_le_mul_right _ hle)
      rw [← htemp] at hlarge
      rw [if_neg (fun h => hlarge (and_top_eq_zero_iff.mp h))]
      have hupper := (Nat.digits_length_le_iff (b := 256) (by decide) n).mpr hn
      have hlower := (Nat.lt_digits_length_iff (b := 256) (by decide) n).mpr hle
      omega

/-- The loop stores the digits. -/
theorem lenDigits_eq (h : (Nat.digits 256 len.toNat).length = k) :
    lenDigits k len = (Nat.digits 256 len.toNat).reverse.map (BitVec.ofNat 8) := by
  induction k generalizing len with
  | zero =>
    rw [List.length_eq_zero_iff.mp h]
    rfl
  | succ k ih =>
    have hpos : 0 < len.toNat := by
      by_contra hzero
      rw [Nat.eq_zero_of_not_pos hzero, Nat.digits_zero] at h
      exact nomatch h
    have hdigits := Nat.digits_def' (b := 256) (by decide) hpos
    have hshift : (len >>> 8).toNat = len.toNat / 256 := by
      rw [BitVec.toNat_ushiftRight, Nat.shiftRight_eq_div_pow]
    rw [hdigits, List.length_cons] at h
    rw [lenDigits, ih (by rw [hshift]; omega), hshift, hdigits, List.reverse_cons, List.map_append]
    congr 2
    apply BitVec.eq_of_toNat_eq
    rw [BitVec.toNat_setWidth, BitVec.toNat_ofNat]
    omega

theorem lenBytesNeeded_eq (len : Dword) : lenBytesNeeded len = (derLength len.toNat).length := by
  have hle : len ≤ 0x7f ↔ len.toNat < 128 := BitVec.le_def.trans Nat.lt_succ_iff.symm
  rw [lenBytesNeeded, derLength]
  by_cases h : len.toNat < 128
  · rw [if_pos (hle.mpr h), if_pos h]
    rfl
  · have hsig := significantBytes_eq (k := 4) (Nat.le_refl 4) len.isLt
    rw [Nat.sub_self, Nat.pow_zero, Nat.mul_one, BitVec.ofNat_toNat, BitVec.setWidth_eq] at hsig
    rw [if_neg (fun h' => h (hle.mp h')), if_neg h, hsig, List.length_cons,
      List.length_map, List.length_reverse]

/-- What is written is the shortest form. -/
theorem encodeLen_derLength (len : Dword) : encodeLen len (some (lenBytesNeeded len)) =
    some (lenBytesNeeded len, derLength len.toNat) := by
  have hle : len ≤ 0x7f ↔ len.toNat < 128 := BitVec.le_def.trans Nat.lt_succ_iff.symm
  rw [encodeLen, lenBytesNeeded, derLength]
  by_cases h : len.toNat < 128
  · rw [if_pos (hle.mpr h), if_pos h, if_pos (hle.mpr h)]
    refine (if_neg (Nat.lt_irrefl _)).trans ?_
    congr 3
  · have hsig := significantBytes_eq (k := 4) (Nat.le_refl 4) len.isLt
    rw [Nat.sub_self, Nat.pow_zero, Nat.mul_one, BitVec.ofNat_toNat, BitVec.setWidth_eq] at hsig
    rw [if_neg (fun h' => h (hle.mp h')), if_neg h, if_neg (fun h' => h (hle.mp h')), hsig,
      lenDigits_eq rfl]
    refine (if_neg (Nat.lt_irrefl _)).trans ?_
    have hfour : (Nat.digits 256 len.toNat).length ≤ 4 :=
      (Nat.digits_length_le_iff (b := 256) (by decide) _).mpr len.isLt
    congr 3
    generalize (Nat.digits 256 len.toNat).length = d at hfour
    interval_cases d <;> rfl

theorem lenBytesNeeded_ofNat (h : m < 2 ^ 32) :
    lenBytesNeeded (BitVec.ofNat 32 m) = (derLength m).length := by
  rw [lenBytesNeeded_eq, BitVec.toNat_ofNat, Nat.mod_eq_of_lt h]

theorem encodeLen_ofNat (h : m < 2 ^ 32) :
    encodeLen (BitVec.ofNat 32 m) (some (derLength m).length) =
      some ((derLength m).length, derLength m) := by
  have hlen := encodeLen_derLength (BitVec.ofNat 32 m)
  rwa [lenBytesNeeded_ofNat h, BitVec.toNat_ofNat, Nat.mod_eq_of_lt h] at hlen

/-! ## Reading -/

theorem ok_bind {α β : Type} (a : α) (f : α → Except DecodeError β) :
    (Except.ok a >>= f) = f a := rfl

theorem readByte_eq {b : Byte} (h : data[i]? = some b) : readByte data i = .ok b := by
  rw [readByte, h]

theorem shift_or (z : ℤ) (b : Byte) :
    (BitVec.ofInt 32 z <<< 8) ||| b.setWidth 32 = BitVec.ofInt 32 (256 * z + b.toNat) := by
  have hand : (BitVec.ofInt 32 z <<< 8) &&& b.setWidth 32 = 0#32 := by
    refine BitVec.eq_of_getLsbD_eq fun i _ => ?_
    rw [BitVec.getLsbD_and, BitVec.getLsbD_shiftLeft, BitVec.getLsbD_setWidth, BitVec.getLsbD_zero]
    by_cases hi : i < 8
    · simp [hi]
    · rw [BitVec.getLsbD_of_ge b i (Nat.not_lt.mp hi), Bool.and_false, Bool.and_false]
  rw [← BitVec.add_eq_or_of_and_eq_zero _ _ hand, BitVec.shiftLeft_eq_mul_twoPow, mul_comm 256 z,
    BitVec.ofInt_add, BitVec.ofInt_mul, BitVec.ofInt_natCast, BitVec.ofNat_toNat]
  rfl

/-- The loop reads the digits, the first one first. -/
theorem lenLoop_eq (digits : List ℕ) (hdigits : ∀ d ∈ digits, d < 256) (out : ℕ)
    (hdata : data.drop i = digits.reverse.map (BitVec.ofNat 8) ++ rest) :
    lenLoop data digits.length i (BitVec.ofNat 32 out) =
      .ok (BitVec.ofNat 32 (out * 256 ^ digits.length + Nat.ofDigits 256 digits)) := by
  induction digits using List.reverseRecOn generalizing i out with
  | nil => rw [List.length_nil, lenLoop, Nat.pow_zero, Nat.mul_one, Nat.ofDigits_nil, Nat.add_zero]
  | append_singleton digits d ih =>
    have hd : d < 256 := hdigits d (List.mem_append_right _ List.mem_cons_self)
    rw [List.reverse_append, List.reverse_singleton, List.singleton_append, List.map_cons,
      List.cons_append] at hdata
    have hget : data[i]? = some (BitVec.ofNat 8 d) := by
      have h0 := congrArg (fun l => l[0]?) hdata
      simpa [List.getElem?_drop] using h0
    have hnext : data.drop (i + 1) = digits.reverse.map (BitVec.ofNat 8) ++ rest := by
      have h1 := congrArg List.tail hdata
      rwa [List.tail_drop, List.tail_cons] at h1
    have hor : BitVec.ofNat 32 out <<< 8 ||| (BitVec.ofNat 8 d).setWidth 32 =
        BitVec.ofNat 32 (256 * out + d) := by
      have h := shift_or out (BitVec.ofNat 8 d)
      rw [BitVec.ofInt_natCast, BitVec.toNat_ofNat, Nat.mod_eq_of_lt hd] at h
      have hcast : 256 * (out : ℤ) + (d : ℕ) = ((256 * out + d : ℕ) : ℤ) := by
        push_cast
        ring
      rw [hcast, BitVec.ofInt_natCast] at h
      exact h
    rw [List.length_append, List.length_singleton, lenLoop, readByte_eq hget, ok_bind, hor,
      ih (fun x hx => hdigits x (List.mem_append_left _ hx)) _ hnext, Nat.ofDigits_append,
      Nat.ofDigits_singleton]
    congr 2
    rw [Nat.pow_succ]
    ring

/-- Of an encoding, what the decoders look at first. -/
theorem getLen_derLength (hm : m ≤ contents.length) (hlt : data.length < 2 ^ 32)
    (hdata : data = tag :: (derLength m ++ contents)) :
    readByte data 0 = .ok tag ∧
    getLen data (BitVec.ofNat 32 data.length) = .ok (BitVec.ofNat 32 m) ∧
    (∃ b, readByte data 1 = .ok b ∧ getLenBytes b = (derLength m).length) ∧
    data.drop (1 + (derLength m).length) = contents := by
  have hread : readByte data 0 = .ok tag := by
    rw [hdata]
    rfl
  have hdrop : data.drop (1 + (derLength m).length) = contents := by
    rw [hdata, Nat.add_comm, List.drop_succ_cons, List.drop_left]
  refine ⟨hread, ?_⟩
  have hlen : 1 + (derLength m).length + m ≤ data.length := by
    rw [hdata, List.length_cons, List.length_append]
    omega
  by_cases h : m < 128
  · rw [derLength, if_pos h] at hdata hlen hdrop ⊢
    rw [List.length_singleton] at hlen
    have hone : readByte data 1 = .ok (BitVec.ofNat 8 m) := by
      rw [hdata]
      rfl
    have hle : BitVec.ofNat 8 m ≤ 0x7f := by bv_omega
    have hwide : (BitVec.ofNat 8 m).setWidth 32 = BitVec.ofNat 32 m :=
      BitVec.setWidth_ofNat_of_le_of_lt (by decide) (by omega)
    refine ⟨?_, ⟨_, hone, by rw [getLenBytes, if_pos hle, List.length_singleton]⟩, hdrop⟩
    rw [getLen, if_neg (by bv_omega), hone]
    refine (if_pos hle).trans ?_
    rw [hwide]
    exact if_neg (by bv_omega)
  · rw [derLength, if_neg h] at hdata hlen hdrop ⊢
    rw [List.length_cons, List.length_map, List.length_reverse] at hlen ⊢
    obtain ⟨d, hd⟩ : ∃ d, (Nat.digits 256 m).length = d := ⟨_, rfl⟩
    have hdle : d ≤ 4 := by
      rw [← hd]
      exact (Nat.digits_length_le_iff (b := 256) (by decide) m).mpr (by omega)
    have hdpos : 0 < d := by
      rw [← hd]
      exact (Nat.lt_digits_length_iff (b := 256) (by decide) m).mpr (by omega)
    have hone : readByte data 1 = .ok (BitVec.ofNat 8 (128 + d)) := by
      rw [hdata, hd]
      rfl
    have hbytes : getLenBytes (BitVec.ofNat 8 (128 + d)) = d + 1 := by
      interval_cases d <;> rfl
    have hgt : ¬BitVec.ofNat 8 (128 + d) ≤ 0x7f := by
      interval_cases d <;> decide
    refine ⟨?_, ⟨_, hone, hbytes.trans (by rw [hd])⟩, ?_⟩
    · have htwo : data.drop 2 = (Nat.digits 256 m).reverse.map (BitVec.ofNat 8) ++ contents := by
        rw [hdata]
        rfl
      have hloop := lenLoop_eq (Nat.digits 256 m)
        (fun x hx => Nat.digits_lt_base (by decide) hx) 0 htwo
      rw [Nat.ofDigits_digits, Nat.zero_mul, Nat.zero_add, hd] at hloop
      rw [getLen, if_neg (by bv_omega), hone]
      refine (if_neg hgt).trans ?_
      rw [hbytes, if_neg (by omega), if_neg (by bv_omega), Nat.add_sub_cancel]
      refine (congrArg (· >>= _) hloop).trans ?_
      exact if_neg (by bv_omega)
    · rw [List.length_cons, List.length_map, List.length_reverse] at hdrop
      exact hdrop

end Wine.Crypt32
