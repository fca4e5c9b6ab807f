import Wine.Libwine.Utf8
import Mathlib.Data.List.Basic

/-!
# Encoding and decoding are inverse

The encoder stores the concatenation of one sequence for each character. The decoder reads
exactly these sequences: it takes back each of them, and whatever else it accepts ends in a
sequence that the end of the input has cut short.
-/

namespace Wine.Utf8

/-! ## Bytes as numbers -/

/-- The bytes that may follow the first byte of a sequence. -/
def Continuation (b : Byte) : Prop := b ^^^ 0x80 < 0x40

instance : DecidablePred Continuation := fun b =>
  inferInstanceAs (Decidable (b ^^^ 0x80 < 0x40))

theorem Continuation.toNat {b : Byte} (h : Continuation b) :
    b.toNat = 0x80 + (b ^^^ 0x80).toNat ∧ (b ^^^ 0x80).toNat < 0x40 := by
  revert b
  decide

theorem toNat_or_80 {x : Byte} (h : x.toNat < 0x40) : (0x80 ||| x).toNat = 0x80 + x.toNat :=
  (BitVec.toNat_or ..).trans (Nat.two_pow_add_eq_or_of_lt (i := 6) h 2).symm

theorem toNat_or_c0 {x : Byte} (h : x.toNat < 0x20) : (0xc0 ||| x).toNat = 0xc0 + x.toNat :=
  (BitVec.toNat_or ..).trans (Nat.two_pow_add_eq_or_of_lt (i := 5) h 6).symm

theorem toNat_or_e0 {x : Byte} (h : x.toNat < 0x10) : (0xe0 ||| x).toNat = 0xe0 + x.toNat :=
  (BitVec.toNat_or ..).trans (Nat.two_pow_add_eq_or_of_lt (i := 4) h 14).symm

/-- The lengths that concern the encoder, by the first byte. -/
theorem utf8Length_iff (b : Byte) : (utf8Length b = 1 ↔ 0xc0 ≤ b.toNat ∧ b.toNat < 0xe0) ∧
    (utf8Length b = 2 ↔ 0xe0 ≤ b.toNat ∧ b.toNat < 0xf0) ∧ utf8Length b ≤ 5 ∧
    (0x80 ≤ b.toNat → b.toNat < 0xc0 → Continuation b) := by
  revert b
  decide +kernel

theorem continuation_of_toNat {b : Byte} (h : 0x80 ≤ b.toNat) (h' : b.toNat < 0xc0) :
    Continuation b :=
  (utf8Length_iff b).2.2.2 h h'

theorem toNat_lead_one {b : Byte} (h : utf8Length b = 1) :
    b.toNat = 0xc0 + (b &&& utf8Mask 1).toNat ∧ (b &&& utf8Mask 1).toNat < 0x20 := by
  obtain ⟨hge, hlt⟩ := (utf8Length_iff b).1.mp h
  have hmod : (b &&& utf8Mask 1).toNat = b.toNat % 2 ^ 5 :=
    (BitVec.toNat_and ..).trans (Nat.and_two_pow_sub_one_eq_mod b.toNat 5)
  omega

theorem toNat_lead_two {b : Byte} (h : utf8Length b = 2) :
    b.toNat = 0xe0 + (b &&& utf8Mask 2).toNat ∧ (b &&& utf8Mask 2).toNat < 0x10 := by
  obtain ⟨hge, hlt⟩ := (utf8Length_iff b).2.1.mp h
  have hmod : (b &&& utf8Mask 2).toNat = b.toNat % 2 ^ 4 :=
    (BitVec.toNat_and ..).trans (Nat.and_two_pow_sub_one_eq_mod b.toNat 4)
  omega

theorem utf8Length_eq_one {b : Byte} (h : 0xc0 ≤ b.toNat) (h' : b.toNat < 0xe0) :
    utf8Length b = 1 :=
  (utf8Length_iff b).1.mpr ⟨h, h'⟩

theorem utf8Length_eq_two {b : Byte} (h : 0xe0 ≤ b.toNat) (h' : b.toNat < 0xf0) :
    utf8Length b = 2 :=
  (utf8Length_iff b).2.1.mpr ⟨h, h'⟩

/-! ## The sequences of the encoder -/

theorem utf8Bytes_one {ch : WChar} (h : ch.toNat < 0x80) :
    utf8Bytes ch = [ch.setWidth 8] ∧ (ch.setWidth 8).toNat = ch.toNat := by
  have hlt : ch < 0x80 := BitVec.lt_def.mpr h
  refine ⟨by rw [utf8Bytes, if_pos hlt], ?_⟩
  rw [BitVec.toNat_setWidth]
  omega

theorem utf8Bytes_two {ch : WChar} (h : 0x80 ≤ ch.toNat) (h' : ch.toNat < 0x800) :
    ∃ b c : Byte, utf8Bytes ch = [b, c] ∧ b.toNat = 0xc0 + ch.toNat / 64 ∧
      c.toNat = 0x80 + ch.toNat % 64 := by
  have hge : ¬ch < 0x80 := fun hlt => absurd (BitVec.lt_def.mp hlt) (by simpa using h)
  have hlt : ch < 0x800 := BitVec.lt_def.mpr h'
  have hhigh : ((ch >>> 6).setWidth 8 : Byte).toNat = ch.toNat / 64 := by
    rw [BitVec.toNat_setWidth, BitVec.toNat_ushiftRight, Nat.shiftRight_eq_div_pow]
    omega
  have hlow : ((ch &&& 0x3f).setWidth 8 : Byte).toNat = ch.toNat % 64 := by
    rw [BitVec.toNat_setWidth, BitVec.toNat_and]
    change (ch.toNat &&& 2 ^ 6 - 1) % 2 ^ 8 = _
    rw [Nat.and_two_pow_sub_one_eq_mod]
    omega
  refine ⟨_, _, by rw [utf8Bytes, if_neg hge, if_pos hlt], ?_, ?_⟩
  · rw [toNat_or_c0 (by omega), hhigh]
  · rw [toNat_or_80 (by omega), hlow]

theorem utf8Bytes_three {ch : WChar} (h : 0x800 ≤ ch.toNat) :
    ∃ b c d : Byte, utf8Bytes ch = [b, c, d] ∧ b.toNat = 0xe0 + ch.toNat / 4096 ∧
      c.toNat = 0x80 + ch.toNat / 64 % 64 ∧ d.toNat = 0x80 + ch.toNat % 64 := by
  have hge : ¬ch < 0x80 := fun hlt => by
    have hlt' : ch.toNat < 0x80 := BitVec.lt_def.mp hlt
    omega
  have hge' : ¬ch < 0x800 := fun hlt => absurd (BitVec.lt_def.mp hlt) (by simpa using h)
  have hch := ch.isLt
  have hhigh : ((ch >>> 6 >>> 6).setWidth 8 : Byte).toNat = ch.toNat / 4096 := by
    rw [BitVec.toNat_setWidth, BitVec.toNat_ushiftRight, BitVec.toNat_ushiftRight,
      Nat.shiftRight_eq_div_pow, Nat.shiftRight_eq_div_pow]
    omega
  have hmid : ((ch >>> 6 &&& 0x3f).setWidth 8 : Byte).toNat = ch.toNat / 64 % 64 := by
    rw [BitVec.toNat_setWidth, BitVec.toNat_and, BitVec.toNat_ushiftRight,
      Nat.shiftRight_eq_div_pow]
    change (ch.toNat / 2 ^ 6 &&& 2 ^ 6 - 1) % 2 ^ 8 = _
    rw [Nat.and_two_pow_sub_one_eq_mod]
    omega
  have hlow : ((ch &&& 0x3f).setWidth 8 : Byte).toNat = ch.toNat % 64 := by
    rw [BitVec.toNat_setWidth, BitVec.toNat_and]
    change (ch.toNat &&& 2 ^ 6 - 1) % 2 ^ 8 = _
    rw [Nat.and_two_pow_sub_one_eq_mod]
    omega
  refine ⟨_, _, _, by rw [utf8Bytes, if_neg hge, if_neg hge'], ?_, ?_, ?_⟩
  · rw [toNat_or_e0 (by omega), hhigh]
  · rw [toNat_or_80 (by omega), hmid]
  · rw [toNat_or_80 (by omega), hlow]

/-- The encoding of a whole string. -/
def encode (s : List WChar) : List Byte := s.flatMap utf8Bytes

@[simp] theorem encode_nil : encode [] = [] := rfl

@[simp] theorem encode_cons (ch : WChar) (s : List WChar) :
    encode (ch :: s) = utf8Bytes ch ++ encode s := rfl

theorem getLengthWcsUtf8_eq (s : List WChar) : getLengthWcsUtf8 s = (encode s).length := by
  induction s with
  | nil => rfl
  | cons ch s ih =>
      rw [getLengthWcsUtf8, encode_cons, List.length_append, ih, utf8Bytes]
      simp only [← BitVec.not_lt]
      by_cases h : ch < 0x80
      · rw [if_neg (not_not_intro h), if_pos h]
        simp [Nat.add_comm]
      · rw [if_pos h, if_neg h]
        by_cases h' : ch < 0x800
        · rw [if_neg (not_not_intro h'), if_pos h']
          simp
          omega
        · rw [if_pos h', if_neg h']
          simp
          omega

theorem wcstombsLoop_eq (dstlen : ℕ) (s : List WChar) :
    ∀ (len : ℕ) (dst : List Byte), (encode s).length ≤ len →
      wcstombsLoop dstlen s len dst = ⟨dstlen - len + (encode s).length, dst ++ encode s⟩ := by
  induction s with
  | nil =>
      intro len dst _
      simp [wcstombsLoop]
  | cons ch s ih =>
      intro len dst h
      rw [encode_cons, List.length_append] at h
      rw [wcstombsLoop, if_neg (by omega), ih _ _ (by omega), encode_cons, List.length_append,
        List.append_assoc, Conversion.mk.injEq]
      refine ⟨?_, rfl⟩
      omega

theorem wineUtf8Wcstombs_eq {s : List WChar} {dstlen : ℕ} (h : dstlen ≠ 0)
    (hlen : getLengthWcsUtf8 s ≤ dstlen) :
    wineUtf8Wcstombs s dstlen = ⟨(encode s).length, encode s⟩ := by
  rw [getLengthWcsUtf8_eq] at hlen
  rw [wineUtf8Wcstombs, if_neg h, wcstombsLoop_eq dstlen s dstlen [] hlen, Int.sub_self,
    Int.zero_add, List.nil_append]

/-! ## The sequences of the decoder -/

/-- The value of a sequence after the bits that the first byte has given. -/
def trailValue (res : BitVec 32) (trail : List Byte) : BitVec 32 :=
  trail.foldl (fun res b => res <<< 6 ||| (b ^^^ 0x80).setWidth 32) res

@[simp] theorem trailValue_nil (res : BitVec 32) : trailValue res [] = res := rfl

@[simp] theorem trailValue_cons (res : BitVec 32) (b : Byte) (trail : List Byte) :
    trailValue res (b :: trail) = trailValue (res <<< 6 ||| (b ^^^ 0x80).setWidth 32) trail := rfl

theorem readTrail_append (res : BitVec 32) (trail rest : List Byte)
    (h : ∀ b ∈ trail, Continuation b) :
    readTrail trail.length res (trail ++ rest) = .finished (trailValue res trail) rest := by
  induction trail generalizing res with
  | nil => rfl
  | cons b trail ih =>
      have hb : ¬0x40 ≤ b ^^^ 0x80 := BitVec.not_le.mpr (h b List.mem_cons_self)
      rw [List.length_cons, List.cons_append, readTrail, if_neg hb,
        ih _ fun c hc => h c (List.mem_cons_of_mem b hc), trailValue_cons]

theorem readTrail_eq_finished {len : ℕ} {res v : BitVec 32} {src rest : List Byte}
    (h : readTrail len res src = .finished v rest) :
    ∃ trail, trail.length = len ∧ src = trail ++ rest ∧ (∀ b ∈ trail, Continuation b) ∧
      v = trailValue res trail := by
  induction len generalizing res src with
  | zero =>
      cases h
      exact ⟨[], rfl, rfl, by simp, rfl⟩
  | succ len ih =>
      cases src with
      | nil => simp [readTrail] at h
      | cons b src =>
          simp only [readTrail] at h
          split_ifs at h with hb
          obtain ⟨trail, hlen, hsrc, htrail, hv⟩ := ih h
          refine ⟨b :: trail, by rw [List.length_cons, hlen], by rw [hsrc, List.cons_append], ?_, hv⟩
          exact List.forall_mem_cons.mpr ⟨BitVec.not_le.mp hb, htrail⟩

theorem readTrail_eq_ended {len : ℕ} {res : BitVec 32} {src : List Byte}
    (h : readTrail len res src = .ended) :
    src.length < len ∧ ∀ b ∈ src, Continuation b := by
  induction len generalizing res src with
  | zero => simp [readTrail] at h
  | succ len ih =>
      cases src with
      | nil => simp
      | cons b src =>
          simp only [readTrail] at h
          split_ifs at h with hb
          obtain ⟨hlen, hsrc⟩ := ih h
          exact ⟨Nat.succ_lt_succ hlen,
            List.forall_mem_cons.mpr ⟨BitVec.not_le.mp hb, hsrc⟩⟩

/-- One more byte shifts the value by six bits, and none of them is lost. -/
theorem toNat_shift_or {res : BitVec 32} {b : Byte} (hres : res.toNat < 2 ^ 26)
    (hb : Continuation b) :
    (res <<< 6 ||| (b ^^^ 0x80).setWidth 32).toNat = res.toNat * 64 + (b.toNat - 0x80) := by
  obtain ⟨hval, hlt⟩ := hb.toNat
  rw [BitVec.toNat_or, BitVec.toNat_shiftLeft, BitVec.toNat_setWidth,
    Nat.mod_eq_of_lt (by rw [Nat.shiftLeft_eq]; omega), Nat.mod_eq_of_lt (by omega),
    ← Nat.shiftLeft_add_eq_or_of_lt (by omega), Nat.shiftLeft_eq]
  omega

theorem readSequence_append {ch : Byte} {trail : List Byte} {v : BitVec 32} (rest : List Byte)
    (hlen : trail.length = utf8Length ch) (hpos : trail ≠ [])
    (htrail : ∀ b ∈ trail, Continuation b)
    (hv : trailValue ((ch &&& utf8Mask (utf8Length ch)).setWidth 32) trail = v)
    (hmin : utf8Minval (utf8Length ch) ≤ v) (hmax : v < 0x10000) :
    readSequence ch (trail ++ rest) = .finished v rest := by
  have hne : utf8Length ch ≠ 0 := fun h => hpos (List.length_eq_zero_iff.mp (hlen.trans h))
  have hread := readTrail_append ((ch &&& utf8Mask (utf8Length ch)).setWidth 32) trail rest htrail
  rw [hlen, hv] at hread
  simp only [readSequence, if_neg hne, hread, if_neg (BitVec.not_lt.mpr hmin),
    if_neg (BitVec.not_le.mpr hmax)]

theorem readSequence_eq_finished {ch : Byte} {src rest : List Byte} {v : BitVec 32}
    (h : readSequence ch src = .finished v rest) :
    utf8Length ch ≠ 0 ∧ ∃ trail, trail.length = utf8Length ch ∧ src = trail ++ rest ∧
      (∀ b ∈ trail, Continuation b) ∧
      trailValue ((ch &&& utf8Mask (utf8Length ch)).setWidth 32) trail = v ∧
      utf8Minval (utf8Length ch) ≤ v ∧ v < 0x10000 := by
  unfold readSequence at h
  by_cases hne : utf8Length ch = 0
  · simp [hne] at h
  · simp only [if_neg hne] at h
    cases hread : readTrail (utf8Length ch) ((ch &&& utf8Mask (utf8Length ch)).setWidth 32) src with
    | bad l => simp only [hread, reduceCtorEq] at h
    | ended => simp only [hread, reduceCtorEq] at h
    | finished res l =>
        simp only [hread] at h
        split_ifs at h with hmin hmax
        cases h
        obtain ⟨trail, hlen, hsrc, htrail, hv⟩ := readTrail_eq_finished hread
        exact ⟨hne, trail, hlen, hsrc, htrail, hv.symm, BitVec.not_lt.mp hmin,
          BitVec.not_le.mp hmax⟩

theorem readSequence_eq_ended {ch : Byte} {src : List Byte} (h : readSequence ch src = .ended) :
    src.length < utf8Length ch ∧ ∀ b ∈ src, Continuation b := by
  unfold readSequence at h
  by_cases hne : utf8Length ch = 0
  · simp [hne] at h
  · simp only [if_neg hne] at h
    cases hread : readTrail (utf8Length ch) ((ch &&& utf8Mask (utf8Length ch)).setWidth 32) src with
    | bad l => simp only [hread, reduceCtorEq] at h
    | ended => exact readTrail_eq_ended hread
    | finished res l =>
        simp only [hread] at h
        split_ifs at h with hmin hmax

theorem toNat_sequence_one {b c : Byte} (hb : utf8Length b = 1) (hc : Continuation c) :
    (trailValue ((b &&& utf8Mask 1).setWidth 32) [c]).toNat =
      (b.toNat - 0xc0) * 64 + (c.toNat - 0x80) := by
  obtain ⟨hval, hlt⟩ := toNat_lead_one hb
  have hlead : ((b &&& utf8Mask 1).setWidth 32).toNat = b.toNat - 0xc0 := by
    rw [BitVec.toNat_setWidth]
    omega
  rw [trailValue_cons, trailValue_nil, toNat_shift_or (by omega) hc, hlead]

theorem toNat_sequence_two {b c d : Byte} (hb : utf8Length b = 2) (hc : Continuation c)
    (hd : Continuation d) :
    (trailValue ((b &&& utf8Mask 2).setWidth 32) [c, d]).toNat =
      ((b.toNat - 0xe0) * 64 + (c.toNat - 0x80)) * 64 + (d.toNat - 0x80) := by
  obtain ⟨hval, hlt⟩ := toNat_lead_two hb
  obtain ⟨hc', hclt⟩ := hc.toNat
  have hlead : ((b &&& utf8Mask 2).setWidth 32).toNat = b.toNat - 0xe0 := by
    rw [BitVec.toNat_setWidth]
    omega
  have hfirst : ((b &&& utf8Mask 2).setWidth 32 <<< 6 ||| (c ^^^ 0x80).setWidth 32 :
      BitVec 32).toNat = _ := toNat_shift_or (by omega) hc
  rw [trailValue_cons, trailValue_cons, trailValue_nil, toNat_shift_or (by omega) hd, hfirst,
    hlead]

/-- The decoder takes back the sequence of every character. -/
theorem readSequence_utf8Bytes {ch : WChar} (h : 0x80 ≤ ch.toNat) :
    ∃ b trail, utf8Bytes ch = b :: trail ∧ ¬b < 0x80 ∧
      ∀ rest, readSequence b (trail ++ rest) = .finished (ch.setWidth 32) rest := by
  have hch := ch.isLt
  have hwide : (ch.setWidth 32).toNat = ch.toNat := by
    rw [BitVec.toNat_setWidth]
    omega
  have hmax : ch.setWidth 32 < (0x10000 : BitVec 32) := by
    rw [BitVec.lt_def, hwide]
    exact hch
  by_cases h' : ch.toNat < 0x800
  · obtain ⟨b, c, heq, hb, hc⟩ := utf8Bytes_two h h'
    have hlen : utf8Length b = 1 := utf8Length_eq_one (by omega) (by omega)
    have hcont : Continuation c := continuation_of_toNat (by omega) (by omega)
    refine ⟨b, [c], heq, fun hlt => ?_, fun rest => ?_⟩
    · have hlt' : b.toNat < 0x80 := BitVec.lt_def.mp hlt
      omega
    · refine readSequence_append rest hlen.symm (by simp) (by simpa using hcont) ?_ ?_ hmax
      · rw [hlen]
        apply BitVec.eq_of_toNat_eq
        rw [toNat_sequence_one hlen hcont, hwide]
        omega
      · rw [hlen, BitVec.le_def, hwide]
        exact h
  · rw [not_lt] at h'
    obtain ⟨b, c, d, heq, hb, hc, hd⟩ := utf8Bytes_three h'
    have hlen : utf8Length b = 2 := utf8Length_eq_two (by omega) (by omega)
    have hcont : Continuation c := continuation_of_toNat (by omega) (by omega)
    have hcont' : Continuation d := continuation_of_toNat (by omega) (by omega)
    refine ⟨b, [c, d], heq, fun hlt => ?_, fun rest => ?_⟩
    · have hlt' : b.toNat < 0x80 := BitVec.lt_def.mp hlt
      omega
    · refine readSequence_append rest hlen.symm (by simp) (by simp [hcont, hcont']) ?_ ?_ hmax
      · rw [hlen]
        apply BitVec.eq_of_toNat_eq
        rw [toNat_sequence_two hlen hcont hcont', hwide]
        omega
      · rw [hlen, BitVec.le_def, hwide]
        exact h'

/-- Sequences of more than three bytes start above the range of the characters. -/
theorem utf8Minval_ge {len : ℕ} (h : 3 ≤ len) (v : BitVec 32) (hv : utf8Minval len ≤ v) :
    ¬v < 0x10000 := by
  have hmin : 0x10000 ≤ utf8Minval len := by
    match len, h with
    | 3, _ => decide
    | 4, _ => decide
    | _ + 5, _ => exact (by decide : (0x10000 : BitVec 32) ≤ 0x4000000)
  exact BitVec.not_lt.mpr (BitVec.le_trans hmin hv)

theorem utf8Bytes_sequence_one {b c : Byte} {ch : WChar} (hb : utf8Length b = 1)
    (hc : Continuation c) (hmin : 0x80 ≤ ch.toNat)
    (h : (trailValue ((b &&& utf8Mask 1).setWidth 32) [c]).toNat = ch.toNat) :
    utf8Bytes ch = [b, c] := by
  have hlead := toNat_lead_one hb
  have hcont := hc.toNat
  rw [toNat_sequence_one hb hc] at h
  obtain ⟨b', c', heq, hb', hc'⟩ := utf8Bytes_two hmin (by omega)
  rw [heq, BitVec.eq_of_toNat_eq (x := b') (y := b) (by omega),
    BitVec.eq_of_toNat_eq (x := c') (y := c) (by omega)]

theorem utf8Bytes_sequence_two {b c d : Byte} {ch : WChar} (hb : utf8Length b = 2)
    (hc : Continuation c) (hd : Continuation d) (hmin : 0x800 ≤ ch.toNat)
    (h : (trailValue ((b &&& utf8Mask 2).setWidth 32) [c, d]).toNat = ch.toNat) :
    utf8Bytes ch = [b, c, d] := by
  have hlead := toNat_lead_two hb
  have hcont := hc.toNat
  have hcont' := hd.toNat
  rw [toNat_sequence_two hb hc hd] at h
  obtain ⟨b', c', d', heq, hb', hc', hd'⟩ := utf8Bytes_three hmin
  rw [heq, BitVec.eq_of_toNat_eq (x := b') (y := b) (by omega),
    BitVec.eq_of_toNat_eq (x := c') (y := c) (by omega),
    BitVec.eq_of_toNat_eq (x := d') (y := d) (by omega)]

/-- A sequence that the decoder accepts is the one that the encoder writes. -/
theorem utf8Bytes_readSequence {ch : Byte} {src rest : List Byte} {v : BitVec 32}
    (h : readSequence ch src = .finished v rest) :
    utf8Bytes (v.setWidth 16) ++ rest = ch :: src := by
  obtain ⟨hne, trail, hlen, hsrc, htrail, hv, hmin, hmax⟩ := readSequence_eq_finished h
  have hvlt : v.toNat < 0x10000 := BitVec.lt_def.mp hmax
  have hwidth : (v.setWidth 16).toNat = v.toNat := by
    rw [BitVec.toNat_setWidth]
    omega
  have hshort : utf8Length ch < 3 := by
    by_contra hge
    exact utf8Minval_ge (not_lt.mp hge) v hmin hmax
  suffices hbytes : utf8Bytes (v.setWidth 16) = ch :: trail by
    rw [hbytes, hsrc, List.cons_append]
  obtain hone | htwo : utf8Length ch = 1 ∨ utf8Length ch = 2 := by omega
  · rw [hone] at hv hmin hlen
    obtain ⟨c, rfl⟩ := List.length_eq_one_iff.mp hlen
    refine utf8Bytes_sequence_one hone (htrail c (by simp)) ?_ (by rw [hv, hwidth])
    rw [hwidth]
    exact BitVec.le_def.mp hmin
  · rw [htwo] at hv hmin hlen
    obtain ⟨c, d, rfl⟩ := List.length_eq_two.1 hlen
    refine utf8Bytes_sequence_two htwo (htrail c (by simp)) (htrail d (by simp)) ?_
      (by rw [hv, hwidth])
    rw [hwidth]
    exact BitVec.le_def.mp hmin

/-! ## Whole strings -/

/-- What the decoder leaves unread without an error: nothing, or the start of a sequence that is
not complete when the input ends. -/
def Incomplete (b : List Byte) : Prop :=
  b = [] ∨ ∃ ch trail, b = ch :: trail ∧ ¬ch < 0x80 ∧ trail.length < utf8Length ch ∧
    ∀ c ∈ trail, Continuation c

theorem mbstowcsLoop_encode (strict : Bool) (dstlen : ℕ) (s : List WChar) :
    ∀ (count : ℕ) (dst : List WChar), s.length ≤ count →
      mbstowcsLoop strict dstlen count (encode s) dst =
        ⟨dstlen - count + s.length, dst ++ s⟩ := by
  induction s with
  | nil =>
      intro count dst _
      cases count <;> simp [mbstowcsLoop]
  | cons ch s ih =>
      intro count dst h
      obtain ⟨count, rfl⟩ := Nat.exists_eq_add_of_le' ((Nat.le_add_left 1 _).trans h)
      have hlen : s.length ≤ count := Nat.le_of_succ_le_succ h
      have hturn : mbstowcsLoop strict dstlen (count + 1) (encode (ch :: s)) dst =
          mbstowcsLoop strict dstlen count (encode s) (dst ++ [ch]) := by
        by_cases hch : ch.toNat < 0x80
        · obtain ⟨hbytes, hval⟩ := utf8Bytes_one hch
          have hlt : (ch.setWidth 8 : Byte) < 0x80 := BitVec.lt_def.mpr (hval.symm ▸ hch)
          have hback : ((ch.setWidth 8 : Byte).setWidth 16) = ch := by
            apply BitVec.eq_of_toNat_eq
            rw [BitVec.toNat_setWidth, hval]
            omega
          rw [encode_cons, hbytes, List.singleton_append, mbstowcsLoop, if_pos hlt, hback]
        · obtain ⟨b, trail, hbytes, hge, hread⟩ := readSequence_utf8Bytes (not_lt.mp hch)
          have hback : ((ch.setWidth 32 : BitVec 32).setWidth 16) = ch := by
            apply BitVec.eq_of_toNat_eq
            rw [BitVec.toNat_setWidth, BitVec.toNat_setWidth]
            omega
          rw [encode_cons, hbytes, List.cons_append, mbstowcsLoop, if_neg hge]
          simp only [hread, hback]
      rw [hturn, ih count _ hlen, List.length_cons, Conversion.mk.injEq]
      refine ⟨?_, by simp⟩
      push_cast
      ring

theorem mbstowcsLoop_accepted (dstlen : ℕ) :
    ∀ (count : ℕ) (b : List Byte) (dst : List WChar),
      0 ≤ (mbstowcsLoop true dstlen count b dst).ret →
      ∃ s rest, b = encode s ++ rest ∧ Incomplete rest ∧ s.length ≤ count ∧
        mbstowcsLoop true dstlen count b dst = ⟨dstlen - count + s.length, dst ++ s⟩ := by
  intro count
  induction count with
  | zero =>
      intro b dst h
      cases b with
      | nil => exact ⟨[], [], rfl, .inl rfl, le_rfl, by simp [mbstowcsLoop]⟩
      | cons ch b => simp [mbstowcsLoop] at h
  | succ count ih =>
      intro b dst h
      cases b with
      | nil => exact ⟨[], [], rfl, .inl rfl, Nat.zero_le _, by simp [mbstowcsLoop]⟩
      | cons ch b =>
          rw [mbstowcsLoop] at h ⊢
          -- a turn that reads the character `c` and goes on with `b'`
          have hturn : ∀ (c : WChar) (b' : List Byte), utf8Bytes c ++ b' = ch :: b →
              0 ≤ (mbstowcsLoop true dstlen count b' (dst ++ [c])).ret →
              ∃ s rest, ch :: b = encode s ++ rest ∧ Incomplete rest ∧ s.length ≤ count + 1 ∧
                mbstowcsLoop true dstlen count b' (dst ++ [c]) =
                  ⟨dstlen - (count + 1 : ℕ) + s.length, dst ++ s⟩ := by
            intro c b' hb hret
            obtain ⟨s, rest, rfl, hrest, hlen, heq⟩ := ih b' _ hret
            refine ⟨c :: s, rest, ?_, hrest, Nat.succ_le_succ hlen, ?_⟩
            · rw [← hb, encode_cons, List.append_assoc]
            · rw [heq, List.length_cons, Conversion.mk.injEq]
              refine ⟨?_, by simp⟩
              push_cast
              ring
          by_cases hch : ch < 0x80
          · rw [if_pos hch] at h ⊢
            refine hturn _ b ?_ h
            have hval : (ch.setWidth 16 : WChar).toNat = ch.toNat := by
              rw [BitVec.toNat_setWidth]
              omega
            have hback : (ch.setWidth 16 : WChar).setWidth 8 = ch := by
              apply BitVec.eq_of_toNat_eq
              rw [BitVec.toNat_setWidth, hval]
              omega
            rw [(utf8Bytes_one (hval.symm ▸ BitVec.lt_def.mp hch)).1, hback,
              List.singleton_append]
          · rw [if_neg hch] at h ⊢
            cases hread : readSequence ch b with
            | finished v b' =>
                simp only [hread] at h ⊢
                exact hturn _ b' (utf8Bytes_readSequence hread) h
            | bad b' => simp [hread] at h
            | ended =>
                obtain ⟨hlen, hcont⟩ := readSequence_eq_ended hread
                refine ⟨[], ch :: b, rfl, .inr ⟨ch, b, rfl, hch, hlen, hcont⟩, Nat.zero_le _, ?_⟩
                simp

/-- The two conversions are inverse to each other: every string of 16-bit characters is read back
from its encoding, and what is accepted as valid is the encoding of the result up to a sequence
that the end of the input leaves incomplete. -/
theorem utf8_round_trip :
    (∀ (s : List WChar) (dstlen dstlen' : ℕ), dstlen ≠ 0 → dstlen' ≠ 0 →
      (wineUtf8Wcstombs s 0).ret ≤ dstlen → s.length ≤ dstlen' →
      wineUtf8Mbstowcs true (wineUtf8Wcstombs s dstlen).dst dstlen' = ⟨s.length, s⟩) ∧
    (∀ (b : List Byte) (dstlen dstlen' : ℕ), dstlen ≠ 0 → dstlen' ≠ 0 →
      0 ≤ (wineUtf8Mbstowcs true b dstlen).ret →
      (wineUtf8Wcstombs (wineUtf8Mbstowcs true b dstlen).dst 0).ret ≤ dstlen' →
      ∃ rest, Incomplete rest ∧
        b = (wineUtf8Wcstombs (wineUtf8Mbstowcs true b dstlen).dst dstlen').dst ++ rest) := by
  constructor
  · intro s dstlen dstlen' h h' hroom hroom'
    have hroom : getLengthWcsUtf8 s ≤ dstlen := by simpa [wineUtf8Wcstombs] using hroom
    rw [wineUtf8Wcstombs_eq h hroom, wineUtf8Mbstowcs, if_neg h',
      mbstowcsLoop_encode true dstlen' s dstlen' [] hroom', Int.sub_self, Int.zero_add,
      List.nil_append]
  · intro b dstlen dstlen' h h' hret hroom
    rw [wineUtf8Mbstowcs, if_neg h] at hret hroom ⊢
    obtain ⟨s, rest, hb, hrest, -, heq⟩ := mbstowcsLoop_accepted dstlen dstlen b [] hret
    rw [heq, List.nil_append] at hroom ⊢
    have hroom : getLengthWcsUtf8 s ≤ dstlen' := by simpa [wineUtf8Wcstombs] using hroom
    exact ⟨rest, hrest, by rw [wineUtf8Wcstombs_eq h' hroom, ← hb]⟩

/-- An unpaired surrogate is read back, a sequence cut short by the end of the input is left. -/
theorem utf8_round_trip_surrogate :
    wineUtf8Mbstowcs true (wineUtf8Wcstombs [0x41, 0xe9, 0xd800] 6).dst 3 =
      ⟨3, [0x41, 0xe9, 0xd800]⟩ ∧
    ∃ rest, Incomplete rest ∧
      [0x41, 0xe2, 0x80] =
        (wineUtf8Wcstombs (wineUtf8Mbstowcs true [0x41, 0xe2, 0x80] 4).dst 4).dst ++ rest :=
  ⟨utf8_round_trip.1 [0x41, 0xe9, 0xd800] 6 3 (by decide) (by decide) (by decide) (by decide),
    utf8_round_trip.2 [0x41, 0xe2, 0x80] 4 4 (by decide) (by decide) (by decide +kernel)
      (by decide +kernel)⟩

end Wine.Utf8
