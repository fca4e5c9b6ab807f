import Wine.Crypt32.Lengths

/-!
# Encoding and decoding integers

The encoders give the shortest encoding of the value, and the decoders give the value back, for
values of at most 252 bytes other than -1.
-/

namespace Wine.Crypt32
open Wine.Lib

/-- The encoding of an integer: the shortest length and the shortest contents. -/
def IsDer (v : ℤ) (der : List Byte) : Prop :=
  ∃ content, Minimal content ∧ signedOf content = v ∧
    der = asnInteger :: (derLength content.length ++ content.reverse)

/-- The size query and the encoding agree on `der`. -/
structure Encodes (encode : Target → Except EncodeFault Encoded) (der : List Byte) : Prop where
  query : ∃ c : Dword, c.toNat = der.length ∧ encode .query = .ok ⟨true, some c, []⟩
  buffer : ∀ size : Dword, ∃ c : Dword, c.toNat = der.length ∧ encode (.buffer size) =
    .ok (if der.length ≤ size.toNat then ⟨true, some c, der⟩ else ⟨false, some c, []⟩)
  alloc : ∃ c : Dword, c.toNat = der.length ∧ encode (.alloc true) = .ok ⟨true, some c, der⟩

/-- The decoder asks for some space, and with it gives a result with the property. -/
def Decodes {α : Type} (decode : List Byte → Dword → Target → Except DecodeError (Dword × Option α))
    (der : List Byte) (P : α → Prop) : Prop :=
  ∃ needed a, P a ∧ decode der (BitVec.ofNat 32 der.length) .query = .ok (needed, none) ∧
    (∀ size, needed ≤ size →
      decode der (BitVec.ofNat 32 der.length) (.buffer size) = .ok (needed, some a)) ∧
    decode der (BitVec.ofNat 32 der.length) (.alloc true) = .ok (needed, some a)

/-- What a pair of an encoder and a decoder does for a value. -/
def Codes {α : Type} (encode : Target → Except EncodeFault Encoded)
    (decode : List Byte → Dword → Target → Except DecodeError (Dword × Option α)) (v : ℤ)
    (P : α → Prop) : Prop :=
  ∃ der, IsDer v der ∧ Encodes encode der ∧ Decodes decode der P

variable {blob content data : List Byte} {n m first : ℕ} {pad : Option Byte} {v : ℤ}

/-! ## Lengths -/

theorem derLength_of_lt (h : m < 256) :
    derLength m = if m < 128 then [BitVec.ofNat 8 m] else [0x81, BitVec.ofNat 8 m] := by
  unfold derLength
  split
  · rfl
  · rw [Nat.digits_of_lt 256 m (by omega) h]
    rfl

/-! ## Encoding -/

/-- An encoder that asks for its space first, and writes if it gets it. -/
theorem encodes_of_space {encode : Target → Except EncodeFault Encoded} {der : List Byte} {c : Dword}
    (hcount : c.toNat = der.length)
    (hcode : ∀ target, encode target =
      if target = .query ∨ !(encodeEnsureSpace c target).ret then .ok (encodeEnsureSpace c target)
      else .ok { encodeEnsureSpace c target with written := der }) : Encodes encode der := by
  refine ⟨⟨c, hcount, hcode .query⟩, fun size => ⟨c, hcount, ?_⟩, ⟨c, hcount, hcode (.alloc true)⟩⟩
  rw [hcode, ← hcount]
  by_cases hsize : c ≤ size
  · rw [if_pos (BitVec.le_def.mp hsize)]
    simp [encodeEnsureSpace, hsize]
  · rw [if_neg (fun hle => hsize (BitVec.le_def.mpr hle))]
    simp [encodeEnsureSpace, hsize]

theorem encodeContent_eq (blob : List Byte) (target : Target) (n : ℕ) (pad : Option Byte)
    (hm : m = (blob.take n ++ pad.toList).length) (hn : n ≤ blob.length) :
    encodeContent blob target n pad =
      let space := encodeEnsureSpace
        ((BitVec.ofNat 8 (1 + lenBytesNeeded (BitVec.ofNat 32 m) + m)).setWidth 32) target
      if target = .query ∨ !space.ret then .ok space
      else putContent space (BitVec.ofNat 32 m) (lenBytesNeeded (BitVec.ofNat 32 m))
        (blob.take n ++ pad.toList).reverse := by
  have htake : (blob.take n).length = n := List.length_take_of_le hn
  unfold encodeContent
  cases pad with
  | none =>
    have hm : m = n := by rw [hm, Option.toList_none, List.append_nil, htake]
    subst hm
    simp only [Option.isSome_none, Bool.false_eq_true, if_false, Option.toList_none,
      List.append_nil, List.nil_append]
  | some p =>
    have hm : m = n + 1 := by
      rw [hm, Option.toList_some, List.length_append, htake, List.length_singleton]
    subst hm
    have hlen : BitVec.ofNat 32 n + 1 = BitVec.ofNat 32 (n + 1) := (BitVec.ofNat_add n 1).symm
    have hbyte : ∀ k, BitVec.ofNat 8 (1 + k + n) + 1 = BitVec.ofNat 8 (1 + k + (n + 1)) :=
      fun k => (BitVec.ofNat_add (1 + k + n) 1).symm
    simp only [Option.isSome_some, if_true, hlen, hbyte, Option.toList_some,
      List.reverse_append, List.reverse_singleton]

theorem fits_iff (h : Content v blob n pad) :
    Fits 252 v ↔ (blob.take n ++ pad.toList).length ≤ 252 := by
  rw [← h.value]
  exact fits_iff_of_minimal h.minimal (by decide)

theorem encodeContent_spec (h : Content v blob n pad) (hfits : Fits 252 v)
    {encode : Target → Except EncodeFault Encoded}
    (heq : ∀ target, encode target = encodeContent blob target n pad) :
    Encodes encode (asnInteger :: (derLength (blob.take n ++ pad.toList).length ++
      (blob.take n ++ pad.toList).reverse)) := by
  have hle := (fits_iff h).mp hfits
  generalize hm : (blob.take n ++ pad.toList).length = m at hle ⊢
  have hder : (asnInteger :: (derLength m ++ (blob.take n ++ pad.toList).reverse)).length =
      1 + (derLength m).length + m := by
    rw [List.length_cons, List.length_append, List.length_reverse, hm]
    omega
  have hshort : (derLength m).length ≤ 2 := by
    rw [derLength_of_lt (by omega)]
    split
    · exact Nat.le_succ 1
    · exact Nat.le_refl 2
  have hcount : ((BitVec.ofNat 8 (1 + (derLength m).length + m)).setWidth 32 : Dword).toNat =
      1 + (derLength m).length + m := by
    rw [BitVec.toNat_setWidth, BitVec.toNat_ofNat]
    omega
  have hcode := fun target => (heq target).trans
    (encodeContent_eq (m := m) blob target n pad hm.symm h.le)
  have hput : ∀ space, putContent space (BitVec.ofNat 32 m) (derLength m).length
      (blob.take n ++ pad.toList).reverse = .ok { space with
        written := asnInteger :: (derLength m ++ (blob.take n ++ pad.toList).reverse) } := by
    intro space
    rw [putContent, encodeLen_ofNat (by omega)]
  simp only [lenBytesNeeded_ofNat (show m < 2 ^ 32 by omega), hput] at hcode
  generalize (BitVec.ofNat 8 (1 + (derLength m).length + m)).setWidth 32 = c at hcode hcount
  rw [← hder] at hcount
  exact encodes_of_space hcount hcode

/-- Beyond 252 bytes the number of bytes does not fit into a byte. -/
theorem not_encodes (h : Content v blob n pad) (hfits : ¬ Fits 252 v)
    {encode : Target → Except EncodeFault Encoded}
    (heq : ∀ target, encode target = encodeContent blob target n pad) (der : List Byte) :
    ¬ Encodes encode der := by
  rintro ⟨-, -, c, hc, halloc⟩
  have hlong : ¬ (blob.take n ++ pad.toList).length ≤ 252 := fun hle => hfits ((fits_iff h).mpr hle)
  rw [heq, encodeContent_eq blob _ n pad rfl h.le] at halloc
  generalize hm : (blob.take n ++ pad.toList).length = m at hlong halloc
  dsimp only [encodeEnsureSpace] at halloc
  rw [if_neg (by decide), putContent, encodeLen_derLength] at halloc
  have hwritten := congrArg Encoded.written (Except.ok.inj halloc)
  have hcb := congrArg Encoded.cbEncoded (Except.ok.inj halloc)
  dsimp only at hwritten hcb
  rw [if_pos rfl] at hcb
  have hlt := (BitVec.ofNat 8 (1 + lenBytesNeeded (BitVec.ofNat 32 m) + m)).isLt
  have hnat := congrArg BitVec.toNat (Option.some.inj hcb)
  rw [BitVec.toNat_setWidth] at hnat
  have hlen := congrArg List.length hwritten
  rw [List.length_cons, List.length_append, List.length_reverse, hm] at hlen
  have hpos : 0 < (derLength (BitVec.ofNat 32 m).toNat).length := by
    unfold derLength
    split
    · exact Nat.one_pos
    · exact Nat.succ_pos _
  have htwo : m < 256 → (derLength (BitVec.ofNat 32 m).toNat).length = 2 := by
    intro hlt
    rw [BitVec.toNat_ofNat, Nat.mod_eq_of_lt (by omega), derLength_of_lt hlt, if_neg (by omega)]
    rfl
  omega

/-! ## Decoding -/

theorem copyReversed_spec (h : first + n ≤ data.length) :
    copyReversed data first n = .ok ((data.drop first).take n).reverse := by
  induction n with
  | zero => rfl
  | succ n ih =>
    have hlt : first + n < data.length := by omega
    have hget : (data.drop first)[n]? = some data[first + n] := by
      rw [List.getElem?_drop, List.getElem?_eq_getElem hlt]
    rw [copyReversed, readByte_eq (List.getElem?_eq_getElem hlt), ih (by omega),
      List.take_add_one, hget, Option.toList_some, List.reverse_append]
    rfl

/-- The blob that a decoder makes of the contents. -/
def blobOf (skip : Bool) (contents : List Byte) : List Byte :=
  if skip ∧ contents.head? = some 0 then contents.tail.reverse else contents.reverse

theorem decodeBlob_spec {contents : List Byte} (skip : Bool) (hm : contents.length = m)
    (hpos : m ≠ 0) (hlt : m < 253) (hdata : data = asnInteger :: (derLength m ++ contents)) :
    decodeBlob skip data (BitVec.ofNat 32 data.length) none =
      .ok (BitVec.ofNat 32 m + sizeofBlob, none) ∧
    ∀ space, BitVec.ofNat 32 m + sizeofBlob ≤ space →
      decodeBlob skip data (BitVec.ofNat 32 data.length) (some space) =
        .ok (BitVec.ofNat 32 m + sizeofBlob, some (blobOf skip contents)) := by
  have hle : 1 + (derLength m).length + m = data.length := by
    rw [hdata, List.length_cons, List.length_append, hm]
    omega
  have hshort : (derLength m).length ≤ 2 := by
    rw [derLength_of_lt (by omega)]
    split
    · exact Nat.le_succ 1
    · exact Nat.le_refl 2
  obtain ⟨htag, hlen, ⟨b, hb, hfirst⟩, hdrop⟩ := getLen_derLength hm.ge (by omega) hdata
  have hnat : (BitVec.ofNat 32 m).toNat = m := by
    rw [BitVec.toNat_ofNat]
    omega
  have hcopy : ∀ k, k ≤ m → copyReversed data (1 + (derLength m).length + k) (m - k) =
      .ok (contents.drop k).reverse := by
    intro k hk
    have hlen : (contents.drop k).length = m - k := by rw [List.length_drop, hm]
    rw [copyReversed_spec (by omega), ← List.drop_drop, hdrop, ← hlen, List.take_length]
  have hall := hcopy 0 (Nat.zero_le m)
  rw [Nat.add_zero, Nat.sub_zero, List.drop_zero] at hall
  unfold decodeBlob
  refine ⟨?_, fun space hspace => ?_⟩
  · simp only [htag, ok_bind, hlen, hb, if_true]
    rfl
  · simp only [htag, ok_bind, hlen, hb, hfirst, if_true, if_neg (BitVec.not_lt.mpr hspace)]
    obtain ⟨c, rest, rfl⟩ := List.exists_cons_of_ne_nil
      (fun hnil : contents = [] => hpos (by rw [← hm, hnil, List.length_nil]))
    have hread : readByte data (1 + (derLength m).length) = .ok c := by
      have hget := @List.getElem?_drop _ data (1 + (derLength m).length) 0
      rw [hdrop, Nat.add_zero] at hget
      exact readByte_eq hget.symm
    have hne : BitVec.ofNat 32 m ≠ 0 := fun heq => hpos (hnat.symm.trans (congrArg _ heq))
    have hone := hcopy 1 (Nat.one_le_iff_ne_zero.mpr hpos)
    unfold blobOf
    cases skip with
    | false =>
      rw [if_neg (fun h => Bool.false_ne_true h.1), if_neg (fun h => Bool.false_ne_true h.1), hnat,
        hall]
      rfl
    | true =>
      rw [if_pos ⟨rfl, hne⟩, hread, ok_bind, hnat]
      by_cases hc : c = 0
      · rw [if_pos hc, if_pos ⟨rfl, congrArg some hc⟩]
        rw [hone]
        rfl
      · rw [if_neg hc, if_neg (fun h => hc (Option.some.inj h.2)), hall]
        rfl

theorem decodeWith_spec {contents : List Byte} {skip : Bool} {P : List Byte → Prop}
    (hm : contents.length = m) (hpos : m ≠ 0) (hlt : m < 253)
    (hP : P (blobOf skip contents)) :
    Decodes (decodeWith (decodeBlob skip)) (asnInteger :: (derLength m ++ contents)) P := by
  obtain ⟨hquery, hspace⟩ := decodeBlob_spec skip hm hpos hlt rfl
  have hdecode := hspace _ (BitVec.le_refl _)
  generalize asnInteger :: (derLength m ++ contents) = data at hquery hdecode
  refine ⟨BitVec.ofNat 32 m + sizeofBlob, blobOf skip contents, hP, ?_, fun size hsize => ?_, ?_⟩
  · unfold decodeWith
    rw [hquery, ok_bind]
    rfl
  · unfold decodeWith
    rw [hquery, ok_bind]
    dsimp only
    rw [hdecode, if_neg (by simp), decodeEnsureSpace, if_neg (BitVec.not_lt.mpr hsize)]
    rfl
  · unfold decodeWith
    rw [hquery, ok_bind]
    dsimp only
    rw [hdecode, if_neg (by simp)]
    rfl

theorem signedOf_blobOf : signedOf (blobOf false content.reverse) = signedOf content := by
  unfold blobOf
  rw [if_neg (fun h => Bool.false_ne_true h.1), List.reverse_reverse]

theorem unsignedOf_blobOf (h : 0 ≤ signedOf content) :
    unsignedOf (blobOf true content.reverse) = signedOf content := by
  unfold blobOf
  split
  · next hzero =>
    rw [List.head?_reverse] at hzero
    obtain ⟨x, rfl⟩ := List.getLast?_eq_some_iff.mp hzero.2
    rw [List.reverse_append, List.reverse_singleton, List.singleton_append, List.tail_cons,
      List.reverse_reverse, signedOf_zero]
  · rw [List.reverse_reverse, unsignedOf_of_nonneg h]

/-! ## Blobs -/

theorem codes_of_content {encode : Target → Except EncodeFault Encoded} (skip : Bool)
    {P : List Byte → Prop} (h : Content v blob n pad)
    (heq : ∀ target, encode target = encodeContent blob target n pad)
    (hP : ∀ content, signedOf content = v → P (blobOf skip content.reverse)) :
    Codes encode (decodeWith (decodeBlob skip)) v P ↔ Fits 252 v := by
  constructor
  · rintro ⟨der, -, hencodes, -⟩
    by_contra hfits
    exact not_encodes h hfits heq der hencodes
  · intro hfits
    have hle := (fits_iff h).mp hfits
    have hpos := List.length_pos_iff.mpr h.minimal.1
    refine ⟨_, ⟨_, h.minimal, h.value, rfl⟩, encodeContent_spec h hfits heq, ?_⟩
    exact decodeWith_spec List.length_reverse (by omega) (by omega) (hP _ h.value)

theorem integer_codes_iff (hne : blob ≠ []) :
    Codes (encodeInteger blob) decodeInteger (signedOf blob)
      (fun blob' => signedOf blob' = signedOf blob) ↔
    signedOf blob ≠ -1 ∧ Fits 252 (signedOf blob) := by
  by_cases hv : signedOf blob = -1
  · refine iff_of_false ?_ fun h => h.1 hv
    rintro ⟨der, -, ⟨⟨c, -, hquery⟩, -, -⟩, -⟩
    unfold encodeInteger at hquery
    rw [signedContent_neg_one hne hv] at hquery
    cases hquery
  · obtain ⟨n, pad, hcontent, h⟩ := signedContent_spec hne hv
    rw [and_iff_right hv]
    refine codes_of_content false h (fun target => ?_) fun content hcontent => ?_
    · unfold encodeInteger
      rw [hcontent]
      rfl
    · rw [signedOf_blobOf, hcontent]

theorem unsigned_codes_iff (hne : blob ≠ []) :
    Codes (encodeUnsignedInteger blob) decodeUnsignedInteger (unsignedOf blob)
      (fun blob' => unsignedOf blob' = unsignedOf blob) ↔ Fits 252 (unsignedOf blob) := by
  obtain ⟨n, pad, hcontent, h⟩ := positiveContent_spec hne
  refine codes_of_content true h (fun target => ?_) fun content hcontent => ?_
  · unfold encodeUnsignedInteger unsignedContent
    rw [if_neg (fun hlen => hne (List.length_eq_zero_iff.mp hlen)), hcontent]
    rfl
  · rw [unsignedOf_blobOf (hcontent ▸ unsignedOf_nonneg), hcontent]

/-! ## 32-bit integers -/

theorem intLoop_spec {z : ℤ} (hn : n ≤ blob.length) : intLoop blob n (BitVec.ofInt 32 z) =
    BitVec.ofInt 32 (256 ^ n * z + unsignedOf (blob.take n)) := by
  induction n generalizing z with
  | zero =>
    rw [List.take_zero, unsignedOf, pow_zero, one_mul, add_zero]
    rfl
  | succ n ih =>
    have hget := List.getElem?_eq_getElem hn
    have hgetD : blob.getD n 0 = blob[n] := by
      rw [List.getD_eq_getElem?_getD, hget, Option.getD_some]
    rw [intLoop, hgetD, shift_or, ih (Nat.le_of_succ_le hn), take_succ_of_getElem? hget,
      unsignedOf_snoc, List.length_take_of_le (Nat.le_of_succ_le hn), pow_succ]
    congr 1
    ring

theorem signedOf_intBytes (v : BitVec 32) : signedOf (intBytes v) = v.toInt := by
  have hv := v.isLt
  simp only [intBytes, signedOf, octetInt, BitVec.toNat_setWidth, BitVec.toNat_ushiftRight,
    Nat.shiftRight_eq_div_pow, BitVec.toInt_eq_toNat_cond]
  split <;> split <;> omega

theorem intLoop_sign {x : List Byte} {b : Byte} :
    intLoop (x ++ [b]) (x ++ [b]).length (if b &&& 0x80 ≠ 0 then -1 else 0) =
      BitVec.ofInt 32 (signedOf (x ++ [b])) := by
  have hval : (if b &&& 0x80 ≠ 0 then -1 else 0 : BitVec 32) =
      BitVec.ofInt 32 (if b.toNat < 128 then 0 else -1) := by
    by_cases h : b.toNat < 128
    · rw [if_pos h, if_neg (fun hbit => (sign_bit b).mp hbit h)]
      rfl
    · rw [if_neg h, if_pos ((sign_bit b).mpr h)]
      rfl
  rw [hval, intLoop_spec (Nat.le_refl _), List.take_length, signedOf_eq, add_comm]

theorem decodeInt_eq {x : List Byte} {b : Byte} {cb needed : Dword} {target : Target}
    (h : decodeBlob false data cb (some (sizeofBlob + 4)) = .ok (needed, some (x ++ [b])))
    (ht : target ≠ .query) (hspace : decodeEnsureSpace 4 target = .ok 4) :
    decodeInt data cb target = .ok (4, some (BitVec.ofInt 32 (signedOf (x ++ [b])))) := by
  unfold decodeInt decodeIntegerInternal
  rw [if_neg ht, h]
  dsimp only
  rw [hspace, ok_bind, Option.getD_some, List.getLast?_concat]
  dsimp only
  rw [intLoop_sign]
  rfl

/-- The integer that the decoder makes of the contents. -/
theorem decodeInt_spec {contents : List Byte} (hm : contents.length = m) (hpos : m ≠ 0)
    (hle : m ≤ 4) : Decodes decodeInt (asnInteger :: (derLength m ++ contents))
      (fun v => v = BitVec.ofInt 32 (signedOf contents.reverse)) := by
  obtain ⟨-, hspace⟩ := decodeBlob_spec false hm hpos (by omega) rfl
  have hdecode := hspace (sizeofBlob + 4) (by unfold sizeofBlob; bv_omega)
  generalize asnInteger :: (derLength m ++ contents) = data at hdecode
  unfold blobOf at hdecode
  rw [if_neg (fun h => Bool.false_ne_true h.1)] at hdecode
  obtain hnil | ⟨x, b, hxb⟩ := contents.reverse.eq_nil_or_concat'
  · rw [← List.length_reverse, hnil] at hm
    exact absurd hm.symm hpos
  rw [hxb] at hdecode ⊢
  refine ⟨4, _, rfl, if_pos rfl, fun size hsize => ?_, ?_⟩
  · exact decodeInt_eq hdecode (by simp) (if_neg (BitVec.not_lt.mpr hsize))
  · exact decodeInt_eq hdecode (by simp) rfl

theorem int_codes_iff (v : BitVec 32) :
    Codes (encodeInt v) decodeInt v.toInt (fun v' => v' = v) ↔ v ≠ -1 := by
  have hne : intBytes v ≠ [] := List.cons_ne_nil _ _
  have hneg : signedOf (intBytes v) = -1 ↔ v = -1 := by
    rw [signedOf_intBytes]
    exact ⟨fun h => BitVec.eq_of_toInt_eq h, fun h => h ▸ rfl⟩
  constructor
  · rintro ⟨der, -, ⟨⟨c, -, hquery⟩, -, -⟩, -⟩ hv
    unfold encodeInt encodeInteger at hquery
    rw [signedContent_neg_one hne (hneg.mpr hv)] at hquery
    cases hquery
  · intro hv
    obtain ⟨n, pad, hcontent, h⟩ := signedContent_spec hne (fun h => hv (hneg.mp h))
    have hfits : Fits 4 (signedOf (intBytes v)) := signedOf_bounds hne
    have hle := (fits_iff_of_minimal h.minimal (by decide : 4 ≠ 0)).mp (h.value.symm ▸ hfits)
    have hpos := List.length_pos_iff.mpr h.minimal.1
    rw [signedOf_intBytes] at h hfits
    refine ⟨_, ⟨_, h.minimal, h.value, rfl⟩, encodeContent_spec h (fits_mono hfits (by decide))
      fun target => ?_, ?_⟩
    · unfold encodeInt encodeInteger
      rw [hcontent]
      rfl
    · have hlen := @List.length_reverse _ ((intBytes v).take n ++ pad.toList)
      obtain ⟨needed, a, ha, hrest⟩ := decodeInt_spec hlen (by omega) hle
      rw [List.reverse_reverse, h.value, BitVec.ofInt_toInt] at ha
      exact ⟨needed, a, ha, hrest⟩

end Wine.Crypt32
