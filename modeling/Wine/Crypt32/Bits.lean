import Wine.Crypt32.IntegerCodec

/-!
# Bit strings

The encoder and the decoder of bit blobs. The encoder also takes counts of 8 and more unused bits, and the
decoder takes the count and the length from the input.
-/

namespace Wine.Crypt32

def asnBitstring : Byte := 0x03

/-- `sizeof(CRYPT_BIT_BLOB)` -/
def sizeofBitBlob : Dword := 12

/-- `CRYPT_BIT_BLOB` with the bytes that `pbData` points to. -/
structure BitBlob where
  cbData : Dword
  pbData : List Byte
  cUnusedBits : Dword
  deriving DecidableEq

/-- `0xff << count` in a byte: the processor takes the count modulo 32. -/
def bitMask (count : ℕ) : Byte := ((0xff : Dword) <<< (count % 32)).setWidth 8

/-! ## Encoding -/

/-- The number of data bytes and of unused bits to write. -/
def bitsContent (cbData cUnusedBits : Dword) : Dword × Byte :=
  if cUnusedBits = 0 then (cbData, 0)
  else if cUnusedBits < cbData * 8 then
    ((cbData * 8 - cUnusedBits) / 8 + 1,
      if 8 ≤ cUnusedBits then (cUnusedBits / 8).setWidth 8 else cUnusedBits.setWidth 8)
  else (0, 0)

/-- The data bytes, the last one with the mask. -/
def maskedData (blob : List Byte) (unusedBits : Byte) : ℕ → Except EncodeFault (List Byte)
  | 0 => .ok []
  | n + 1 =>
    match blob[n]? with
    | some b => .ok (blob.take n ++ [b &&& bitMask unusedBits.toNat])
    | none => .error .overread

/-- `CRYPT_AsnEncodeBits` -/
def encodeBits (blob : List Byte) (cUnusedBits : Dword) (target : Target) :
    Except EncodeFault Encoded :=
  let (dataBytes, unusedBits) := bitsContent (BitVec.ofNat 32 blob.length) cUnusedBits
  let lenBytes := lenBytesNeeded (dataBytes + 1)
  let bytesNeeded : Dword := 1 + BitVec.ofNat 32 lenBytes + dataBytes + 1
  let space := encodeEnsureSpace bytesNeeded target
  if target = .query ∨ !space.ret then .ok space
  else
    match encodeLen (dataBytes + 1) (some lenBytes), maskedData blob unusedBits dataBytes.toNat with
    | none, _ => .error .unwritten
    | some _, .error e => .error e
    | some (_, bytes), .ok data =>
      .ok { space with written := asnBitstring :: (bytes ++ unusedBits :: data) }

/-! ## Decoding -/

/-- `memcpy` from the input. -/
def copyBytes (data : List Byte) (first n : ℕ) : Except DecodeError (List Byte) :=
  if data.length < first + n then .error .overread else .ok ((data.drop first).take n)

/-- The bytes with the mask on the last one. -/
def maskLast (mask : Byte) (bytes : List Byte) : List Byte :=
  bytes.dropLast ++ bytes.getLast?.toList.map (· &&& mask)

/-- `CRYPT_AsnDecodeBitsInternal`, with `nocopy` for `CRYPT_DECODE_NOCOPY_FLAG`. -/
def decodeBitsInternal (nocopy : Bool) (data : List Byte) (cbEncoded : Dword)
    (space : Option Dword) : Except DecodeError (Dword × Option BitBlob) := do
  if (← readByte data 0) = asnBitstring then
    let dataLen ← getLen data cbEncoded
    let bytesNeeded := if nocopy then sizeofBitBlob else dataLen - 1 + sizeofBitBlob
    match space with
    | none => return (bytesNeeded, none)
    | some space =>
      if space < bytesNeeded then .error (.moreData bytesNeeded)
      else
        let first := 1 + getLenBytes (← readByte data 1)
        let cUnusedBits ← readByte data first
        let cbData := dataLen - 1
        if nocopy then
          return (bytesNeeded, some ⟨cbData, (data.drop (first + 1)).take cbData.toNat,
            cUnusedBits.setWidth 32⟩)
        else
          let bytes ← copyBytes data (first + 1) cbData.toNat
          return (bytesNeeded, some ⟨cbData, maskLast (bitMask cUnusedBits.toNat) bytes,
            cUnusedBits.setWidth 32⟩)
  else .error .badTag

/-- `CRYPT_AsnDecodeBits` -/
def decodeBits (nocopy : Bool) (data : List Byte) (cbEncoded : Dword) (target : Target) :
    Except DecodeError (Dword × Option BitBlob) := do
  let bytesNeeded := (← decodeBitsInternal nocopy data cbEncoded none).1
  if target = .query then return (bytesNeeded, none)
  else
    let cb ← decodeEnsureSpace bytesNeeded target
    return (cb, (← decodeBitsInternal nocopy data cbEncoded (some bytesNeeded)).2)

/-! ## The standard -/

/-- The bits of the bytes, the highest one of each byte first. -/
def bitsOf (bytes : List Byte) : List Bool := bytes.flatMap fun b => (List.range 8).map b.getMsbD

/-- The encoding of a bit string: fewer than 8 unused bits, which are zero. -/
def IsBitString (bits : List Bool) (der : List Byte) : Prop :=
  ∃ unused data, unused < 8 ∧ bitsOf data = bits ++ List.replicate unused false ∧
    der = asnBitstring :: (derLength (data.length + 1) ++ (BitVec.ofNat 8 unused :: data))

/-- The blob consists of the bits. -/
def BitBlob.Holds (blob : BitBlob) (bits : List Bool) : Prop :=
  blob.pbData.length = blob.cbData.toNat ∧
    (bitsOf blob.pbData).take (8 * blob.cbData.toNat - blob.cUnusedBits.toNat) = bits

/-- The decoder announces the size of the blob with its bytes, unless it does not copy them, and gives the
bits. -/
def DecodesBits (nocopy : Bool) (der : List Byte) (bits : List Bool) : Prop :=
  ∃ blob : BitBlob, ∃ needed : Dword, blob.Holds bits ∧
    needed.toNat = (if nocopy then 12 else 12 + blob.cbData.toNat) ∧
    decodeBits nocopy der (BitVec.ofNat 32 der.length) .query = .ok (needed, none) ∧
    (∀ size, needed ≤ size → decodeBits nocopy der (BitVec.ofNat 32 der.length) (.buffer size) =
      .ok (needed, some blob)) ∧
    decodeBits nocopy der (BitVec.ofNat 32 der.length) (.alloc true) = .ok (needed, some blob)

/-- The used bits of the blob are encoded, and decoding gives them back. -/
def CodesBits (blob : List Byte) (cUnusedBits : Dword) : Prop :=
  ∃ der, IsBitString ((bitsOf blob).take (8 * blob.length - cUnusedBits.toNat)) der ∧
    Encodes (encodeBits blob cUnusedBits) der ∧
    ∀ nocopy, DecodesBits nocopy der ((bitsOf blob).take (8 * blob.length - cUnusedBits.toNat))

/-- The result is an error code, or the blob has one byte less than the contents. -/
def CountsBytes (len : ℕ) : Except DecodeError (Dword × Option BitBlob) → Prop
  | .error e => e ≠ .overread
  | .ok (_, none) => True
  | .ok (_, some blob) => (blob.cbData.toNat : ℤ) = len - 1

/-- Which numbers of bytes and of unused bits are encoded as they should be. -/
def BitsFit (cbData cUnusedBits : ℕ) : Prop :=
  (cUnusedBits = 0 ∧ cbData + 12 < 2 ^ 32) ∨ (cUnusedBits ≠ 0 ∧ 8 * cbData ≤ cUnusedBits) ∨
    (cUnusedBits < 8 * cbData ∧ cbData < 2 ^ 29 ∧ cUnusedBits % 8 ≠ 0 ∧
      (cUnusedBits < 8 ∨ cUnusedBits / 8 % 256 = cUnusedBits % 8))

variable {blob data bytes rest : List Byte} {bits : List Bool} {k n r : ℕ} {unusedBits : Byte}

/-! ## Bits -/

theorem bitsOf_append (xs ys : List Byte) : bitsOf (xs ++ ys) = bitsOf xs ++ bitsOf ys :=
  List.flatMap_append

theorem bitsOf_cons (b : Byte) (bytes : List Byte) :
    bitsOf (b :: bytes) = (List.range 8).map b.getMsbD ++ bitsOf bytes := rfl

theorem length_bitsOf (bytes : List Byte) : (bitsOf bytes).length = 8 * bytes.length := by
  induction bytes with
  | nil => rfl
  | cons b bytes ih =>
    rw [bitsOf_cons, List.length_append, List.length_map, List.length_range, ih, List.length_cons]
    omega

theorem take_bitsOf (bytes : List Byte) (k : ℕ) :
    (bitsOf bytes).take (8 * k) = bitsOf (bytes.take k) := by
  induction k generalizing bytes with
  | zero => rfl
  | succ k ih =>
    cases bytes with
    | nil => rfl
    | cons b bytes =>
      have hlen : ((List.range 8).map b.getMsbD).length = 8 := rfl
      have htake := @List.take_length_add_append _ ((List.range 8).map b.getMsbD) (bitsOf bytes) (8 * k)
      rw [hlen, show 8 + 8 * k = 8 * (k + 1) by omega] at htake
      rw [bitsOf_cons, htake, ih, List.take_succ_cons, bitsOf_cons]

/-- The mask clears the last bits. -/
theorem bitsOf_mask (b : Byte) (hr : r < 8) : (List.range 8).map (b &&& bitMask r).getMsbD =
    ((List.range 8).map b.getMsbD).take (8 - r) ++ List.replicate r false := by
  have hmask : ∀ r < 8, ∀ i < 8, (bitMask r).getMsbD i = decide (i < 8 - r) := by decide
  have hbit : ∀ i < 8, (b &&& bitMask r).getMsbD i = (b.getMsbD i && decide (i < 8 - r)) := by
    intro i hi
    rw [BitVec.getMsbD_and, hmask r hr i hi]
  have hmap : (List.range 8).map (b &&& bitMask r).getMsbD =
      (List.range 8).map fun i => b.getMsbD i && decide (i < 8 - r) :=
    List.map_congr_left fun i hi => hbit i (List.mem_range.mp hi)
  rw [hmap]
  interval_cases r <;> simp [List.range_succ]

/-- The bits of the data bytes. -/
theorem maskedData_spec (hk : k < blob.length) (hr : unusedBits.toNat < 8) :
    ∃ data, maskedData blob unusedBits (k + 1) = .ok data ∧ data.length = k + 1 ∧
      bitsOf data = (bitsOf blob).take (8 * (k + 1) - unusedBits.toNat) ++
        List.replicate unusedBits.toNat false := by
  have hget := List.getElem?_eq_getElem hk
  refine ⟨_, by rw [maskedData, hget], ?_, ?_⟩
  · rw [List.length_append, List.length_take_of_le (Nat.le_of_lt hk), List.length_singleton]
  · have hfirst : (bitsOf (blob.take k)).length = 8 * k := by
      rw [length_bitsOf, List.length_take_of_le (Nat.le_of_lt hk)]
    have hsucc : blob.take (k + 1) = blob.take k ++ [blob[k]] := by
      rw [List.take_add_one, hget, Option.toList_some]
    have hcut : (bitsOf blob).take (8 * (k + 1) - unusedBits.toNat) =
        (bitsOf (blob.take (k + 1))).take (8 * (k + 1) - unusedBits.toNat) := by
      rw [← take_bitsOf, List.take_take, Nat.min_eq_left (Nat.sub_le _ _)]
    have hsplit := @List.take_length_add_append _ (bitsOf (blob.take k)) (bitsOf [blob[k]])
      (8 - unusedBits.toNat)
    rw [hfirst, show 8 * k + (8 - unusedBits.toNat) = 8 * (k + 1) - unusedBits.toNat by omega]
      at hsplit
    have hone : ∀ b, bitsOf [b] = (List.range 8).map b.getMsbD := fun b => List.append_nil _
    rw [hcut, hsucc, bitsOf_append, bitsOf_append, hsplit, hone, hone, bitsOf_mask _ hr,
      List.append_assoc]

theorem maskedData_length {n : ℕ} (h : maskedData blob unusedBits n = .ok data) : data.length = n := by
  cases n with
  | zero =>
    rw [← Except.ok.inj h]
    rfl
  | succ n =>
    rw [maskedData] at h
    cases hget : blob[n]? with
    | none =>
      rw [hget] at h
      exact nomatch h
    | some b =>
      rw [hget] at h
      have hlt : n < blob.length := (List.getElem?_eq_some_iff.mp hget).1
      rw [← Except.ok.inj h, List.length_append, List.length_take_of_le (Nat.le_of_lt hlt),
        List.length_singleton]

/-! ## Encoding -/

/-- What the encoder announces and writes. -/
theorem encodes_bits {cUnusedBits : Dword}
    (hcontent : bitsContent (BitVec.ofNat 32 blob.length) cUnusedBits = (BitVec.ofNat 32 n, unusedBits))
    (hdata : maskedData blob unusedBits n = .ok data)
    (hfit : 1 + (derLength (n + 1)).length + (n + 1) < 2 ^ 32) :
    Encodes (encodeBits blob cUnusedBits)
      (asnBitstring :: (derLength (data.length + 1) ++ (unusedBits :: data))) := by
  have hlen := maskedData_length hdata
  have hsucc : BitVec.ofNat 32 n + 1 = BitVec.ofNat 32 (n + 1) := (BitVec.ofNat_add n 1).symm
  have hnat : (BitVec.ofNat 32 n).toNat = n := by
    rw [BitVec.toNat_ofNat]
    omega
  rw [hlen]
  obtain ⟨der, hder⟩ :
    ∃ der, asnBitstring :: (derLength (n + 1) ++ (unusedBits :: data)) = der := ⟨_, rfl⟩
  obtain ⟨c, hc⟩ : ∃ c, 1 + BitVec.ofNat 32 (derLength (n + 1)).length + BitVec.ofNat 32 n + 1 = c :=
    ⟨_, rfl⟩
  have hcount : c.toNat = der.length := by
    rw [← hc, ← hder, List.length_cons, List.length_append, List.length_cons, hlen]
    bv_omega
  have hcode : ∀ target, encodeBits blob cUnusedBits target =
      if target = .query ∨ !(encodeEnsureSpace c target).ret then .ok (encodeEnsureSpace c target)
      else .ok { encodeEnsureSpace c target with written := der } := by
    intro target
    unfold encodeBits
    rw [hcontent]
    dsimp only
    rw [hsucc, lenBytesNeeded_ofNat (by omega), hc, encodeLen_ofNat (by omega), hnat, hdata, ← hder]
  rw [hder]
  exact encodes_of_space hcount hcode

/-- What the encoder writes when it succeeds. -/
theorem written_of_encodes {cUnusedBits : Dword} {der : List Byte}
    (h : Encodes (encodeBits blob cUnusedBits) der) :
    ∃ data, data.length = (bitsContent (BitVec.ofNat 32 blob.length) cUnusedBits).1.toNat ∧
      der = asnBitstring :: (derLength
        ((bitsContent (BitVec.ofNat 32 blob.length) cUnusedBits).1 + 1).toNat ++
        (bitsContent (BitVec.ofNat 32 blob.length) cUnusedBits).2 :: data) := by
  obtain ⟨-, -, c, -, halloc⟩ := h
  unfold encodeBits at halloc
  obtain ⟨⟨dataBytes, unusedBits⟩, hcontent⟩ :
    ∃ p, bitsContent (BitVec.ofNat 32 blob.length) cUnusedBits = p := ⟨_, rfl⟩
  rw [hcontent] at halloc ⊢
  dsimp only [encodeEnsureSpace] at halloc ⊢
  rw [if_neg (by decide), encodeLen_derLength] at halloc
  cases hdata : maskedData blob unusedBits dataBytes.toNat with
  | error e =>
    rw [hdata] at halloc
    exact nomatch halloc
  | ok data =>
    rw [hdata] at halloc
    refine ⟨data, maskedData_length hdata, ?_⟩
    exact (congrArg Encoded.written (Except.ok.inj halloc)).symm

/-- The contents of an encoding are determined by it. -/
theorem tagged_inj {tag : Byte} {xs ys : List Byte} {m : ℕ} (hm : m < 2 ^ 32)
    (hlt : (tag :: (derLength ys.length ++ ys)).length < 2 ^ 32) (hle : m ≤ xs.length)
    (h : tag :: (derLength m ++ xs) = tag :: (derLength ys.length ++ ys)) : xs = ys := by
  have hxs := (getLen_derLength hle (by rw [h]; exact hlt) rfl).2.1
  have hys := (getLen_derLength (Nat.le_refl _) hlt rfl).2.1
  rw [h, hys] at hxs
  have hmod := congrArg BitVec.toNat (Except.ok.inj hxs)
  rw [List.length_cons, List.length_append] at hlt
  rw [BitVec.toNat_ofNat, BitVec.toNat_ofNat, Nat.mod_eq_of_lt hm, Nat.mod_eq_of_lt (by omega)]
    at hmod
  rw [hmod] at h
  exact List.append_cancel_left (List.cons.inj h).2

/-! ## Decoding -/

theorem maskLast_maskedData {n : ℕ} (h : maskedData blob unusedBits n = .ok data) :
    maskLast (bitMask unusedBits.toNat) data = data := by
  cases n with
  | zero =>
    rw [← Except.ok.inj h]
    rfl
  | succ n =>
    rw [maskedData] at h
    cases hget : blob[n]? with
    | none =>
      rw [hget] at h
      exact nomatch h
    | some b =>
      rw [hget] at h
      rw [← Except.ok.inj h, maskLast, List.dropLast_concat, List.getLast?_concat, Option.toList_some,
        List.map_singleton, BitVec.and_assoc, BitVec.and_self]

/-- The blob that the decoder makes of contents that are not empty. -/
def decodedBits (nocopy : Bool) (unusedBits : Byte) (bytes : List Byte) : BitBlob :=
  ⟨BitVec.ofNat 32 bytes.length, if nocopy then bytes else maskLast (bitMask unusedBits.toNat) bytes,
    unusedBits.setWidth 32⟩

def neededBits (nocopy : Bool) (n : ℕ) : Dword :=
  if nocopy then sizeofBitBlob else BitVec.ofNat 32 n + sizeofBitBlob

theorem decodeBitsInternal_eq (nocopy : Bool) (hlt : data.length < 2 ^ 32)
    (hdata : data = asnBitstring ::
      (derLength (bytes.length + 1) ++ (unusedBits :: (bytes ++ rest)))) :
    decodeBitsInternal nocopy data (BitVec.ofNat 32 data.length) none =
      .ok (neededBits nocopy bytes.length, none) ∧
    ∀ space, neededBits nocopy bytes.length ≤ space →
      decodeBitsInternal nocopy data (BitVec.ofNat 32 data.length) (some space) =
        .ok (neededBits nocopy bytes.length, some (decodedBits nocopy unusedBits bytes)) := by
  have hle : bytes.length + 1 ≤ (unusedBits :: (bytes ++ rest)).length := by
    rw [List.length_cons, List.length_append]
    omega
  obtain ⟨htag, hlen, ⟨b, hb, hfirst⟩, hdrop⟩ := getLen_derLength hle hlt hdata
  obtain ⟨first, hf⟩ : ∃ first, 1 + (derLength (bytes.length + 1)).length = first := ⟨_, rfl⟩
  have htotal : first + (bytes.length + 1) ≤ data.length := by
    rw [← hf, hdata, List.length_cons, List.length_append, List.length_cons, List.length_append]
    omega
  have hsub : BitVec.ofNat 32 (bytes.length + 1) - 1 = BitVec.ofNat 32 bytes.length := by bv_omega
  have hnat : (BitVec.ofNat 32 bytes.length).toNat = bytes.length := by
    rw [BitVec.toNat_ofNat]
    omega
  rw [hf] at hdrop
  have hread : readByte data first = .ok unusedBits := by
    have hget := @List.getElem?_drop _ data first 0
    rw [hdrop, Nat.add_zero] at hget
    exact readByte_eq hget.symm
  have hbytes : (data.drop (first + 1)).take bytes.length = bytes := by
    rw [← List.drop_drop, hdrop, List.drop_one, List.tail_cons, List.take_left]
  have hcopy : copyBytes data (first + 1) bytes.length = .ok bytes := by
    rw [copyBytes, if_neg (by omega), hbytes]
  unfold decodeBitsInternal
  refine ⟨?_, fun space hspace => ?_⟩
  · simp only [htag, ok_bind, hlen, if_true, hsub]
    rfl
  · unfold neededBits at hspace
    simp only [htag, ok_bind, hlen, hb, hfirst, if_true, hsub, if_neg (BitVec.not_lt.mpr hspace), hf,
      hread, hnat]
    cases nocopy with
    | false =>
      rw [if_neg Bool.false_ne_true, hcopy]
      rfl
    | true =>
      rw [if_pos rfl, hbytes]
      rfl

theorem decodeBits_eq (nocopy : Bool) (hlt : data.length < 2 ^ 32)
    (hdata : data = asnBitstring ::
      (derLength (bytes.length + 1) ++ (unusedBits :: (bytes ++ rest)))) (target : Target) :
    decodeBits nocopy data (BitVec.ofNat 32 data.length) target =
      if target = .query then .ok (neededBits nocopy bytes.length, none)
      else decodeEnsureSpace (neededBits nocopy bytes.length) target >>= fun cb =>
        .ok (cb, some (decodedBits nocopy unusedBits bytes)) := by
  obtain ⟨hquery, hspace⟩ := decodeBitsInternal_eq nocopy hlt hdata
  unfold decodeBits
  rw [hquery, ok_bind]
  dsimp only
  rw [hspace _ (BitVec.le_refl _)]
  rfl

/-! ## Round trip -/

theorem derLength_length_le (h : n < 2 ^ 32) : (derLength n).length ≤ 5 := by
  unfold derLength
  split
  · exact Nat.le_add_left 1 4
  · rw [List.length_cons, List.length_map, List.length_reverse]
    exact Nat.succ_le_succ ((Nat.digits_length_le_iff (b := 256) (by decide) n).mpr h)

/-- Contents with the bits and fewer than 8 unused ones round trip. -/
theorem codesBits_of_content {cUnusedBits : Dword}
    (hcontent : bitsContent (BitVec.ofNat 32 blob.length) cUnusedBits = (BitVec.ofNat 32 n, unusedBits))
    (hn : n ≤ blob.length) (hr : unusedBits.toNat < 8)
    (hbits : 8 * n = 8 * blob.length - cUnusedBits.toNat + unusedBits.toNat)
    (hfit : n + 12 < 2 ^ 32) : CodesBits blob cUnusedBits := by
  obtain ⟨data, hdata, hlen, hof⟩ : ∃ data, maskedData blob unusedBits n = .ok data ∧
      data.length = n ∧ bitsOf data = (bitsOf blob).take (8 * blob.length - cUnusedBits.toNat) ++
        List.replicate unusedBits.toNat false := by
    rw [show 8 * blob.length - cUnusedBits.toNat = 8 * n - unusedBits.toNat by omega]
    cases n with
    | zero =>
      have hzero : unusedBits.toNat = 0 := by omega
      rw [hzero]
      exact ⟨[], rfl, rfl, rfl⟩
    | succ k => exact maskedData_spec hn hr
  obtain ⟨bits, hb⟩ : ∃ bits, (bitsOf blob).take (8 * blob.length - cUnusedBits.toNat) = bits :=
    ⟨_, rfl⟩
  have hcount : bits.length = 8 * n - unusedBits.toNat := by
    rw [← hb, List.length_take_of_le (by rw [length_bitsOf]; omega)]
    omega
  have hshort : (derLength (n + 1)).length ≤ 5 := derLength_length_le (by omega)
  rw [hb] at hof
  unfold CodesBits
  rw [hb]
  refine ⟨asnBitstring :: (derLength (data.length + 1) ++ (unusedBits :: data)), ?_,
    encodes_bits hcontent hdata (by omega), fun nocopy => ?_⟩
  · exact ⟨unusedBits.toNat, data, hr, hof, by rw [BitVec.ofNat_toNat, BitVec.setWidth_eq]⟩
  · have hder : (asnBitstring :: (derLength (data.length + 1) ++ (unusedBits :: data))).length <
        2 ^ 32 := by
      rw [List.length_cons, List.length_append, List.length_cons, hlen]
      omega
    have hdecode := @decodeBits_eq _ data [] unusedBits nocopy hder
      (by rw [List.append_nil])
    have hcb : (BitVec.ofNat 32 data.length).toNat = data.length := by
      rw [BitVec.toNat_ofNat]
      omega
    have hblob : decodedBits nocopy unusedBits data =
        ⟨BitVec.ofNat 32 data.length, data, unusedBits.setWidth 32⟩ := by
      unfold decodedBits
      rw [maskLast_maskedData hdata, ite_self]
    rw [hblob] at hdecode
    refine ⟨⟨BitVec.ofNat 32 data.length, data, unusedBits.setWidth 32⟩,
      neededBits nocopy data.length, ⟨hcb.symm, ?_⟩, ?_, ?_, fun size hsize => ?_, ?_⟩
    · have hunused : (unusedBits.setWidth 32).toNat = unusedBits.toNat := by
        rw [BitVec.toNat_setWidth]
        omega
      dsimp only
      rw [hcb, hof, hunused, hlen, ← hcount, List.take_left]
    · unfold neededBits sizeofBitBlob
      cases nocopy with
      | false =>
        rw [if_neg Bool.false_ne_true, if_neg Bool.false_ne_true]
        bv_omega
      | true => rfl
    · exact hdecode .query
    · rw [hdecode, if_neg (by simp), decodeEnsureSpace, if_neg (BitVec.not_lt.mpr hsize)]
      rfl
    · exact hdecode (.alloc true)

/-- The numbers that the encoder computes. -/
theorem bitsContent_toNat (c : ℕ) (cUnusedBits : Dword) (h : cUnusedBits ≠ 0) :
    ((bitsContent (BitVec.ofNat 32 c) cUnusedBits).1.toNat =
      if cUnusedBits.toNat < 8 * c % 2 ^ 32 then (8 * c % 2 ^ 32 - cUnusedBits.toNat) / 8 + 1 else 0) ∧
    ((bitsContent (BitVec.ofNat 32 c) cUnusedBits).2.toNat =
      if cUnusedBits.toNat < 8 * c % 2 ^ 32 then
        if 8 ≤ cUnusedBits.toNat then cUnusedBits.toNat / 8 % 256 else cUnusedBits.toNat
      else 0) := by
  have hbits : (BitVec.ofNat 32 c * 8 : Dword).toNat = 8 * c % 2 ^ 32 := by
    rw [BitVec.toNat_mul, BitVec.toNat_ofNat]
    change c % 2 ^ 32 * 8 % 2 ^ 32 = _
    omega
  have hlt : cUnusedBits < BitVec.ofNat 32 c * 8 ↔ cUnusedBits.toNat < 8 * c % 2 ^ 32 := by
    rw [BitVec.lt_def, hbits]
  have hge : 8 ≤ cUnusedBits ↔ 8 ≤ cUnusedBits.toNat := BitVec.le_def
  unfold bitsContent
  rw [if_neg h]
  by_cases hmore : cUnusedBits.toNat < 8 * c % 2 ^ 32
  · rw [if_pos (hlt.mpr hmore), if_pos hmore, if_pos hmore]
    have hsub : (BitVec.ofNat 32 c * 8 - cUnusedBits).toNat = 8 * c % 2 ^ 32 - cUnusedBits.toNat := by
      rw [BitVec.toNat_sub_of_le (BitVec.le_of_lt (hlt.mpr hmore)), hbits]
    refine ⟨?_, ?_⟩
    · rw [BitVec.toNat_add, BitVec.toNat_udiv, hsub]
      change ((8 * c % 2 ^ 32 - cUnusedBits.toNat) / 8 + 1) % 2 ^ 32 = _
      omega
    · by_cases hlarge : 8 ≤ cUnusedBits.toNat
      · rw [if_pos (hge.mpr hlarge), if_pos hlarge, BitVec.toNat_setWidth, BitVec.toNat_udiv]
        rfl
      · rw [if_neg (fun hle => hlarge (hge.mp hle)), if_neg hlarge, BitVec.toNat_setWidth]
        omega
  · rw [if_neg (fun h' => hmore (hlt.mp h')), if_neg hmore, if_neg hmore]
    exact ⟨rfl, rfl⟩

theorem codesBits_of_fit (cUnusedBits : Dword) (h : BitsFit blob.length cUnusedBits.toNat) :
    CodesBits blob cUnusedBits := by
  obtain ⟨u, hu⟩ : ∃ u, cUnusedBits.toNat = u := ⟨_, rfl⟩
  rw [hu] at h
  have hlt := cUnusedBits.isLt
  by_cases hzero : cUnusedBits = 0
  · have hfit : blob.length + 12 < 2 ^ 32 := by
      rw [hzero] at hu
      have hu0 : u = 0 := hu.symm
      obtain h | h | h := h
      · exact h.2
      · exact absurd hu0 h.1
      · omega
    refine @codesBits_of_content blob blob.length 0 _ ?_ (Nat.le_refl _) (by decide) ?_ hfit
    · rw [bitsContent, if_pos hzero]
    · rw [hzero]
      rfl
  · obtain ⟨hbytes, hunused⟩ := bitsContent_toNat blob.length cUnusedBits hzero
    have hne : u ≠ 0 := fun h0 => hzero (BitVec.eq_of_toNat_eq (hu.trans h0))
    obtain ⟨⟨dataBytes, unusedBits⟩, hcontent⟩ :
      ∃ p, bitsContent (BitVec.ofNat 32 blob.length) cUnusedBits = p := ⟨_, rfl⟩
    rw [hcontent] at hbytes hunused
    dsimp only at hbytes hunused
    rw [hu] at hbytes hunused
    have hof : dataBytes = BitVec.ofNat 32 dataBytes.toNat := by
      rw [BitVec.ofNat_toNat, BitVec.setWidth_eq]
    rw [hof] at hcontent
    obtain h | h | ⟨hused, hsmall, hmod, hcase⟩ := h
    · exact absurd h.1 hne
    · have hnone : ¬u < 8 * blob.length % 2 ^ 32 := by omega
      rw [if_neg hnone] at hbytes hunused
      exact codesBits_of_content hcontent (by omega) (by omega) (by omega) (by omega)
    · have hmore : u < 8 * blob.length % 2 ^ 32 := by omega
      rw [if_pos hmore, Nat.mod_eq_of_lt (by omega)] at hbytes
      rw [if_pos hmore] at hunused
      have hrem : unusedBits.toNat = u % 8 := by
        rw [hunused]
        split <;> omega
      exact codesBits_of_content hcontent (by omega) (by omega) (by omega) (by omega)

/-- What is encoded as it should be has a count of data bytes and of unused bits that fit together. -/
theorem fit_of_codesBits (cUnusedBits : Dword) (hblob : blob.length < 2 ^ 32)
    (h : CodesBits blob cUnusedBits) : BitsFit blob.length cUnusedBits.toNat := by
  obtain ⟨der, ⟨unused, data, hunused, hof, hder⟩, hencodes, hdecodes⟩ := h
  obtain ⟨cbits, hlen, hwritten⟩ := written_of_encodes hencodes
  have hshort : der.length < 2 ^ 32 := by
    obtain ⟨⟨c, hc, -⟩, -, -⟩ := hencodes
    rw [← hc]
    exact c.isLt
  have hlength := congrArg List.length hof
  rw [length_bitsOf, List.length_append, List.length_replicate,
    List.length_take_of_le (by rw [length_bitsOf]; omega)] at hlength
  have hcontents : (BitVec.ofNat 8 unused :: data).length = data.length + 1 := rfl
  have hsame : cbits.length = data.length ∧
      (bitsContent (BitVec.ofNat 32 blob.length) cUnusedBits).2 = BitVec.ofNat 8 unused := by
    have hfirst := hwritten.symm.trans hder
    have hlt : (derLength (data.length + 1) ++ (BitVec.ofNat 8 unused :: data)).length + 1 < 2 ^ 32 := by
      rw [hder] at hshort
      exact hshort
    have hcons := tagged_inj (BitVec.isLt _) (by rw [hcontents]; exact hlt) (by
      rw [List.length_cons, hlen, BitVec.toNat_add]
      exact Nat.mod_le _ _) (hfirst.trans (by rw [hcontents]))
    exact ⟨congrArg List.length (List.cons.inj hcons).2, (List.cons.inj hcons).1⟩
  obtain ⟨hbytes, hcount⟩ := hsame
  rw [hlen] at hbytes
  by_cases hzero : cUnusedBits = 0
  · refine .inl ⟨by rw [hzero]; rfl, ?_⟩
    rw [bitsContent, if_pos hzero, BitVec.toNat_ofNat, Nat.mod_eq_of_lt hblob] at hbytes
    obtain ⟨blob', needed, ⟨hpb, hbits⟩, hneeded, -, -, -⟩ := hdecodes false
    have hle := congrArg List.length hbits
    rw [List.length_take, length_bitsOf, hpb, hzero, List.length_take, length_bitsOf] at hle
    have hu0 : (0 : Dword).toNat = 0 := rfl
    rw [if_neg Bool.false_ne_true] at hneeded
    have hlt := needed.isLt
    omega
  · obtain ⟨hdata, hrem⟩ := bitsContent_toNat blob.length cUnusedBits hzero
    have hne : cUnusedBits.toNat ≠ 0 := fun h0 => hzero (BitVec.eq_of_toNat_eq h0)
    have hnat : (BitVec.ofNat 8 unused).toNat = unused := by
      rw [BitVec.toNat_ofNat]
      omega
    rw [hcount, hnat] at hrem
    rw [hbytes] at hdata
    have hlt := cUnusedBits.isLt
    unfold BitsFit
    split at hdata
    · next hmore =>
      rw [if_pos hmore] at hrem
      refine .inr (.inr ?_)
      have hsmall : blob.length < 2 ^ 29 := by
        by_contra hlarge
        have hwrap : 8 * blob.length % 2 ^ 32 + 2 ^ 32 ≤ 8 * blob.length := by omega
        generalize 8 * blob.length % 2 ^ 32 = w at hwrap hmore hdata
        omega
      rw [Nat.mod_eq_of_lt (by omega)] at hdata hmore
      split at hrem <;> omega
    · next hmore =>
      rw [if_neg hmore] at hrem
      exact .inr (.inl ⟨hne, by omega⟩)

/-- Of empty contents the decoder takes a byte for the count and makes one byte less than none. -/
theorem decodeBits_empty {cbEncoded : Dword} {b : Byte} (htag : readByte data 0 = .ok asnBitstring)
    (hlen : getLen data cbEncoded = .ok 0) (hone : readByte data 1 = .ok 0)
    (htwo : readByte data 2 = .ok b) :
    ∃ bytes, decodeBits true data cbEncoded (.alloc true) =
      .ok (sizeofBitBlob, some ⟨0xffffffff, bytes, b.setWidth 32⟩) := by
  have hfirst : 1 + getLenBytes 0 = 2 := rfl
  unfold decodeBits decodeBitsInternal
  simp only [htag, ok_bind, hlen, hone, hfirst, htwo, if_true]
  exact ⟨_, rfl⟩

/-- The bytes that the decoder counts. -/
theorem countsBytes_iff (content rest : List Byte)
    (hlt : (asnBitstring :: (derLength content.length ++ (content ++ rest))).length < 2 ^ 32) :
    (∀ nocopy target, CountsBytes content.length (decodeBits nocopy
      (asnBitstring :: (derLength content.length ++ (content ++ rest)))
      (BitVec.ofNat 32 (asnBitstring :: (derLength content.length ++ (content ++ rest))).length)
      target)) ↔ content ≠ [] := by
  constructor
  · rintro h rfl
    have hbuffer := h true (.alloc true)
    cases rest with
    | nil => exact absurd rfl (show DecodeError.overread ≠ .overread from hbuffer)
    | cons b rest =>
      obtain ⟨htag, hlen, -, -⟩ :=
        @getLen_derLength _ (b :: rest) 0 _ (Nat.zero_le _) hlt rfl
      obtain ⟨bytes, hrun⟩ := decodeBits_empty htag hlen rfl (rfl : readByte _ 2 = .ok b)
      rw [hrun] at hbuffer
      exact absurd (show (4294967295 : ℤ) = 0 - 1 from hbuffer) (by decide)
  · intro hne nocopy target
    obtain ⟨unusedBits, bytes, rfl⟩ := List.exists_cons_of_ne_nil hne
    rw [decodeBits_eq nocopy hlt rfl]
    have hcb : ((decodedBits nocopy unusedBits bytes).cbData.toNat : ℤ) =
        ((unusedBits :: bytes).length : ℤ) - 1 := by
      have hnat : (BitVec.ofNat 32 bytes.length).toNat = bytes.length := by
        rw [List.length_cons, List.length_append, List.length_append, List.length_cons] at hlt
        rw [BitVec.toNat_ofNat]
        omega
      rw [decodedBits, hnat, List.length_cons]
      omega
    cases target with
    | query => exact trivial
    | buffer size =>
      rw [if_neg (by simp), decodeEnsureSpace]
      split
      · change DecodeError.moreData _ ≠ .overread
        intro h
        cases h
      · exact hcb
    | alloc mem =>
      cases mem with
      | false =>
        change DecodeError.noMemory ≠ .overread
        intro h
        cases h
      | true => exact hcb

end Wine.Crypt32
