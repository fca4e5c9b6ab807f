import Mathlib.Data.Nat.Digits.Defs
import Wine.Lib.TwosComplement

/-!
# Lengths of encoded values

The length bytes behind a tag. The decoder gets a pointer, here the bytes from there to the end of
what may be read, and the number of bytes that its caller says are there.
-/

namespace Wine.Crypt32

abbrev Byte := BitVec 8

abbrev Dword := BitVec 32

def asnInteger : Byte := 0x02

/-! ## Encoding -/

/-- The loop of `CRYPT_EncodeLen`: how many bytes are left when the shifted length has a first byte. -/
def significantBytes : ℕ → Dword → ℕ
  | 0, _ => 0
  | n + 1, temp => if temp &&& 0xff000000 = 0 then significantBytes n (temp <<< 8) else n + 1

/-- The last `n` bytes of the length, the first one first. -/
def lenDigits : ℕ → Dword → List Byte
  | 0, _ => []
  | n + 1, len => lenDigits n (len >>> 8) ++ [len.setWidth 8]

def lenBytesNeeded (len : Dword) : ℕ :=
  if len ≤ 0x7f then 1 else significantBytes 4 len + 1

/-- `CRYPT_EncodeLen` with the space that there is (`none` for a size query): the number of bytes
needed and the bytes written. -/
def encodeLen (len : Dword) (space : Option ℕ) : Option (ℕ × List Byte) :=
  match space with
  | none => some (lenBytesNeeded len, [])
  | some space =>
    if space < lenBytesNeeded len then none
    else if len ≤ 0x7f then some (lenBytesNeeded len, [len.setWidth 8])
    else some (lenBytesNeeded len, (BitVec.ofNat 8 (significantBytes 4 len) ||| 0x80) ::
      lenDigits (significantBytes 4 len) len)

/-! ## Decoding -/

/-- How a decoder fails: a read outside the input, or the code for `SetLastError`. -/
inductive DecodeError
  | overread
  | corrupt
  | eod
  | large
  | badTag
  | moreData (needed : Dword)
  | noMemory
  deriving DecidableEq, Repr

def readByte (data : List Byte) (i : ℕ) : Except DecodeError Byte :=
  match data[i]? with
  | some b => .ok b
  | none => .error .overread

/-- `GET_LEN_BYTES` -/
def getLenBytes (b : Byte) : ℕ := if b ≤ 0x7f then 1 else 1 + (b &&& 0x7f).toNat

/-- The loop of `CRYPT_GetLen` over the length bytes. -/
def lenLoop (data : List Byte) : ℕ → ℕ → Dword → Except DecodeError Dword
  | 0, _, out => .ok out
  | n + 1, i, out => do
    let b ← readByte data i
    lenLoop data n (i + 1) ((out <<< 8) ||| b.setWidth 32)

/-- `CRYPT_GetLen`; the counter of the loop is 0 in the last comparison. -/
def getLen (data : List Byte) (cbEncoded : Dword) : Except DecodeError Dword :=
  if cbEncoded ≤ 1 then .error .corrupt
  else do
    let b ← readByte data 1
    if b ≤ 0x7f then
      if cbEncoded < b.setWidth 32 + 1 then .error .eod else return b.setWidth 32
    else
      let lenLen := getLenBytes b
      if 5 < lenLen then .error .large
      else if cbEncoded < BitVec.ofNat 32 lenLen + 2 then .error .corrupt
      else
        let out ← lenLoop data (lenLen - 1) 2 0
        if cbEncoded < out + 1 then .error .eod else return out

/-! ## The standard -/

/-- The length bytes in their shortest form. -/
def derLength (n : ℕ) : List Byte :=
  if n < 128 then [BitVec.ofNat 8 n]
  else BitVec.ofNat 8 (128 + (Nat.digits 256 n).length) ::
    (Nat.digits 256 n).reverse.map (BitVec.ofNat 8)

end Wine.Crypt32

/-!
## Integers

The encoders and decoders of integer blobs, which are little-endian, and of 32-bit integers. A blob
is the list of its bytes.
-/

namespace Wine.Crypt32

/-- What the caller hands over: nothing (a size query), a buffer with its size, or
`CRYPT_ENCODE_ALLOC_FLAG` with the outcome of the allocation. -/
inductive Target
  | query
  | buffer (size : Dword)
  | alloc (mem : Bool)
  deriving DecidableEq, Repr

/-- What an encoder does that it may not: a read outside the blob, or a length that is left out. -/
inductive EncodeFault
  | overread
  | unwritten
  deriving DecidableEq, Repr

/-- The result with `*pcbEncoded` (unless it is as before) and the bytes written. -/
structure Encoded where
  ret : Bool
  cbEncoded : Option Dword
  written : List Byte
  deriving DecidableEq, Repr

/-- `CRYPT_EncodeEnsureSpace` -/
def encodeEnsureSpace (needed : Dword) : Target → Encoded
  | .query => ⟨true, some needed, []⟩
  | .buffer size => ⟨needed ≤ size, some needed, []⟩
  | .alloc mem => ⟨mem, if mem then some needed else none, []⟩

/-! ## Encoding -/

/-- `pbData[n - 1]` -/
def lastByte (blob : List Byte) : ℕ → Except EncodeFault Byte
  | 0 => .error .overread
  | n + 1 =>
    match blob[n]? with
    | some b => .ok b
    | none => .error .overread

/-- The loops that lop off bytes at the end. -/
def lopOff (fill : Byte) (blob : List Byte) : ℕ → ℕ
  | 0 => 0
  | n + 1 => if blob[n]? = some fill then lopOff fill blob n else n + 1

/-- The significant bytes of a blob that is not negative, and the byte for padding. -/
def positiveContent (blob : List Byte) : Except EncodeFault (ℕ × Option Byte) := do
  let n := lopOff 0 blob blob.length
  let n := if n = 0 then 1 else n
  let last ← lastByte blob n
  return (n, if 0x7f < last then some 0 else none)

def signedContent (blob : List Byte) : Except EncodeFault (ℕ × Option Byte) :=
  if blob.length = 0 then .ok (0, none)
  else do
    let top ← lastByte blob blob.length
    if top &&& 0x80 ≠ 0 then
      let n := lopOff 0xff blob blob.length
      let last ← lastByte blob n
      return (n, if last < 0x80 then some 0xff else none)
    else positiveContent blob

def unsignedContent (blob : List Byte) : Except EncodeFault (ℕ × Option Byte) :=
  if blob.length = 0 then .ok (0, none) else positiveContent blob

/-- The tag, the length and the contents, once there is space for them. -/
def putContent (space : Encoded) (len : Dword) (lenBytes : ℕ) (contents : List Byte) :
    Except EncodeFault Encoded :=
  match encodeLen len (some lenBytes) with
  | none => .error .unwritten
  | some (_, bytes) => .ok { space with written := asnInteger :: (bytes ++ contents) }

/-- The rest of both encoders: `bytesNeeded` is a `BYTE`. -/
def encodeContent (blob : List Byte) (target : Target) (n : ℕ) (pad : Option Byte) :
    Except EncodeFault Encoded :=
  let len : Dword := if pad.isSome then BitVec.ofNat 32 n + 1 else BitVec.ofNat 32 n
  let lenBytes := lenBytesNeeded len
  let bytesNeeded : Byte := BitVec.ofNat 8 (1 + lenBytes + n)
  let bytesNeeded := if pad.isSome then bytesNeeded + 1 else bytesNeeded
  let space := encodeEnsureSpace (bytesNeeded.setWidth 32) target
  if target = .query ∨ !space.ret then .ok space
  else putContent space len lenBytes (pad.toList ++ (blob.take n).reverse)

/-- `CRYPT_AsnEncodeInteger` -/
def encodeInteger (blob : List Byte) (target : Target) : Except EncodeFault Encoded := do
  let r ← signedContent blob
  encodeContent blob target r.1 r.2

/-- `CRYPT_AsnEncodeUnsignedInteger` -/
def encodeUnsignedInteger (blob : List Byte) (target : Target) : Except EncodeFault Encoded := do
  let r ← unsignedContent blob
  encodeContent blob target r.1 r.2

/-- An `int` in memory. -/
def intBytes (v : BitVec 32) : List Byte :=
  [v.setWidth 8, (v >>> 8).setWidth 8, (v >>> 16).setWidth 8, (v >>> 24).setWidth 8]

/-- `CRYPT_AsnEncodeInt` -/
def encodeInt (v : BitVec 32) (target : Target) : Except EncodeFault Encoded :=
  encodeInteger (intBytes v) target

/-! ## Decoding -/

/-- `sizeof(CRYPT_INTEGER_BLOB)` -/
def sizeofBlob : Dword := 8

/-- `CRYPT_DecodeEnsureSpace` with the value of `*pcbStructInfo` on success. -/
def decodeEnsureSpace (needed : Dword) : Target → Except DecodeError Dword
  | .query => .ok needed
  | .buffer size => if size < needed then .error (.moreData needed) else .ok needed
  | .alloc mem => if mem then .ok needed else .error .noMemory

/-- The loop that copies the contents, the last byte first. -/
def copyReversed (data : List Byte) (first : ℕ) : ℕ → Except DecodeError (List Byte)
  | 0 => .ok []
  | n + 1 => do
    let b ← readByte data (first + n)
    return b :: (← copyReversed data first n)

/-- `CRYPT_AsnDecodeIntegerInternal`, and with `skip` `CRYPT_AsnDecodeUnsignedIntegerInternal`: the
size needed, and the blob unless it is a size query. -/
def decodeBlob (skip : Bool) (data : List Byte) (cbEncoded : Dword) (space : Option Dword) :
    Except DecodeError (Dword × Option (List Byte)) := do
  if (← readByte data 0) = asnInteger then
    let dataLen ← getLen data cbEncoded
    let first := 1 + getLenBytes (← readByte data 1)
    let bytesNeeded := dataLen + sizeofBlob
    match space with
    | none => return (bytesNeeded, none)
    | some space =>
      if space < bytesNeeded then .error (.moreData bytesNeeded)
      else if skip ∧ dataLen ≠ 0 then
        -- the copy leaves out a leading zero
        if (← readByte data first) = 0 then
          return (bytesNeeded, some (← copyReversed data (first + 1) (dataLen.toNat - 1)))
        else return (bytesNeeded, some (← copyReversed data first dataLen.toNat))
      else return (bytesNeeded, some (← copyReversed data first dataLen.toNat))
  else .error .badTag

def decodeIntegerInternal := decodeBlob false

def decodeUnsignedIntegerInternal := decodeBlob true

/-- The wrapper around either of them. -/
def decodeWith (internal : List Byte → Dword → Option Dword →
    Except DecodeError (Dword × Option (List Byte))) (data : List Byte) (cbEncoded : Dword)
    (target : Target) : Except DecodeError (Dword × Option (List Byte)) := do
  let bytesNeeded := (← internal data cbEncoded none).1
  if target = .query then return (bytesNeeded, none)
  else
    let cb ← decodeEnsureSpace bytesNeeded target
    return (cb, (← internal data cbEncoded (some bytesNeeded)).2)

/-- `CRYPT_AsnDecodeInteger` -/
def decodeInteger := decodeWith decodeIntegerInternal

/-- `CRYPT_AsnDecodeUnsignedInteger` -/
def decodeUnsignedInteger := decodeWith decodeUnsignedIntegerInternal

/-- The loop over the bytes of the blob, the last one first. -/
def intLoop (blob : List Byte) : ℕ → BitVec 32 → BitVec 32
  | 0, val => val
  | n + 1, val => intLoop blob n ((val <<< 8) ||| (blob.getD n 0).setWidth 32)

/-- `CRYPT_AsnDecodeInt`, with the sign of the byte at `cbData - 1`. -/
def decodeInt (data : List Byte) (cbEncoded : Dword) (target : Target) :
    Except DecodeError (Dword × Option (BitVec 32)) :=
  if target = .query then .ok (4, none)
  else
    match decodeIntegerInternal data cbEncoded (some (sizeofBlob + 4)) with
    | .error (.moreData _) => .error .large
    | .error e => .error e
    | .ok (_, blob) => do
      let cb ← decodeEnsureSpace 4 target
      let blob := blob.getD []
      match blob.getLast? with
      | none => .error .overread
      | some b =>
        let val : BitVec 32 := if b &&& 0x80 ≠ 0 then -1 else 0
        return (cb, some (intLoop blob blob.length val))

end Wine.Crypt32

/-!
## The contents of an encoded integer

What is left of a blob without the bytes that the sign implies, and what one byte of padding makes
of it, is the shortest list of bytes with the value of the blob.
-/

namespace Wine.Crypt32
open Wine.Lib

/-- The first `n` bytes of the blob and the padding have the value `v`. -/
structure Content (v : ℤ) (blob : List Byte) (n : ℕ) (pad : Option Byte) : Prop where
  le : n ≤ blob.length
  value : signedOf (blob.take n ++ pad.toList) = v
  minimal : Minimal (blob.take n ++ pad.toList)

variable {blob x : List Byte} {b fill : Byte} {m n : ℕ}

theorem take_succ_of_getElem? (h : blob[n]? = some b) : blob.take (n + 1) = blob.take n ++ [b] := by
  rw [List.take_add_one, h, Option.toList_some]

theorem lastByte_succ (h : blob[n]? = some b) : lastByte blob (n + 1) = .ok b := by
  rw [lastByte, h]

/-- What the loops leave: the value with one byte of filling stays, and unless nothing is left it
ends with another byte. -/
theorem lopOff_spec (hfill : signFill fill = fill) (hm : m ≤ blob.length) :
    lopOff fill blob m ≤ m ∧
    signedOf (blob.take (lopOff fill blob m) ++ [fill]) = signedOf (blob.take m ++ [fill]) ∧
    (lopOff fill blob m = 0 ∨ ∃ k b, lopOff fill blob m = k + 1 ∧ blob[k]? = some b ∧ b ≠ fill) ∧
    ∀ i, lopOff fill blob m ≤ i → i < m → blob[i]? = some fill := by
  induction m with
  | zero => exact ⟨Nat.le_refl 0, rfl, .inl rfl, fun i _ hi => absurd hi (Nat.not_lt_zero i)⟩
  | succ m ih =>
    obtain ⟨hle, hvalue, hlast, hrest⟩ := ih (Nat.le_of_succ_le hm)
    unfold lopOff
    split
    · next h =>
      refine ⟨Nat.le_succ_of_le hle, ?_, hlast, fun i hi hlt => ?_⟩
      · have hstep := signedOf_fill (x := blob.take m) (b := fill)
        rw [hfill] at hstep
        rw [hvalue, take_succ_of_getElem? h, List.append_assoc, List.singleton_append, hstep]
      · by_cases him : i = m
        · rw [him, h]
        · exact hrest i hi (by omega)
    · next h =>
      refine ⟨Nat.le_refl _, rfl, .inr ⟨m, blob[m], rfl, List.getElem?_eq_getElem hm, ?_⟩, ?_⟩
      · intro heq
        exact h (heq ▸ List.getElem?_eq_getElem hm)
      · exact fun i hi hlt => absurd hi (by omega)

/-- A last byte other than the filling, padded if it has the wrong sign. -/
theorem content_of_last {v : ℤ} {k : ℕ} (hk : k < blob.length) (hb : blob[k]? = some b)
    (hne : b ≠ fill) (hv : signedOf (blob.take (k + 1) ++ [fill]) = v) :
    Content v blob (k + 1) (if signFill b = fill then none else some fill) := by
  rw [take_succ_of_getElem? hb, List.append_assoc, List.singleton_append] at hv
  split
  · next h =>
    refine ⟨hk, ?_, ?_⟩
    · rw [← hv, ← h, signedOf_fill, take_succ_of_getElem? hb, Option.toList_none, List.append_nil]
    · rw [take_succ_of_getElem? hb, Option.toList_none, List.append_nil]
      refine minimal_snoc (fun hb => hne ?_) fun hb => hne ?_
      · rw [← h, hb]
        rfl
      · rw [← h, hb]
        rfl
  · next h =>
    refine ⟨hk, ?_, ?_⟩
    · rw [← hv, take_succ_of_getElem? hb, Option.toList_some, List.append_assoc,
        List.singleton_append]
    · rw [take_succ_of_getElem? hb, Option.toList_some, List.append_assoc]
      exact minimal_pad (Ne.symm h)

theorem signFill_eq_zero_iff : signFill b = 0 ↔ ¬ 0x7f < b := by
  unfold signFill
  rw [BitVec.lt_def]
  have hlit : (0x7f : Byte).toNat = 127 := rfl
  rw [hlit]
  split
  · exact ⟨fun _ => by omega, fun _ => rfl⟩
  · exact ⟨fun h => absurd h (by decide), fun h => by omega⟩

theorem signFill_eq_ff_iff : signFill b = 0xff ↔ ¬ b < 0x80 := by
  unfold signFill
  rw [BitVec.lt_def]
  have hlit : (0x80 : Byte).toNat = 128 := rfl
  rw [hlit]
  split
  · exact ⟨fun h => absurd h (by decide), fun h => by omega⟩
  · exact ⟨fun _ => by omega, fun _ => rfl⟩

theorem positiveContent_spec (hne : blob ≠ []) :
    ∃ n pad, positiveContent blob = .ok (n, pad) ∧ Content (unsignedOf blob) blob n pad := by
  have hlen : 0 < blob.length := List.length_pos_iff.mpr hne
  obtain ⟨hle, hvalue, hlast, hrest⟩ := @lopOff_spec blob 0 blob.length rfl (Nat.le_refl _)
  rw [List.take_length] at hvalue
  have hvalue := hvalue.trans signedOf_zero
  unfold positiveContent
  dsimp only
  obtain h | ⟨k, b, h, hb, hne⟩ := hlast
  · have hzero : blob[0]? = some 0 := hrest 0 (Nat.le_of_eq h) hlen
    have htake : blob.take 1 = [0] := take_succ_of_getElem? hzero
    rw [h] at hvalue
    rw [if_pos h, lastByte_succ hzero]
    refine ⟨1, none, rfl, hlen, ?_, ?_⟩
    · rw [htake]
      exact hvalue
    · rw [htake]
      exact minimal_singleton
  · rw [h] at hvalue hle
    rw [if_neg (h ▸ Nat.succ_ne_zero k), h, lastByte_succ hb]
    have hcontent := content_of_last hle hb hne hvalue
    simp only [signFill_eq_zero_iff, ite_not] at hcontent
    exact ⟨_, _, rfl, hcontent⟩

theorem sign_bit : ∀ b : Byte, b &&& 0x80 ≠ 0 ↔ ¬ b.toNat < 128 := by decide

/-- The sign of the last byte, which fills up the value. -/
theorem signedContent_eq (hne : blob ≠ []) :
    ∃ top, signedOf (blob ++ [signFill top]) = signedOf blob ∧
      signedContent blob = if top.toNat < 128 then positiveContent blob
        else do
          let last ← lastByte blob (lopOff 0xff blob blob.length)
          return (lopOff 0xff blob blob.length, if last < 0x80 then some 0xff else none) := by
  obtain ⟨y, top, rfl⟩ := (List.eq_nil_or_concat' blob).resolve_left hne
  have hlen : (y ++ [top]).length = y.length + 1 := List.length_append
  have htop : lastByte (y ++ [top]) (y ++ [top]).length = .ok top := by
    rw [hlen]
    refine lastByte_succ ((List.getElem?_append_right (Nat.le_refl _)).trans ?_)
    rw [Nat.sub_self, List.getElem?_cons_zero]
  refine ⟨top, ?_, ?_⟩
  · rw [List.append_assoc, List.singleton_append, signedOf_fill]
  · unfold signedContent
    rw [if_neg (by rw [hlen]; exact Nat.succ_ne_zero _), htop]
    by_cases h : top.toNat < 128
    · rw [if_pos h]
      exact if_neg ((sign_bit top).not.mpr (not_not.mpr h))
    · rw [if_neg h]
      exact if_pos ((sign_bit top).mpr h)

theorem signedContent_spec (hne : blob ≠ []) (hv : signedOf blob ≠ -1) :
    ∃ n pad, signedContent blob = .ok (n, pad) ∧ Content (signedOf blob) blob n pad := by
  obtain ⟨top, hfill, heq⟩ := signedContent_eq hne
  rw [heq]
  unfold signFill at hfill
  split
  · next h =>
    rw [if_pos h, signedOf_zero] at hfill
    rw [← hfill]
    exact positiveContent_spec hne
  · next h =>
    rw [if_neg h] at hfill
    obtain ⟨hle, hvalue, hlast, -⟩ := @lopOff_spec blob 255 blob.length rfl (Nat.le_refl _)
    rw [List.take_length, hfill] at hvalue
    obtain h | ⟨k, b, h, hb, hne⟩ := hlast
    · rw [h] at hvalue
      exact absurd hvalue.symm hv
    · rw [h] at hvalue hle
      have hcontent := content_of_last hle hb hne hvalue
      simp only [signFill_eq_ff_iff, ite_not] at hcontent
      rw [h, lastByte_succ hb]
      exact ⟨_, _, rfl, hcontent⟩

/-- For -1 no byte is left, and the byte before the blob is looked at. -/
theorem signedContent_neg_one (hne : blob ≠ []) (hv : signedOf blob = -1) :
    signedContent blob = .error .overread := by
  obtain ⟨top, hfill, heq⟩ := signedContent_eq hne
  rw [heq]
  unfold signFill at hfill
  split
  · next h =>
    rw [if_pos h, signedOf_zero] at hfill
    have hnonneg := @unsignedOf_nonneg blob
    omega
  · next h =>
    rw [if_neg h, hv] at hfill
    obtain ⟨hle, hvalue, hlast, -⟩ := @lopOff_spec blob 255 blob.length rfl (Nat.le_refl _)
    rw [List.take_length, hfill] at hvalue
    obtain h | ⟨k, b, h, hb, hne⟩ := hlast
    · rw [h]
      rfl
    · rw [h] at hvalue hle
      have hcontent := content_of_last hle hb hne hvalue
      have hall := eq_of_minimal_neg_one hcontent.minimal hcontent.value
      have hmem : b ∈ blob.take (k + 1) := by
        rw [take_succ_of_getElem? hb]
        exact List.mem_append_right _ List.mem_cons_self
      have hmem := List.mem_append_left (if signFill b = 255 then none else some 255).toList hmem
      rw [hall] at hmem
      exact absurd (List.mem_singleton.mp hmem) hne

end Wine.Crypt32
