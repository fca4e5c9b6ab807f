import Wine.Unicode
import Mathlib.Tactic.Ring

/-!
# The UTF-8 codec of the wine library

`wine_utf8_wcstombs` and `wine_utf8_mbstowcs` with the tables they share. A string is the list of
its characters, a conversion is what the call returns with what it has stored in `dst`.
-/

namespace Wine.Utf8

abbrev Byte := BitVec 8

/-- Number of following bytes in a sequence, for the first bytes from `0x80` on. -/
def utf8LengthTable : List ℕ :=
  List.replicate 64 0 ++ List.replicate 32 1 ++ List.replicate 16 2 ++ List.replicate 8 3 ++
    List.replicate 4 4 ++ List.replicate 2 5 ++ List.replicate 2 0

@[irreducible] def utf8Length (ch : Byte) : ℕ := utf8LengthTable.getD (ch.toNat - 0x80) 0

/-- First byte mask depending on the sequence length. -/
def utf8Mask : ℕ → Byte
  | 0 => 0x7f
  | 1 => 0x1f
  | 2 => 0x0f
  | 3 => 0x07
  | 4 => 0x03
  | _ => 0x01

/-- Minimum Unicode value depending on the sequence length. -/
def utf8Minval : ℕ → BitVec 32
  | 0 => 0x0
  | 1 => 0x80
  | 2 => 0x800
  | 3 => 0x10000
  | 4 => 0x200000
  | _ => 0x4000000

structure Conversion (α : Type) where
  ret : ℤ
  dst : List α
  deriving DecidableEq, Repr

/-! ## Wide characters to UTF-8 -/

def getLengthWcsUtf8 : List WChar → ℕ
  | [] => 0
  | ch :: src => getLengthWcsUtf8 src + 1 + (if 0x80 ≤ ch then if 0x800 ≤ ch then 2 else 1 else 0)

/-- The bytes that one turn of the loop of `wine_utf8_wcstombs` stores for `ch`. -/
def utf8Bytes (ch : WChar) : List Byte :=
  if ch < 0x80 then [ch.setWidth 8]
  else if ch < 0x800 then
    [(0xc0 : Byte) ||| (ch >>> 6).setWidth 8, (0x80 : Byte) ||| (ch &&& 0x3f).setWidth 8]
  else
    [(0xe0 : Byte) ||| (ch >>> 6 >>> 6).setWidth 8,
      (0x80 : Byte) ||| (ch >>> 6 &&& 0x3f).setWidth 8,
      (0x80 : Byte) ||| (ch &&& 0x3f).setWidth 8]

/-- The loop: `len` is the room that is left in `dst`. -/
def wcstombsLoop (dstlen : ℕ) : List WChar → ℕ → List Byte → Conversion Byte
  | [], len, dst => ⟨dstlen - len, dst⟩
  | ch :: src, len, dst =>
    if len < (utf8Bytes ch).length then ⟨-1, dst⟩
    else wcstombsLoop dstlen src (len - (utf8Bytes ch).length) (dst ++ utf8Bytes ch)

/-- Wide char to UTF-8 conversion; returns -1 on overflow of `dst`. -/
def wineUtf8Wcstombs (src : List WChar) (dstlen : ℕ) : Conversion Byte :=
  if dstlen = 0 then ⟨getLengthWcsUtf8 src, []⟩ else wcstombsLoop dstlen src dstlen []

/-! ## UTF-8 to wide characters -/

/-- How the bytes after the first one of a sequence have been read. -/
inductive Trail
  | finished (res : BitVec 32) (src : List Byte)
  | bad (src : List Byte)
  | ended
  deriving DecidableEq, Repr

/-- The cases `len`, ..., 1 of the `switch`, each falling through to the next. -/
def readTrail : ℕ → BitVec 32 → List Byte → Trail
  | 0, res, src => .finished res src
  | _ + 1, _, [] => .ended
  | len + 1, res, b :: src =>
    let ch := b ^^^ 0x80
    if 0x40 ≤ ch then .bad (b :: src)
    else readTrail len (res <<< 6 ||| ch.setWidth 32) src

/-- The rest of a sequence whose first byte `ch` is at least `0x80`. -/
def readSequence (ch : Byte) (src : List Byte) : Trail :=
  let len := utf8Length ch
  if len = 0 then .bad src
  else
    match readTrail len ((ch &&& utf8Mask len).setWidth 32) src with
    | .finished res src =>
      if res < utf8Minval len then .bad src
      else if 0x10000 ≤ res then .bad src
      else .finished res src
    | r => r

/-- The loop: `count` is the room that is left in `dst`, `strict` the flag
`MB_ERR_INVALID_CHARS`. -/
def mbstowcsLoop (strict : Bool) (dstlen : ℕ) :
    ℕ → List Byte → List WChar → Conversion WChar
  | count, [], dst => ⟨dstlen - count, dst⟩
  | 0, _ :: _, dst => ⟨-1, dst⟩
  | count + 1, ch :: src, dst =>
    if ch < 0x80 then mbstowcsLoop strict dstlen count src (dst ++ [ch.setWidth 16])
    else
      match readSequence ch src with
      | .finished res src => mbstowcsLoop strict dstlen count src (dst ++ [res.setWidth 16])
      | .ended => ⟨dstlen - (count + 1), dst⟩
      | .bad src =>
        if strict then ⟨-2, dst⟩ else mbstowcsLoop strict dstlen count src (dst ++ [0x3f])

/-- The `switch` of the length query, which computes no value: where the next character starts,
if the input does not end inside this one. -/
def skipSequence (ch : Byte) (src : List Byte) : Option (List Byte) :=
  match readTrail (utf8Length ch) 0 src with
  | .finished _ rest => some rest
  | .bad rest => some rest
  | .ended => none

/-- The loop of the length query, with a bound on its turns that the length of the input meets. -/
def getLengthLoop : ℕ → List Byte → ℕ
  | _, [] => 0
  | 0, _ :: _ => 0
  | n + 1, ch :: src =>
    if ch < 0xc0 then getLengthLoop n src + 1
    else
      match skipSequence ch src with
      | some rest => getLengthLoop n rest + 1
      | none => 0

def getLengthMbsUtf8 (src : List Byte) : ℕ := getLengthLoop src.length src

/-- UTF-8 to wide char conversion; returns -1 on overflow of `dst`, -2 on an invalid character. -/
def wineUtf8Mbstowcs (strict : Bool) (src : List Byte) (dstlen : ℕ) : Conversion WChar :=
  if dstlen = 0 then ⟨getLengthMbsUtf8 src, []⟩ else mbstowcsLoop strict dstlen dstlen src []

end Wine.Utf8
