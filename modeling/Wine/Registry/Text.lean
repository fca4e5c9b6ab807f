import Wine.Registry.Keys

/-!
# The text of registry files

The functions that read a line. A line is what the buffer holds from its start: the text, a `NUL` and
whatever follows. Past the end of the list every byte reads as `NUL`.
-/

namespace Wine.Registry

def ascii (c : Char) : Byte := BitVec.ofNat 8 c.toNat

/-- A string literal of the C source. -/
def text (s : String) : List Byte := s.toList.map ascii

/-- `*p`. -/
def peek (p : List Byte) : Byte := p.headD 0

def cString (p : List Byte) : List Byte := p.takeWhile (· ≠ 0)

def strlen (p : List Byte) : ℕ := (cString p).length

def isspace (c : Byte) : Bool := c = 32 ∨ 9 ≤ c.toNat ∧ c.toNat ≤ 13

def isdigit (c : Byte) : Bool := 48 ≤ c.toNat ∧ c.toNat ≤ 57

def isodigit (c : Byte) : Bool := 48 ≤ c.toNat ∧ c.toNat ≤ 55

def isxdigit (c : Byte) : Bool :=
  isdigit c ∨ 65 ≤ c.toNat ∧ c.toNat ≤ 70 ∨ 97 ≤ c.toNat ∧ c.toNat ≤ 102

def tolower (c : Byte) : ℕ := if 65 ≤ c.toNat ∧ c.toNat ≤ 90 then c.toNat + 32 else c.toNat

def toHex (c : Byte) : ℕ := if isdigit c then c.toNat - 48 else tolower c - 97 + 10

def hexValue (ds : List Byte) : ℕ := ds.foldl (fun v d => v * 16 + toHex d) 0

def octalValue (ds : List Byte) : ℕ := ds.foldl (fun v d => v * 8 + (d.toNat - 48)) 0

def decimalValue (ds : List Byte) : ℕ := ds.foldl (fun v d => v * 10 + (d.toNat - 48)) 0

/-! ## Strings -/

/-- The C escapes that stand for one character. -/
def cEscapes : List (Byte × WChar) :=
  [(ascii 'a', 7), (ascii 'b', 8), (ascii 'e', 27), (ascii 'f', 12), (ascii 'n', 10),
    (ascii 'r', 13), (ascii 't', 9), (ascii 'v', 11)]

/-- What follows a backslash, and what is left of the text. -/
def parseEscape (p : List Byte) : WChar × List Byte :=
  match cEscapes.lookup (peek p) with
  | some c => (c, p.drop 1)
  | none =>
    if peek p = ascii 'x' then
      let ds := ((p.drop 1).takeWhile isxdigit).take 4
      if ds = [] then (BitVec.ofNat 16 'x'.toNat, p.drop 1)
      else (BitVec.ofNat 16 (hexValue ds), p.drop (1 + ds.length))
    else if isodigit (peek p) then
      let ds := (p.takeWhile isodigit).take 3
      (BitVec.ofNat 16 (octalValue ds), p.drop ds.length)
    else ((peek p).signExtend 16, p.drop 1)

def parseChar (p : List Byte) : WChar × List Byte :=
  if peek p ≠ ascii '\\' then ((peek p).signExtend 16, p.drop 1) else parseEscape (p.drop 1)

/-- The loop of `parse_strW`; `room` is what is left of the output buffer. -/
def parseLoop (endchar : Byte) : ℕ → ℕ → List Byte → Option (List WChar × List Byte)
  | 0, _, _ => none
  | fuel + 1, room, p =>
    if peek p = 0 then none
    else if peek p = endchar then some ([], p.drop 1)
    else if room < 2 then none
    else (parseLoop endchar fuel (room - 2) (parseChar p).2).map fun r =>
      ((parseChar p).1 :: r.1, r.2)

/-- `parse_strW`: the characters without the `NUL` that ends them, and what follows the delimiter. -/
def parseStrW (len : ℕ) (src : List Byte) (endchar : Byte) : Option (List WChar × List Byte) :=
  parseLoop endchar src.length (len - 2) src

/-! ## Numbers -/

/-- `strtoul` in base 16, with an `unsigned long` of 32 bits. -/
def strtoul (p : List Byte) : BitVec 32 × List Byte :=
  let q := p.dropWhile isspace
  let neg := peek q = ascii '-'
  let q := if neg ∨ peek q = ascii '+' then q.drop 1 else q
  let q := if peek q = ascii '0' ∧ tolower (peek (q.drop 1)) = 'x'.toNat ∧
      isxdigit (peek (q.drop 2)) then q.drop 2 else q
  let ds := q.takeWhile isxdigit
  if ds = [] then (0, p)
  else
    let v := BitVec.ofNat 32 (min (hexValue ds) 4294967295)
    (if neg ∧ hexValue ds ≤ 4294967295 then -v else v, q.drop ds.length)

/-- `sscanf( p, " %d", ... )`, with a `long` of 32 bits. -/
def scanInt (p : List Byte) : Option ℤ :=
  let q := p.dropWhile isspace
  let neg := peek q = ascii '-'
  let q := if neg ∨ peek q = ascii '+' then q.drop 1 else q
  let ds := q.takeWhile isdigit
  if ds = [] then none
  else if neg then some (max (-(decimalValue ds : ℤ)) (-2147483648))
  else some (min (decimalValue ds : ℤ) 2147483647)

/-- `parse_hex`; `room` is what is left of the output buffer. -/
def parseHexLoop : ℕ → ℕ → List Byte → Option (List Byte × List Byte)
  | 0, _, p => some ([], p)
  | fuel + 1, room, p =>
    if isxdigit (peek p) then
      if room = 0 then none
      else
        let val := if isxdigit (peek (p.drop 1)) then toHex (peek p) * 16 + toHex (peek (p.drop 1))
          else toHex (peek p)
        let p' := p.drop 2
        let p' := if peek p' = ascii ',' then p'.drop 1 else p'
        (parseHexLoop fuel (room - 1) p').map fun r => (BitVec.ofNat 8 val :: r.1, r.2)
    else some ([], p)

def parseHex (len : ℕ) (buffer : List Byte) : Option (List Byte × List Byte) :=
  parseHexLoop buffer.length len buffer

/-! ## Types of values -/

def regSz : BitVec 16 := 1
def regExpandSz : BitVec 16 := 2
def regBinary : BitVec 16 := 3
def regDword : BitVec 16 := 4
def regMultiSz : BitVec 16 := 7

/-- The type to assume for parsing. -/
inductive ParseType where
  | sz
  | dword
  | binary
  deriving DecidableEq, Repr

/-- The table of `get_data_type`; the last tag carries the type itself. -/
def dataTypes : List (List Byte × Option (BitVec 16) × ParseType) :=
  [(text "\"", some regSz, .sz), (text "str:\"", some regSz, .sz),
    (text "str(2):\"", some regExpandSz, .sz), (text "str(7):\"", some regMultiSz, .sz),
    (text "hex:", some regBinary, .binary), (text "dword:", some regDword, .dword),
    (text "hex(", none, .binary)]

/-- The type, how to parse the data and the text of the data. -/
def getDataType (buffer : List Byte) : Option (BitVec 32 × ParseType × List Byte) :=
  match dataTypes.find? fun t => t.1.isPrefixOf buffer with
  | none => none
  | some (tag, some type, parseType) => some (type.setWidth 32, parseType, buffer.drop tag.length)
  | some (tag, none, parseType) =>
    let r := strtoul (buffer.drop tag.length)
    if (text "):").isPrefixOf r.2 then some (r.1, parseType, r.2.drop 2) else none

/-- The name at the start of a line that holds a value, and the text after the equals sign. -/
def parseName (buffer : List Byte) : Option (List WChar × List Byte) :=
  match (if peek buffer = ascii '@' then some ([], buffer.drop 1)
    else parseStrW (2 * strlen buffer) (buffer.drop 1) (ascii '"')) with
  | none => none
  | some (name, rest) =>
    let rest := rest.dropWhile isspace
    if peek rest = ascii '=' then some (name, (rest.drop 1).dropWhile isspace) else none

def wcharBytes (c : WChar) : List Byte := [c.setWidth 8, (c >>> 8).setWidth 8]

def stringBytes (s : List WChar) : List Byte := s.flatMap wcharBytes

def dwordBytes (d : BitVec 32) : List Byte :=
  [d.setWidth 8, (d >>> 8).setWidth 8, (d >>> 16).setWidth 8, (d >>> 24).setWidth 8]

end Wine.Registry

/-!
## Saving registry branches
-/

namespace Wine.Registry
open Wine.Lib

/-! ## Numbers -/

def digit (n : ℕ) : Byte := BitVec.ofNat 8 (if n < 10 then 48 + n else 87 + n)

/-- The digits of a number, at most `fuel` of them. -/
def digitsFrom (b : ℕ) : ℕ → ℕ → List Byte
  | 0, _ => []
  | fuel + 1, n => if n < b then [digit n] else digitsFrom b fuel (n / b) ++ [digit (n % b)]

def digits (b n : ℕ) : List Byte := digitsFrom b (n + 1) n

def pad (width : ℕ) (ds : List Byte) : List Byte :=
  List.replicate (width - ds.length) (ascii '0') ++ ds

/-- `%ld`. -/
def printInt (n : ℤ) : List Byte :=
  if n < 0 then ascii '-' :: digits 10 n.natAbs else digits 10 n.natAbs

/-! ## Strings -/

/-- The table of C escapes, `'.'` where there is none. -/
def escapes : List Byte := text ".......abtnvfr.............e...."

def dumpChar (escape : Byte × Byte) (c : WChar) (str : List WChar) : List Byte :=
  if 127 < c.toNat then
    if str ≠ [] ∧ (str.headD 0).toNat < 128 ∧ isxdigit ((str.headD 0).setWidth 8) then
      text "\\x" ++ pad 4 (digits 16 c.toNat)
    else text "\\x" ++ digits 16 c.toNat
  else if c.toNat < 32 then
    if c = 0 ∧ str = [] then []
    else if escapes.getD c.toNat 0 ≠ ascii '.' then [ascii '\\', escapes.getD c.toNat 0]
    else if str ≠ [] ∧ 48 ≤ (str.headD 0).toNat ∧ (str.headD 0).toNat ≤ 55 then
      ascii '\\' :: pad 3 (digits 8 c.toNat)
    else ascii '\\' :: digits 8 c.toNat
  else if c.setWidth 8 = ascii '\\' ∨ c.setWidth 8 = escape.1 ∨ c.setWidth 8 = escape.2 then
    [ascii '\\', c.setWidth 8]
  else [c.setWidth 8]

def dumpStrW (escape : Byte × Byte) : List WChar → List Byte
  | [] => []
  | c :: str => dumpChar escape c str ++ dumpStrW escape str

def brackets : Byte × Byte := (ascii '[', ascii ']')
def quotes : Byte × Byte := (ascii '"', ascii '"')

/-! ## Values -/

def hexByte (b : Byte) : List Byte := pad 2 (digits 16 b.toNat)

/-- The loop over the bytes of a value; `count` is the width of the line so far. -/
def dumpHex : ℕ → List Byte → List Byte
  | _, [] => []
  | _, [b] => hexByte b
  | count, b :: b' :: data =>
    hexByte b ++ ascii ',' ::
      (if 76 < count + 3 then text "\\\n  " ++ dumpHex 2 (b' :: data)
      else dumpHex (count + 3) (b' :: data))

/-- The data as characters; an odd byte at the end is left out. -/
def bytesToWChars : List Byte → List WChar
  | a :: b :: data => (b ++ a) :: bytesToWChars data
  | _ => []

def bytesToDword (data : List Byte) : ℕ :=
  data.foldr (fun b v => b.toNat + 256 * v) 0

def dumpName (name : List WChar) : List Byte :=
  if name ≠ [] then ascii '"' :: dumpStrW quotes name ++ text "\"=" else text "@="

def dumpData (value : KeyValue) : List Byte :=
  if value.type = regSz ∨ value.type = regExpandSz ∨ value.type = regMultiSz then
    (if value.type ≠ regSz then text "str(" ++ digits 10 value.type.toNat ++ text "):" else []) ++
      ascii '"' :: dumpStrW quotes (bytesToWChars value.data) ++ text "\""
  else if value.type = regDword ∧ value.data.length = 4 then
    text "dword:" ++ pad 8 (digits 16 (bytesToDword value.data))
  else
    let tag := if value.type = regBinary then text "hex:"
      else text "hex(" ++ digits 16 value.type.toNat ++ text "):"
    tag ++ dumpHex ((dumpName value.name).length + tag.length) value.data

def dumpValue (value : KeyValue) : List Byte :=
  dumpName value.name ++ dumpData value ++ text "\n"

/-! ## Keys -/

/-- `dump_path`, through at most `fuel` keys. -/
def dumpPathUp (r : Tree) (base : Option ℕ) : ℕ → ℕ → List Byte
  | 0, _ => []
  | fuel + 1, k =>
    match r.keys k with
    | none => []
    | some key =>
      (match key.parent with
        | some p => if some p ≠ base then dumpPathUp r base fuel p ++ text "\\\\" else []
        | none => []) ++ dumpStrW brackets key.name

def dumpPath (r : Tree) (k : ℕ) (base : Option ℕ) : List Byte :=
  dumpPathUp r base r.nextKey k

def dumpKey (r : Tree) (k base : ℕ) (key : Key) : List Byte :=
  text "\n[" ++ (if k ≠ base then dumpPath r k (some base) else []) ++ text "] " ++
    printInt key.modif ++ text "\n" ++ key.values.flatMap dumpValue

/-- `save_subkeys`, through at most `fuel` levels. -/
def saveDown (r : Tree) (base : ℕ) : ℕ → ℕ → List Byte
  | 0, _ => []
  | fuel + 1, k =>
    match r.keys k with
    | none => []
    | some key =>
      if key.flags.volatile then []
      else
        (if 0 ≤ key.lastValue ∨ key.lastSubkey = -1 then dumpKey r k base key else []) ++
          key.subkeys.flatMap (saveDown r base fuel)

def saveSubkeys (r : Tree) (k base : ℕ) : List Byte := saveDown r base r.nextKey k

def saveAllSubkeys (r : Tree) (k : ℕ) : List Byte :=
  text "WINE REGISTRY Version 2\n" ++ text ";; All keys relative to " ++ dumpPath r k none ++
    text "\n" ++ saveSubkeys r k k

/-- `save_branch`; `written` says whether every system call on the way succeeds. -/
def saveBranch (k : ℕ) (written : Bool) : M Bool := do
  let key ← getKey k
  if !key.flags.dirty then pure true
  else if written then
    makeClean k
    pure true
  else pure false

end Wine.Registry
