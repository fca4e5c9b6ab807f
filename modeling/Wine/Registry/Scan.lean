import Wine.Registry.Text

/-!
# Scanning a line within its bounds

The scanners of registry files, with every read of the line they scan. What is left of the line ends
in its `NUL`: once a pointer has been moved over it, there is nothing left to read.
-/

namespace Wine.Registry
open Wine.Lib

/-- A read past the end of the line. -/
structure Outside where
  deriving DecidableEq, Repr

/-- A scanner moves through the bytes from `*p` on. -/
abbrev Scan := Exec (List Byte) Outside

/-- `p[i]`. -/
def readAt (i : ℕ) : Scan Byte := do
  match (← get)[i]? with
  | none => throw ⟨⟩
  | some c => pure c

/-- `p += n`. -/
def skip (n : ℕ) : Scan PUnit := modify fun p => p.drop n

/-- The string that a library function reads from `p` on. -/
def readString : Scan (List Byte) := do
  let p ← get
  if 0 ∈ p then pure (cString p) else throw ⟨⟩

/-! ## Strings -/

/-- At most `n` more digits after a value. -/
def scanDigits (isDigit : Byte → Bool) (value : ℕ → Byte → ℕ) : ℕ → ℕ → Scan ℕ
  | 0, v => pure v
  | n + 1, v => do
    let c ← readAt 0
    if isDigit c then
      skip 1
      scanDigits isDigit value n (value v c)
    else pure v

/-- What follows a backslash. -/
def scanEscape : Scan WChar := do
  let c ← readAt 0
  match cEscapes.lookup c with
  | some w =>
    skip 1
    pure w
  | none =>
    if c = ascii 'x' then
      skip 1
      if isxdigit (← readAt 0) then
        pure (BitVec.ofNat 16 (← scanDigits isxdigit (fun v d => v * 16 + toHex d) 4 0))
      else pure (BitVec.ofNat 16 'x'.toNat)
    else if isodigit c then
      pure (BitVec.ofNat 16 (← scanDigits isodigit (fun v d => v * 8 + (d.toNat - 48)) 3 0))
    else
      skip 1
      pure (c.signExtend 16)

def scanChar : Scan WChar := do
  let c ← readAt 0
  skip 1
  if c ≠ ascii '\\' then pure (c.signExtend 16) else scanEscape

/-- The loop of `parse_strW`, which scans a character before it looks for room. -/
def scanLoop (endchar : Byte) : ℕ → ℕ → Scan (Option (List WChar))
  | 0, _ => pure none
  | fuel + 1, room => do
    let c ← readAt 0
    if c = 0 then pure none
    else if c = endchar then
      skip 1
      pure (some [])
    else
      let w ← scanChar
      if room < 2 then pure none
      else
        let rest ← scanLoop endchar fuel (room - 2)
        pure (rest.map fun r => w :: r)

/-- `parse_strW`: every round takes two bytes of the room. -/
def scanStrW (len : ℕ) (endchar : Byte) : Scan (Option (List WChar)) :=
  scanLoop endchar (len + 1) (len - 2)

/-! ## Hex digits -/

/-- `if (*p == ',') p++`. -/
def skipComma : Scan PUnit := do
  if (← readAt 0) = ascii ',' then skip 1 else pure ⟨⟩

def scanHexLoop : ℕ → ℕ → Scan (Option (List Byte))
  | 0, _ => pure none
  | fuel + 1, room => do
    let c ← readAt 0
    if isxdigit c then
      let d ← readAt 1
      if room = 0 then pure none
      else
        skip 2
        skipComma
        let rest ← scanHexLoop fuel (room - 1)
        pure (rest.map fun r =>
          BitVec.ofNat 8 (if isxdigit d then toHex c * 16 + toHex d else toHex c) :: r)
    else pure (some [])

/-- `parse_hex`: every round takes a byte of the room. -/
def scanHex (len : ℕ) : Scan (Option (List Byte)) := scanHexLoop (len + 1) len

/-! ## Values -/

/-- `memcmp`, which compares byte after byte up to the first that differs. -/
def scanTag : List Byte → ℕ → Scan Bool
  | [], _ => pure true
  | c :: tag, i => do
    if c = (← readAt i) then scanTag tag (i + 1) else pure false

def scanTypes : List (List Byte × Option (BitVec 16) × ParseType) →
    Scan (Option (BitVec 32 × ParseType))
  | [] => pure none
  | (tag, type, parseType) :: types => do
    if (← scanTag tag 0) then
      skip tag.length
      match type with
      | some type => pure (some (type.setWidth 32, parseType))
      | none =>
        let p ← readString
        skip (p.length - (strtoul p).2.length)
        if (← scanTag (text "):") 0) then
          skip 2
          pure (some ((strtoul p).1, parseType))
        else pure none
    else scanTypes types

/-- `get_data_type`. -/
def scanDataType : Scan (Option (BitVec 32 × ParseType)) := scanTypes dataTypes

/-- `while (isspace(*p)) p++`. -/
def scanSpaces : Scan PUnit := fun p => spacesFrom p
where
  spacesFrom : List Byte → Except Outside (PUnit × List Byte)
    | [] => .error ⟨⟩
    | c :: p => if isspace c then spacesFrom p else .ok (⟨⟩, c :: p)

/-- The name itself, after its first character. -/
def scanQuoted (first : Byte) (len : ℕ) : Scan (Option (List WChar)) :=
  if first = ascii '@' then pure (some []) else scanStrW (2 * len) (ascii '"')

/-- The name that `parse_value_name` reads, up to the equals sign and the spaces after it. -/
def scanName : Scan (Option (List WChar)) := do
  let p ← readString
  skip 1
  match (← scanQuoted (peek p) p.length) with
  | none => pure none
  | some name =>
    scanSpaces
    if (← readAt 0) = ascii '=' then
      skip 1
      scanSpaces
      pure (some name)
    else pure none

/-! ## Where the scanners leave a line -/

/-- How many characters stand before a backslash that ends the text, where the text is scanned as far
as that. -/
def dangling (endchar : Byte) : ℕ → List Byte → Option ℕ
  | 0, _ => none
  | fuel + 1, p =>
    if peek p = 0 ∨ peek p = endchar then none
    else if p = [ascii '\\'] then some 0
    else (dangling endchar fuel (parseChar p).2).map (· + 1)

/-- `parse_strW` stays within the text: where it comes to a backslash that ends the text, the output
is full. -/
def strFits (len : ℕ) (p : List Byte) (endchar : Byte) : Bool :=
  (dangling endchar p.length p).all fun n => len < 2 * (n + 2)

/-- What follows two hex digits and a comma. -/
def afterPair (p : List Byte) : List Byte :=
  if peek (p.drop 2) = ascii ',' then (p.drop 2).drop 1 else p.drop 2

/-- How many pairs of digits stand before a digit that ends the text, where the text is scanned as far
as that. -/
def loneDigit : ℕ → List Byte → Option ℕ
  | 0, _ => none
  | fuel + 1, p =>
    if isxdigit (peek p) then
      if p.length = 1 then some 0 else (loneDigit fuel (afterPair p)).map (· + 1)
    else none

/-- `parse_hex` stays within the text: where it comes to a digit that ends the text, the output is
full. -/
def hexFits (len : ℕ) (p : List Byte) : Bool :=
  (loneDigit p.length p).all fun n => len ≤ n

def nameFits (p : List Byte) : Bool :=
  p ≠ [] ∧ (peek p = ascii '@' ∨ strFits (2 * p.length) (p.drop 1) (ascii '"'))

end Wine.Registry
