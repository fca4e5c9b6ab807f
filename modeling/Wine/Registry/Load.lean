import Wine.Registry.Text

/-!
# Loading registry files
-/

namespace Wine.Registry
open Wine.Lib

/-- A line as `read_next_line` leaves it in the buffer, whose length is an `int`. -/
structure Line where
  bytes : List Byte
  short : bytes.length < maxPathLen

/-- What a call of `read_next_line` meets before the end of the file. -/
inductive Input where
  | line (l : Line)
  | failure

def readNextLine : List Input → Option Line × List Input
  | [] => (none, [])
  | .line l :: input => (some l, input)
  | .failure :: input => (none, input)

/-- Where the loop of `load_keys` stands; a prefix length of -1 is still to be detected. -/
structure Loader where
  subkey : Option ℕ
  prefixLen : ℤ
  input : List Input

section
variable (cm : CaseMap)

/-! ## Keys -/

/-- Drop path elements while there are some to drop; what is left of the count comes first. -/
def dropPrefix : ℤ → List WChar → ℤ × List WChar
  | n, [] => (n, [])
  | n, c :: p =>
    if n = 0 ∨ c = 0 then (n, c :: p)
    else dropPrefix (if c = backslash then n - 1 else n) p

def loadKey (base : ℕ) (buffer : List Byte) (flags : KeyFlags) (prefixLen : ℤ)
    (defaultModif : ℤ) : M (Option ℕ) := do
  if (← memAlloc) then
    match parseStrW (2 * strlen buffer) buffer (ascii ']') with
    | none => pure none
    | some (name, rest) =>
      let modif := (scanInt rest).getD defaultModif
      let (left, p) := dropPrefix prefixLen name
      if p.headD 0 = 0 then
        if 1 < left then pure none else pure (some base)
      else createKey cm base p [] flags modif
  else pure none

/-- The loop of `get_prefix_len` up from a key. -/
def prefixUp (name : List WChar) : ℕ → ℤ → ℕ → M ℤ
  | 0, _, _ => throw .endless
  | fuel + 1, res, k => do
    if k = rootKey then pure 0
    else
      let key ← getKey k
      if byteLen name = byteLen key.name ∧ memicmpW cm name key.name name.length = 0 then pure res
      else
        match key.parent with
        | none => throw .badPointer
        | some p => prefixUp name fuel (res + 1) p

def getPrefixLen (k : ℕ) (name : List Byte) : M ℤ := do
  if (← memAlloc) then
    match parseStrW (2 * strlen name) name (ascii ']') with
    | none => pure 0
    | some (path, _) =>
      prefixUp cm (path.takeWhile fun c => c ≠ 0 ∧ c ≠ backslash) (← get).nextKey 1 k
  else pure 0

/-! ## Values -/

/-- The index of the value that a line names, which is inserted if need be, and the text after the
equals sign. -/
def parseValueName (k : ℕ) (buffer : List Byte) : M (Option (ℕ × List Byte)) := do
  if (← memAlloc) then
    match parseName buffer with
    | none => pure none
    | some (name, rest) =>
      let key ← getKey k
      match findValue cm key name with
      | .found i => pure (some (i, rest))
      | .missing i =>
        if (← insertValue k name i) then pure (some (i, rest)) else pure none
  else pure none

/-- The hex digits of one line and what follows them. -/
def hexChunk (buffer : List Byte) : M (Option (List Byte × List Byte)) := do
  if (← memAlloc) then
    match parseHex (1 + strlen buffer / 3) buffer with
    | none => pure none
    | some (bytes, rest) => pure (some (bytes, rest.dropWhile isspace))
  else pure none

/-- The loop over the lines of a hex value. -/
def readHex : List Input → List Byte → List Byte → M (Option (List Byte) × List Input)
  | input, data, buffer => do
    match (← hexChunk buffer) with
    | none => pure (none, input)
    | some (bytes, rest) =>
      if peek rest = 0 then pure (some (data ++ bytes), input)
      else if peek rest ≠ ascii '\\' then pure (none, input)
      else
        match input with
        | [] => pure (none, [])
        | .failure :: input => pure (none, input)
        | .line l :: input => readHex input (data ++ bytes) (l.bytes.dropWhile isspace)

/-- The part of `load_value` from `get_data_type` on that does not touch the value: its type, its data
and the lines that are left. -/
def readData (buffer : List Byte) (input : List Input) :
    M (Option (BitVec 32 × List Byte) × List Input) := do
  match getDataType buffer with
  | none => pure (none, input)
  | some (type, .sz, rest) =>
    if (← memAlloc) then
      match parseStrW (2 * strlen rest) rest (ascii '"') with
      | none => pure (none, input)
      | some (s, _) =>
        if (← memdup (stringBytes (s ++ [0]))) then
          pure (some (type, stringBytes (s ++ [0])), input)
        else pure (none, input)
    else pure (none, input)
  | some (type, .dword, rest) =>
    if (← memdup (dwordBytes (strtoul rest).1)) then
      pure (some (type, dwordBytes (strtoul rest).1), input)
    else pure (none, input)
  | some (type, .binary, rest) =>
    match (← readHex input [] rest) with
    | (none, input) => pure (none, input)
    | (some data, input) =>
      if (← memdup data) then pure (some (type, data), input) else pure (none, input)

/-- `load_value`, as the lines that are left. -/
def loadValue (k : ℕ) (buffer : List Byte) (input : List Input) : M (List Input) := do
  match (← parseValueName cm k buffer) with
  | none => pure input
  | some (i, rest) =>
    match (← readData rest input) with
    | (none, input) => pure input
    | (some (type, data), input) =>
      storeValue k i type data
      makeDirty k
      pure input

/-! ## Files -/

/-- One round of the loop of `load_keys`, on a line that has been read. -/
def loadLine (base : ℕ) (flags : KeyFlags) (defaultModif : ℤ) (l : Line) (ld : Loader) :
    M Loader := do
  let p := l.bytes.dropWhile isspace
  if peek p = ascii '[' then
    let prefixLen ← if ld.prefixLen = -1 then getPrefixLen cm base (p.drop 1)
      else pure ld.prefixLen
    let subkey ← loadKey cm base (p.drop 1) flags prefixLen defaultModif
    pure { ld with subkey := subkey, prefixLen := prefixLen }
  else if peek p = ascii '@' ∨ peek p = ascii '"' then
    match ld.subkey with
    | none => pure ld
    | some k => do
      let input ← loadValue cm k p ld.input
      pure { ld with input := input }
  else pure ld

/-- The loop of `load_keys`, through at most `fuel` lines. -/
def loadLoop (base : ℕ) (flags : KeyFlags) (defaultModif : ℤ) : ℕ → Loader → M PUnit
  | 0, _ => pure ⟨⟩
  | fuel + 1, ld => do
    match readNextLine ld.input with
    | (none, _) => pure ⟨⟩
    | (some l, input) =>
      let ld ← loadLine cm base flags defaultModif l { ld with input := input }
      loadLoop base flags defaultModif fuel ld

def header : List Byte := text "WINE REGISTRY Version 2"

/-- The flags of the keys that a load creates. -/
def loadFlags (key : Key) : KeyFlags :=
  if key.flags.volatile then .keyVolatile else .keyDirty

def loadKeys (k : ℕ) (file : List Input) (prefixLen : ℤ) : M PUnit := do
  let defaultModif := (← get).now
  let key ← getKey k
  if (← memAlloc) then
    if (← memAlloc) then
      match readNextLine file with
      | (some l, input) =>
        if cString l.bytes = header then
          loadLoop cm k (loadFlags key) defaultModif input.length ⟨none, prefixLen, input⟩
        else setError .notRegistryFile
      | (none, _) => setError .notRegistryFile
    else pure ⟨⟩
  else pure ⟨⟩

end

end Wine.Registry
