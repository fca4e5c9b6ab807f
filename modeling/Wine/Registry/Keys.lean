import Wine.Registry.State
import Wine.Lib.Search

/-!
# Keys: dirty marks, arrays of subkeys, lookup, creation and deletion
-/

namespace Wine.Registry
open Wine.Lib

/-! ## Dirty marks -/

/-- The loop of `make_dirty`, through at most `fuel` keys. -/
def dirtyUp : ℕ → ℕ → M PUnit
  | 0, _ => throw .endless
  | fuel + 1, k => do
    let key ← getKey k
    if key.flags.dirty || key.flags.volatile then pure ⟨⟩
    else
      modifyKey k fun key => { key with flags := { key.flags with dirty := true } }
      match key.parent with
      | none => pure ⟨⟩
      | some p => dirtyUp fuel p

def makeDirty (k : ℕ) : M PUnit := do dirtyUp (← get).nextKey k

/-- `make_clean`, through at most `fuel` levels. -/
def cleanDown : ℕ → ℕ → M PUnit
  | 0, _ => throw .endless
  | fuel + 1, k => do
    let key ← getKey k
    if key.flags.volatile || !key.flags.dirty then pure ⟨⟩
    else
      modifyKey k fun key => { key with flags := { key.flags with dirty := false } }
      forM key.subkeys (cleanDown fuel)

def makeClean (k : ℕ) : M PUnit := do cleanDown (← get).nextKey k

def touchKey (k : ℕ) : M PUnit := do
  let now := (← get).now
  modifyKey k fun key => { key with modif := now }
  makeDirty k

/-! ## References -/

/-- `key_destroy`, through at most `fuel` levels. -/
def keyDestroy : ℕ → ℕ → M PUnit
  | 0, _ => throw .endless
  | fuel + 1, k => do
    let key ← getKey k
    forM key.subkeys fun c => do
      modifyKey c fun key => { key with parent := none }
      if (← get).referenced c then pure ⟨⟩ else keyDestroy fuel c
    edit fun r => r.removeKey k

/-- `release_object`, once the reference is gone. -/
def releaseKey (k : ℕ) : M PUnit := do
  if (← get).referenced k then pure ⟨⟩ else keyDestroy (← get).nextKey k

/-! ## The array of subkeys -/

/-- `grow_subkeys`; both ways of allocating report the same error. -/
def growSubkeys (k : ℕ) : M Bool := do
  let key ← getKey k
  if (← memAlloc) then
    modifyKey k fun key' =>
      { key' with nbSubkeys :=
          if key.nbSubkeys ≠ 0 then key.nbSubkeys + key.nbSubkeys / 2 else minValues }
    pure true
  else pure false

/-- `alloc_key`: the object, then its name. -/
def allocKey (name : List WChar) (modif : ℤ) : M (Option ℕ) := do
  if (← memAlloc) then
    if (← memdup name) then
      let k := (← get).nextKey
      edit fun r => r.addKey (.new name modif)
      pure (some k)
    else pure none
  else pure none

def linkSubkey (parent : ℕ) (name : List WChar) (index : ℕ) (modif : ℤ) :
    M (Option ℕ) := do
  match (← allocKey name modif) with
  | none => pure none
  | some k =>
    modifyKey k fun key => { key with parent := some parent }
    modifyKey parent fun key => { key with subkeys := key.subkeys.insertIdx index k }
    pure (some k)

def allocSubkey (parent : ℕ) (name : List WChar) (index : ℕ) (modif : ℤ) :
    M (Option ℕ) := do
  if maxNameLen * 2 < byteLen name then
    setError .nameTooLong
    pure none
  else
    let key ← getKey parent
    if key.lastSubkey + 1 = key.nbSubkeys then
      if (← growSubkeys parent) then linkSubkey parent name index modif
      else pure none
    else linkSubkey parent name index modif

/-- The end of `free_subkey`. -/
def shrinkSubkeys (k : ℕ) : M PUnit := do
  let key ← getKey k
  if minSubkeys < key.nbSubkeys ∧ key.lastSubkey < (key.nbSubkeys / 2 : ℕ) then
    if (← allocate) then
      modifyKey k fun key' =>
        { key' with nbSubkeys := max (key.nbSubkeys - key.nbSubkeys / 3) minSubkeys }
    else pure ⟨⟩
  else pure ⟨⟩

def freeSubkey (parent : ℕ) (index : ℕ) : M PUnit := do
  let key ← getKey parent
  match key.subkeys[index]? with
  | none => throw .assertion
  | some k =>
    modifyKey parent fun key => { key with subkeys := key.subkeys.eraseIdx index }
    modifyKey k fun key =>
      { key with flags := { key.flags with deleted := true }, parent := none }
    releaseKey k
    shrinkSubkeys parent

/-! ## Lookup -/

section
variable (cm : CaseMap)

def findSubkey (r : Tree) (key : Key) (name : List WChar) : SearchResult :=
  binarySearch (fun i => nameOrder cm (r.nameOf (key.subkeys.getD i 0)) name) key.subkeys.length

def backslash : WChar := 0x5c#16

/-- `get_path_token` after the first call: the token and what follows it. -/
def getPathToken (rest : List WChar) : List WChar × List WChar :=
  (rest.dropWhile (· = backslash)).span (· ≠ backslash)

def tokensFrom : ℕ → List WChar → List (List WChar)
  | 0, _ => []
  | n + 1, rest =>
    if (getPathToken rest).1 = [] then []
    else (getPathToken rest).1 :: tokensFrom n (getPathToken rest).2

/-- The tokens that `get_path_token` returns one after the other until it returns an empty one. -/
def pathTokens (path : List WChar) : List (List WChar) := tokensFrom path.length path

/-- The check that `get_path_token` makes on its first call. -/
def pathValid (path : List WChar) : Bool := path.head? ≠ some backslash

def openTokens : ℕ → List (List WChar) → M (Option ℕ)
  | k, [] => pure (some k)
  | k, token :: tokens => do
    let key ← getKey k
    match findSubkey cm (← get).toTree key token with
    | .found i => openTokens (key.subkeys.getD i 0) tokens
    | .missing _ =>
      setError .objectNameNotFound
      pure none

def openKey (k : ℕ) (path : List WChar) : M (Option ℕ) := do
  if pathValid path then openTokens cm k (pathTokens path)
  else
    setError .objectPathInvalid
    pure none

/-- How far a path leads through keys that exist: the last of them, the tokens that are left and the
index at which the first of these has to be inserted. -/
def descend : ℕ → List (List WChar) → M (ℕ × List (List WChar) × ℕ)
  | k, [] => pure (k, [], 0)
  | k, token :: tokens => do
    let key ← getKey k
    match findSubkey cm (← get).toTree key token with
    | .found i => descend (key.subkeys.getD i 0) tokens
    | .missing i => pure (k, token :: tokens, i)

/-! ## Creation -/

/-- The loop that creates the keys below the first new one. -/
def createRest (flags : KeyFlags) (modif : ℤ) : ℕ → List (List WChar) → M (Option ℕ)
  | k, [] => do
    modifyKey k fun key => { key with flags := key.flags.or flags }
    pure (some k)
  | k, token :: tokens => do
    modifyKey k fun key => { key with flags := key.flags.or flags }
    match (← allocSubkey k token 0 modif) with
    | none => pure none
    | some k' => createRest flags modif k' tokens

/-- The end of `create_key`. -/
def setClass (k : ℕ) (className : List WChar) : M PUnit := do
  if className ≠ [] then
    if (← memAlloc) then modifyKey k fun key => { key with className := className }
    else modifyKey k fun key => { key with className := [] }
  else pure ⟨⟩

/-- What `create_key` does once it knows where the new keys belong. A failure further down frees the
subkey of the first new key that has the index of that key itself. -/
def createMissing (k : ℕ) (token : List WChar) (tokens : List (List WChar)) (index : ℕ)
    (flags : KeyFlags) (modif : ℤ) : M (Option ℕ) := do
  if flags.dirty then makeDirty k
  match (← allocSubkey k token index modif) with
  | none => pure none
  | some base =>
    match (← createRest flags modif base tokens) with
    | none =>
      freeSubkey base index
      pure none
    | some k' => pure (some k')

def createKey (k : ℕ) (path className : List WChar) (flags : KeyFlags) (modif : ℤ) :
    M (Option ℕ) := do
  let key ← getKey k
  if key.flags.deleted then
    setError .keyDeleted
    pure none
  else if !flags.volatile && key.flags.volatile then
    setError .childMustBeVolatile
    pure none
  else
    let now := (← get).now
    let modif := if modif = 0 then now else modif
    if pathValid path then
      match (← descend cm k (pathTokens path)) with
      | (k', [], _) =>
        setClass k' className
        pure (some k')
      | (k', token :: tokens, index) =>
        match (← createMissing k' token tokens index flags modif) with
        | none => pure none
        | some k'' =>
          setClass k'' className
          pure (some k'')
    else
      setError .objectPathInvalid
      pure none

end

/-! ## Deletion -/

/-- The loop of `delete_key` over the subkeys, the last one first. -/
def deleteSubkeys (delete : ℕ → M Bool) (k : ℕ) : ℕ → M Bool
  | 0 => do
    let key ← getKey k
    if key.subkeys = [] then pure true else throw .endless
  | n + 1 => do
    let key ← getKey k
    match key.subkeys.getLast? with
    | none => pure true
    | some c =>
      if (← delete c) then deleteSubkeys delete k n else pure false

/-- What `delete_key` does once the key has no subkeys that it may delete. -/
def unlinkKey (k parent : ℕ) : M Bool := do
  let key ← getKey k
  let parentKey ← getKey parent
  let index := parentKey.subkeys.idxOf k
  if index < parentKey.subkeys.length then
    if 0 ≤ key.lastSubkey then
      setError .accessDenied
      pure false
    else
      freeSubkey parent index
      touchKey parent
      pure true
  else throw .assertion

/-- `delete_key`, through at most `fuel` levels. -/
def deleteDown : ℕ → ℕ → Bool → M Bool
  | 0, _, _ => throw .endless
  | fuel + 1, k, recurse => do
    if k = rootKey then
      setError .accessDenied
      pure false
    else
      let key ← getKey k
      match key.parent, key.flags.deleted with
      | some parent, false =>
        if recurse then
          if (← deleteSubkeys (fun c => deleteDown fuel c true) k key.subkeys.length) then
            unlinkKey k parent
          else pure false
        else unlinkKey k parent
      | _, _ =>
        setError .keyDeleted
        pure false

def deleteKey (k : ℕ) (recurse : Bool) : M Bool := do
  deleteDown (← get).nextKey k recurse

end Wine.Registry

/-!
## Values
-/

namespace Wine.Registry
open Wine.Lib

def growValues (k : ℕ) : M Bool := do
  let key ← getKey k
  if (← memAlloc) then
    modifyKey k fun key' =>
      { key' with nbValues :=
          if key.nbValues ≠ 0 then key.nbValues + key.nbValues / 2 else minValues }
    pure true
  else pure false

def valueName (key : Key) (i : ℕ) : List WChar := (key.values[i]?).elim [] KeyValue.name

section
variable (cm : CaseMap)

def findValue (key : Key) (name : List WChar) : SearchResult :=
  binarySearch (fun i => nameOrder cm (valueName key i) name) key.values.length

/-- The end of `insert_value`. The type is not written: the entry keeps the one of the value that was
moved away from its place or, at the end of the array, what the memory holds. -/
def placeValue (k : ℕ) (name : List WChar) (index : ℕ) : M Bool := do
  if (← memdup name) then
    let key ← getKey k
    let s ← get
    let type := ((key.values[index]?).map KeyValue.type).getD (s.stale s.allocs)
    modifyKey k fun key => { key with values := key.values.insertIdx index ⟨name, type, []⟩ }
    pure true
  else pure false

/-- Whether a new value could be inserted. -/
def insertValue (k : ℕ) (name : List WChar) (index : ℕ) : M Bool := do
  if maxNameLen * 2 < byteLen name then
    setError .nameTooLong
    pure false
  else
    let key ← getKey k
    if key.lastValue + 1 = key.nbValues then
      if (← growValues k) then placeValue k name index else pure false
    else placeValue k name index

/-- Give the value at an index its type and data. -/
def storeValue (k : ℕ) (index : ℕ) (type : BitVec 32) (data : List Byte) : M PUnit :=
  modifyKey k fun key =>
    { key with values := key.values.modify index fun v =>
        { v with type := type.setWidth 16, data := data } }

def setValue (k : ℕ) (name : List WChar) (type : BitVec 32) (data : List Byte) : M PUnit := do
  let key ← getKey k
  match findValue cm key name with
  | .found i =>
    if (key.values[i]?).any fun v => v.type.setWidth 32 = type ∧ v.data ≠ [] ∧ v.data = data then
      pure ⟨⟩
    else if (← memdup data) then
      storeValue k i type data
      touchKey k
    else pure ⟨⟩
  | .missing i =>
    if (← memdup data) then
      if (← insertValue k name i) then
        storeValue k i type data
        touchKey k
      else pure ⟨⟩
    else pure ⟨⟩

/-- The end of `delete_value`. -/
def shrinkValues (k : ℕ) : M PUnit := do
  let key ← getKey k
  if minValues < key.nbValues ∧ key.lastValue < (key.nbValues / 2 : ℕ) then
    if (← allocate) then
      modifyKey k fun key' =>
        { key' with nbValues := max (key.nbValues - key.nbValues / 3) minValues }
    else pure ⟨⟩
  else pure ⟨⟩

def deleteValue (k : ℕ) (name : List WChar) : M PUnit := do
  let key ← getKey k
  match findValue cm key name with
  | .missing _ => setError .objectNameNotFound
  | .found i =>
    modifyKey k fun key => { key with values := key.values.eraseIdx i }
    touchKey k
    shrinkValues k

end

end Wine.Registry
