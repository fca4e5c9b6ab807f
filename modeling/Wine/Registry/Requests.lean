import Wine.Registry.Load
import Wine.Lib.Runs

/-!
# Registry requests

The handlers of the registry requests, the initialisation of the registry and the saving of its
branches. A request names a key by an open handle of it.
-/

namespace Wine.Registry
open Wine.Lib

/-- A string of a request. -/
def ReqString := { s : List WChar // s.length < maxPathLen }

section
variable (cm : CaseMap)

def rootName : List WChar := wide "\\Registry\\"

/-- How many characters `get_req_path` skips. -/
def rootSkip (skipRoot : Bool) (data : List WChar) : ℕ :=
  if skipRoot ∧ rootName.length ≤ data.length ∧ memicmpW cm data rootName rootName.length = 0 then
    rootName.length
  else 0

/-- `get_hkey_obj`, for a handle with the access that the request needs. -/
def getHkeyObj (hkey : ℕ) : M (Option ℕ) := do
  if hkey ∈ (← get).handles then pure (some hkey)
  else
    setError .invalidHandle
    pure none

def getParentHkeyObj (hkey : Option ℕ) : M (Option ℕ) :=
  match hkey with
  | none => pure (some rootKey)
  | some k => getHkeyObj k

/-- `alloc_handle`. -/
def allocHandle (k : ℕ) : M PUnit := do
  if (← memAlloc) then edit fun r => { r with handles := k :: r.handles }
  else pure ⟨⟩

def closeHandle (hkey : ℕ) : M PUnit := do
  match (← getHkeyObj hkey) with
  | none => pure ⟨⟩
  | some k =>
    edit fun r => { r with handles := r.handles.erase k }
    releaseKey k

/-- The request `create_key`; its data are the path followed by the class. -/
def reqCreateKey (parent : Option ℕ) (name className : List WChar) (volatile : Bool)
    (modif : ℤ) : M PUnit := do
  let skip := rootSkip cm parent.isNone (name ++ className)
  if name.length < skip then setError .invalidParameter
  else
    match (← getParentHkeyObj parent) with
    | none => pure ⟨⟩
    | some p =>
      let flags := if volatile then KeyFlags.keyVolatile else .keyDirty
      match (← createKey cm p (name.drop skip) className flags modif) with
      | none => pure ⟨⟩
      | some k => allocHandle k

def reqOpenKey (parent : Option ℕ) (name : List WChar) : M PUnit := do
  match (← getParentHkeyObj parent) with
  | none => pure ⟨⟩
  | some p =>
    match (← openKey cm p (name.drop (rootSkip cm parent.isNone name))) with
    | none => pure ⟨⟩
    | some k => allocHandle k

def reqDeleteKey (hkey : ℕ) : M PUnit := do
  match (← getHkeyObj hkey) with
  | none => pure ⟨⟩
  | some k =>
    let _ ← deleteKey k false
    pure ⟨⟩

def reqSetValue (hkey : ℕ) (name : List WChar) (type : BitVec 32) (data : List Byte) :
    M PUnit := do
  match (← getHkeyObj hkey) with
  | none => pure ⟨⟩
  | some k => setValue cm k name type data

def reqDeleteValue (hkey : ℕ) (name : List WChar) : M PUnit := do
  match (← getHkeyObj hkey) with
  | none => pure ⟨⟩
  | some k => deleteValue cm k name

/-- The request `load_registry`; `file` is `none` where the file handle is of no use. -/
def reqLoadRegistry (privileged : Bool) (parent : Option ℕ) (name : List WChar)
    (file : Option (List Input)) : M PUnit := do
  if privileged then
    match (← getParentHkeyObj parent) with
    | none => pure ⟨⟩
    | some p =>
      let now := (← get).now
      match (← createKey cm p (name.drop (rootSkip cm parent.isNone name)) [] .keyDirty now) with
      | none => pure ⟨⟩
      | some k =>
        match file with
        | none => setError .invalidHandle
        | some input => loadKeys cm k input (-1)
  else setError .privilegeNotHeld

def reqUnloadRegistry (privileged : Bool) (hkey : ℕ) : M PUnit := do
  if privileged then
    match (← getHkeyObj hkey) with
    | none => pure ⟨⟩
    | some k =>
      let _ ← deleteKey k true
      pure ⟨⟩
  else setError .privilegeNotHeld

/-! ## Initialisation -/

def maxSaveBranchInfo : ℕ := 3

/-- The end of `load_init_registry_from_file`. -/
def registerBranch (k : ℕ) : M PUnit := do
  if (← get).branches.length < maxSaveBranchInfo then
    if (← allocate) then edit fun r => { r with branches := r.branches ++ [k] }
    else pure ⟨⟩
  else throw .assertion

def loadInitRegistry (k : ℕ) (file : Option (List Input)) : M PUnit := do
  match file with
  | none => registerBranch k
  | some input =>
    loadKeys cm k input 0
    if (← get).error = some .notRegistryFile then pure ⟨⟩ else registerBranch k

def initBranch (path : List WChar) (file : Option (List Input)) : M PUnit := do
  let now := (← get).now
  match (← createKey cm rootKey path [] .none now) with
  | none => throw .fatal
  | some k => loadInitRegistry cm k file

def hklmName : List WChar := wide "Machine"
def hkuName : List WChar := wide "User\\.Default"

/-- `format_user_registry_path` for the SID of interactive users. -/
def currentUserPath : List WChar := wide "User\\S-1-5-4"

/-- `init_registry` once the root key exists; a file is `none` where it cannot be opened. -/
def initRegistry (system userdef user : Option (List Input)) : M PUnit := do
  initBranch cm hklmName system
  initBranch cm hkuName userdef
  initBranch cm currentUserPath user

def State.blank (grants : ℕ → Bool) (stale : ℕ → BitVec 16) (now : ℤ) : State where
  keys k := if k = rootKey then some (.new [] now) else none
  nextKey := 1
  handles := []
  branches := []
  grants := grants
  stale := stale
  allocs := 0
  now := now
  error := none

/-! ## The server -/

inductive Action where
  | clock (now : ℤ)
  | createKey (parent : Option ℕ) (name className : ReqString) (volatile : Bool) (modif : ℤ)
  | openKey (parent : Option ℕ) (name : ReqString)
  | closeHandle (hkey : ℕ)
  | deleteKey (hkey : ℕ)
  | setValue (hkey : ℕ) (name : ReqString) (type : BitVec 32) (data : List Byte)
  | deleteValue (hkey : ℕ) (name : ReqString)
  | loadRegistry (privileged : Bool) (parent : Option ℕ) (name : ReqString)
      (file : Option (List Input))
  | unloadRegistry (privileged : Bool) (hkey : ℕ)
  | saveBranch (i : ℕ) (written : Bool)

def perform : Action → M PUnit
  | .clock now => modify fun s => { s with now := now }
  | .createKey parent name className volatile modif =>
    reqCreateKey cm parent name.1 className.1 volatile modif
  | .openKey parent name => reqOpenKey cm parent name.1
  | .closeHandle hkey => closeHandle hkey
  | .deleteKey hkey => reqDeleteKey hkey
  | .setValue hkey name type data => reqSetValue cm hkey name.1 type data
  | .deleteValue hkey name => reqDeleteValue cm hkey name.1
  | .loadRegistry privileged parent name file =>
    reqLoadRegistry cm privileged parent name.1 file
  | .unloadRegistry privileged hkey => reqUnloadRegistry privileged hkey
  | .saveBranch i written => do
    match (← get).branches[i]? with
    | none => pure ⟨⟩
    | some k =>
      let _ ← saveBranch k written
      pure ⟨⟩

/-- One action, with the error of the thread cleared first. -/
def step (s : State) (a : Action) : Except Fault State :=
  (perform cm a { s with error := none }).map Prod.snd

end

end Wine.Registry
