import Wine.Lib.Runs
import Wine.Unicode
import Wine.Server.State

/-!
# Named objects

Directories, symbolic links and the other named objects, and the lookup of an object by its path. A
link sends the lookup of its target back to the root, so that the lookup is bounded by a fuel: with
too little of it there is no result.
-/

namespace Wine.Objects
open Wine.Server (ObjId Status statusInvalidParameter statusNoMemory statusObjectTypeMismatch)

abbrev Name := List WChar

/-- A `struct unicode_str`; a `NULL` string has no characters. -/
abbrev UnicodeStr := Option Name

abbrev Attributes := BitVec 32

def statusObjectNameInvalid : Status := 0xC0000033
def statusObjectNameNotFound : Status := 0xC0000034
def statusObjectNameCollision : Status := 0xC0000035
def statusObjectPathNotFound : Status := 0xC000003A
def statusObjectPathSyntaxBad : Status := 0xC000003B

def objCaseInsensitive : Attributes := 0x40
def objOpenif : Attributes := 0x80
def objOpenlink : Attributes := 0x100

def backslash : WChar := 0x5c

def hashSize : ℕ := 7

def UnicodeStr.chars (name : UnicodeStr) : Name := name.getD []

/-! ## Namespaces -/

structure Namespace where
  hashSize : ℕ
  names : ℕ → List (Name × ObjId)

def createNamespace (hashSize : ℕ) : Namespace := ⟨hashSize, fun _ => []⟩

/-- `strncmpiW` stops at the end of both strings. -/
def strncmpiW (cm : CaseMap) : Name → Name → ℕ → ℤ
  | c :: s, d :: t, n + 1 =>
    let ret := ((cm.tolowerW c).toNat : ℤ) - (cm.tolowerW d).toNat
    if ret ≠ 0 ∨ c = 0 then ret else strncmpiW cm s t n
  | _, _, _ => 0

def getNameHash (cm : CaseMap) (ns : Namespace) (name : Name) : ℕ :=
  (name.foldl (fun hash c => hash ^^^ cm.tolowerW c) 0).toNat % ns.hashSize

def setObjectName (cm : CaseMap) (ns : Namespace) (name : Name) (obj : ObjId) : Namespace :=
  let hash := getNameHash cm ns name
  { ns with names := Function.update ns.names hash ((name, obj) :: ns.names hash) }

def findObject (cm : CaseMap) (ns : Namespace) (name : UnicodeStr) (attr : Attributes) :
    Option ObjId :=
  if name.chars = [] then none
  else ((ns.names (getNameHash cm ns name.chars)).find? fun ptr =>
    decide (ptr.1.length = name.chars.length) &&
      if attr &&& objCaseInsensitive ≠ 0 then
        decide (strncmpiW cm ptr.1 name.chars name.chars.length = 0)
      else decide (ptr.1 = name.chars)).map (·.2)

/-! ## Objects -/

/-- The operations of an object tell its kind. -/
inductive ObjectOps
  | directory | symlink | namedPipeDevice | mailslotDevice | namedPipe | mailslot
  | event | mutex | semaphore | timer | mapping
  deriving DecidableEq, Repr

inductive Object
  | directory (entries : Namespace)
  | symlink (target : Name)
  | namedPipeDevice (pipes : Namespace)
  | mailslotDevice (mailslots : Namespace)
  | other (ops : ObjectOps)

def Object.ops : Object → ObjectOps
  | .directory _ => .directory
  | .symlink _ => .symlink
  | .namedPipeDevice _ => .namedPipeDevice
  | .mailslotDevice _ => .mailslotDevice
  | .other ops => ops

/-- `parent` is the directory that the name of the object keeps alive. -/
structure NamedObject where
  obj : Object
  parent : Option ObjId

/-- The objects by their addresses; a freed object leaves a gap. The first is the root directory. -/
structure State where
  objects : List (Option NamedObject)

def rootDirectory : ObjId := 0

def State.object (s : State) (o : ObjId) : Option Object := (s.objects[o]?.join).map (·.obj)

/-! ## Lookup -/

/-- A lookup that finds nothing gives an error or tells that the path ends at the object asked. -/
abbrev Lookup := Except Status (Option (ObjId × UnicodeStr))

def directoryLookupName (cm : CaseMap) (entries : Namespace) (name : UnicodeStr)
    (attr : Attributes) : Lookup :=
  let p := decide (backslash ∈ name.chars)
  let tmp := name.chars.takeWhile (· ≠ backslash)
  match findObject cm entries (some tmp) attr with
  | some found =>
    -- the rest starts behind the backslash, and is `NULL` where there is none
    .ok (some (found, if p then some (name.chars.drop (tmp.length + 1)) else none))
  | none =>
    if name ≠ none then
      if tmp = [] then .error statusObjectNameInvalid
      else if p then .error statusObjectPathNotFound
      else .ok none
    else .ok none

def deviceLookupName (cm : CaseMap) (names : Namespace) (name : UnicodeStr) (attr : Attributes) :
    Lookup :=
  .ok ((findObject cm names name (attr ||| objCaseInsensitive)).map fun found =>
    (found, name.map fun _ => []))

/-- What `find_object_dir` returns: an object with what is left of the name, or an error. -/
abbrev Found := Except Status (ObjId × UnicodeStr)

/-- `find` is `find_object_dir` from the root directory. -/
def symlinkLookupName (find : UnicodeStr → Option Found) (target : Name) (name : UnicodeStr)
    (attr : Attributes) : Option Lookup :=
  if attr &&& objOpenlink ≠ 0 then some (.ok none)
  else (find (some target)).map fun
    | .error e => .error e
    | .ok (obj, nameLeft) =>
      if nameLeft.chars ≠ [] then .error statusObjectPathNotFound else .ok (some (obj, name))

def lookupName (cm : CaseMap) (s : State) (find : UnicodeStr → Option Found) (parent : ObjId)
    (name : UnicodeStr) (attr : Attributes) : Option Lookup :=
  match s.object parent with
  | some (.directory entries) => some (directoryLookupName cm entries name attr)
  | some (.symlink target) => symlinkLookupName find target name attr
  | some (.namedPipeDevice names) | some (.mailslotDevice names) =>
    some (deviceLookupName cm names name attr)
  | some (.other _) | none => some (.ok none)

/-- Where `find_object_dir` starts, or its check of the arguments. -/
def findStart (root : Option ObjId) (name : UnicodeStr) : Found :=
  match root with
  | some root =>
    if name.chars.head? = some backslash then .error statusObjectPathSyntaxBad
    else .ok (root, name)
  | none =>
    match name.chars with
    | [] => .error statusObjectPathSyntaxBad
    | c :: rest =>
      if c ≠ backslash then .error statusObjectPathSyntaxBad else .ok (rootDirectory, some rest)

/-- `find_object_dir` with its loop as a parameter. -/
def findObjectDirWith (loop : ObjId → UnicodeStr → Option Found) (root : Option ObjId)
    (name : UnicodeStr) : Option Found :=
  match findStart root name with
  | .error e => some (.error e)
  | .ok (parent, name) =>
    -- special case for opening the root directory
    if name.chars = [] then some (.ok (parent, name)) else loop parent name

def findLoop (cm : CaseMap) (s : State) (attr : Attributes) : ℕ → ObjId → UnicodeStr → Option Found
  | 0, _, _ => none
  | n + 1, parent, name =>
    match lookupName cm s (findObjectDirWith (findLoop cm s attr n) none) parent name attr with
    | none => none
    | some (.error e) => some (.error e)
    | some (.ok none) => some (.ok (parent, name))
    | some (.ok (some (obj, name))) => findLoop cm s attr n obj name

def findObjectDir (cm : CaseMap) (s : State) (attr : Attributes) (fuel : ℕ) (root : Option ObjId)
    (name : UnicodeStr) : Option Found :=
  findObjectDirWith (findLoop cm s attr fuel) root name

end Wine.Objects

/-!
## Requests on named objects

The requests that put objects into the namespace, and the end of an object. A request that fails
leaves the namespace as it was.
-/

namespace Wine.Objects
open Wine.Lib
open Wine.Server (ObjId Status statusInvalidHandle statusInvalidParameter statusNoMemory
  statusObjectTypeMismatch)

def statusObjectNameExists : Status := 0x40000000

/-- The object of a request and whether it existed before. There is no result where the lookup of
the name runs out of fuel. -/
abbrev Created := Option (Except Status (State × ObjId × Bool))

/-! ## Containers -/

/-- The names an object holds, with the object that holds others in their place. -/
abbrev Container := Object → Option (Namespace × (Namespace → Object))

def asDirectory : Container
  | .directory entries => some (entries, .directory)
  | _ => none

def asNamedPipeDevice : Container
  | .namedPipeDevice pipes => some (pipes, .namedPipeDevice)
  | _ => none

def asMailslotDevice : Container
  | .mailslotDevice mailslots => some (mailslots, .mailslotDevice)
  | _ => none

def allocObject (s : State) (obj : Object) (parent : Option ObjId) (mem : Bool) : Created :=
  if mem then some (.ok (⟨s.objects ++ [some ⟨obj, parent⟩]⟩, s.objects.length, false))
  else some (.error statusNoMemory)

/-- `create_object` under a name in `dir`, which is kept alive where `keep` holds. -/
def createObject (cm : CaseMap) (s : State) (dir : ObjId) (ns : Namespace)
    (put : Namespace → Object) (name : Name) (obj : Object) (keep mem : Bool) : Created :=
  let held := (s.objects[dir]?.join).bind (·.parent)
  let ns' := setObjectName cm ns name s.objects.length
  allocObject ⟨s.objects.set dir (some ⟨put ns', held⟩)⟩ obj (if keep then some dir else none) mem

section
variable (cm : CaseMap) (fuel : ℕ) (s : State) (root : Option ObjId) (name : Name)
  (attr : Attributes)

/-- What `create_named_object_dir`, `create_named_pipe` and `create_mailslot` share. -/
def createIn (container : Container) (keep : Bool) (obj : Object) (mem : Bool) : Created :=
  if name = [] then allocObject s obj none mem
  else
    match findObjectDir cm s attr fuel root (some name) with
    | none => none
    | some (.error e) => some (.error e)
    | some (.ok (o, newName)) =>
      if newName.chars = [] then
        if attr &&& objOpenif ≠ 0 ∧ (s.object o).map (·.ops) = some obj.ops then
          some (.ok (s, o, true))
        else if attr &&& objOpenif ≠ 0 then some (.error statusObjectTypeMismatch)
        else some (.error statusObjectNameCollision)
      else
        match (s.object o).bind container with
        | none => some (.error statusObjectTypeMismatch)
        | some (ns, put) => createObject cm s o ns put newName.chars obj keep mem

def createNamedObjectDir (obj : Object) (mem : Bool) : Created :=
  createIn cm fuel s root name attr asDirectory true obj mem

def createDirectory (hashSize : ℕ) (mem : Bool) : Created :=
  createNamedObjectDir cm fuel s root name attr (.directory (createNamespace hashSize)) mem

def createSymlink (target : Name) (mem : Bool) : Created :=
  if target = [] then some (.error statusInvalidParameter)
  else createNamedObjectDir cm fuel s root name attr (.symlink target) mem

def createNamedPipe (mem : Bool) : Created :=
  createIn cm fuel s root name attr asNamedPipeDevice false (.other .namedPipe) mem

/-- There is only one reader of a mailslot, so that an existing one is an error. -/
def createMailslot (mem : Bool) : Created :=
  match createIn cm fuel s root name attr asMailslotDevice false (.other .mailslot) mem with
  | some (.ok (_, _, true)) => some (.error statusObjectNameExists)
  | r => r

def openObjectDir (ops : Option ObjectOps) : Option (Except Status ObjId) :=
  (findObjectDir cm s attr fuel root (some name)).map fun
    | .error e => .error e
    | .ok (obj, nameLeft) =>
      if nameLeft.chars ≠ [] then .error statusObjectNameNotFound
      else if ops ≠ none ∧ (s.object obj).map (·.ops) ≠ ops then .error statusObjectTypeMismatch
      else .ok obj

end

/-! ## The end of an object -/

def Namespace.remove (ns : Namespace) (o : ObjId) : Namespace :=
  { ns with names := fun hash => (ns.names hash).filter (·.2 ≠ o) }

def Object.remove (o : ObjId) : Object → Object
  | .directory entries => .directory (entries.remove o)
  | .namedPipeDevice pipes => .namedPipeDevice (pipes.remove o)
  | .mailslotDevice mailslots => .mailslotDevice (mailslots.remove o)
  | obj => obj

def Object.isDevice : Object → Bool
  | .namedPipeDevice _ | .mailslotDevice _ => true
  | _ => false

/-- The last reference to an object goes. The names in a directory hold references to it, and the
root directory and the devices are never let go. -/
def releaseObject (s : State) (o : ObjId) : State :=
  if o = rootDirectory ∨ (s.object o).any (·.isDevice) ∨
      s.objects.any fun n => n.any fun n => n.parent = some o then s
  else ⟨(s.objects.set o none).map fun n => n.map fun n => { n with obj := n.obj.remove o }⟩

/-! ## Requests one after the other -/

inductive Action
  | createDirectory (root : Option ObjId) (name : Name) (attr : Attributes) (hashSize : ℕ)
      (mem : Bool)
  | createSymlink (root : Option ObjId) (name : Name) (attr : Attributes) (target : Name)
      (mem : Bool)
  | createObject (root : Option ObjId) (name : Name) (attr : Attributes) (ops : ObjectOps)
      (mem : Bool)
  | createNamedPipe (root : Option ObjId) (name : Name) (attr : Attributes) (mem : Bool)
  | createMailslot (root : Option ObjId) (name : Name) (attr : Attributes) (mem : Bool)
  | createNamedPipeDevice (root : Option ObjId) (name : Name) (mem : Bool)
  | createMailslotDevice (root : Option ObjId) (name : Name) (mem : Bool)
  | releaseObject (o : ObjId)

inductive Fault
  | outOfFuel
  deriving DecidableEq, Repr

/-- `get_directory_obj` on the handle of the root directory. -/
def withRoot (s : State) (root : Option ObjId) (request : Created) : Created :=
  match root with
  | none => request
  | some r =>
    match (s.object r).bind asDirectory with
    | none => some (.error statusInvalidHandle)
    | some _ => request

def perform (cm : CaseMap) (fuel : ℕ) (s : State) : Action → Created
  | .createDirectory root name attr hashSize mem =>
    withRoot s root (createDirectory cm fuel s root name attr hashSize mem)
  | .createSymlink root name attr target mem =>
    withRoot s root (createSymlink cm fuel s root name attr target mem)
  | .createObject root name attr ops mem =>
    withRoot s root (createNamedObjectDir cm fuel s root name attr (.other ops) mem)
  | .createNamedPipe root name attr mem =>
    withRoot s root (createNamedPipe cm fuel s root name attr mem)
  | .createMailslot root name attr mem =>
    withRoot s root (createMailslot cm fuel s root name attr mem)
  | .createNamedPipeDevice root name mem =>
    createNamedObjectDir cm fuel s root name 0 (.namedPipeDevice (createNamespace 7)) mem
  | .createMailslotDevice root name mem =>
    createNamedObjectDir cm fuel s root name 0 (.mailslotDevice (createNamespace 7)) mem
  | .releaseObject o => some (.ok (releaseObject s o, o, true))

/-- A request that fails changes nothing; one whose lookup has too little fuel is no step. -/
def step (cm : CaseMap) (s : State) (a : ℕ × Action) : Except Fault State :=
  match perform cm a.1 s a.2 with
  | none => .error .outOfFuel
  | some (.error _) => .ok s
  | some (.ok r) => .ok r.1

/-- The namespace with the root directory only. -/
def State.initial : State := ⟨[some ⟨.directory (createNamespace hashSize), none⟩]⟩

/-- The rest of `init_directories`. -/
def initDirectories : List (ℕ × Action) :=
  let root := some rootDirectory
  let dirGlobal := wide "\\??"
  let dirBasenamed := wide "\\BaseNamedObjects"
  [(9, .createDirectory root (wide "Driver") 0 hashSize true),
    (9, .createDirectory root (wide "Device") 0 hashSize true),
    (9, .createDirectory none dirGlobal 0 hashSize true),
    (9, .createDirectory none dirBasenamed 0 37 true),
    (9, .createSymlink root (wide "DosDevices") 0 dirGlobal true),
    (9, .createSymlink (some 3) (wide "Global") 0 dirGlobal true),
    (9, .createSymlink (some 4) (wide "Global") 0 dirBasenamed true),
    (9, .createSymlink (some 4) (wide "Local") 0 dirBasenamed true),
    (9, .createNamedPipeDevice (some 3) (wide "PIPE") true),
    (9, .createMailslotDevice (some 3) (wide "MAILSLOT") true)]

end Wine.Objects
