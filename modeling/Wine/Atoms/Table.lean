import Wine.Unicode

/-!
# Atom tables

An atom table maps the values from `MIN_STR_ATOM` on to counted strings. The pointers of its hash
lists are indices into the array of handles.
-/

namespace Wine.Atoms

abbrev Atom := BitVec 16

inductive Status where
  | noMemory
  | invalidHandle
  | invalidParameter
  | objectNameInvalid
  | objectNameNotFound
  | wasLocked
  | accessDenied
  | invalidWindowHandle
  | classAlreadyExists
  | classDoesNotExist
  | classHasWindows
  | invalidIndex
  deriving DecidableEq, Repr

/-- What the server cannot go on from: a failed assertion or an `int` that overflows. -/
inductive Fault where
  | assertion
  | overflow
  deriving DecidableEq, Repr

/-- Which allocations of a request succeed. -/
structure Allocations where
  table : Bool
  handles : Bool
  object : Bool
  deriving DecidableEq, Repr

def hashSize : ℕ := 37

def minHashSize : ℕ := 4

def maxHashSize : ℕ := 0x200

def maxAtomLen : ℕ := 255

@[irreducible] def minStrAtom : ℕ := 0xc000

def maxAtoms : ℕ := 0x4000

def intMax : ℕ := 2 ^ 31 - 1

/-- `adds` and `deletes` count the successful requests of clients for the entry since it was
made. No function of the server reads them. -/
structure AtomEntry where
  count : ℤ
  pinned : Bool
  hash : ℕ
  str : List WChar
  adds : ℕ
  deletes : ℕ
  deriving DecidableEq, Repr

/-- The array of handles ends at the last one in use. -/
structure AtomTable where
  count : ℕ
  handles : List (Option AtomEntry)
  entriesCount : ℕ
  entries : ℕ → List ℕ
  fits : handles.length ≤ count
  small : count ≤ maxAtoms

def createTable (entriesCount : ℤ) : AtomTable where
  count := 64
  handles := []
  entriesCount :=
    if entriesCount < minHashSize ∨ entriesCount > maxHashSize then hashSize
    else entriesCount.toNat
  entries _ := []
  fits := by simp
  small := by decide

def atomOfIndex (i : ℕ) : Atom := BitVec.ofNat 16 (i + minStrAtom)

namespace AtomTable

def entry (t : AtomTable) (i : ℕ) : Option AtomEntry := (t.handles[i]?).join

/-- `table->handles[i] = e` for an index that is in use -/
def setEntry (t : AtomTable) (i : ℕ) (e : Option AtomEntry) : AtomTable :=
  { t with
    handles := t.handles.set i e
    fits := by rw [List.length_set]; exact t.fits }

def setHash (t : AtomTable) (hash : ℕ) (l : List ℕ) : AtomTable :=
  { t with entries := fun h => if h = hash then l else t.entries h }

/-- The index of an atom, if there is an entry for it. -/
def getAtomEntry (t : AtomTable) (atom : Atom) : Option ℕ :=
  let i := atom.toNat - minStrAtom
  if minStrAtom ≤ atom.toNat ∧ i < t.handles.length ∧ (t.entry i).isSome then some i else none

/-- The new entry's index and the table with the entry in its array. -/
def addAtomEntry (t : AtomTable) (e : AtomEntry) (mem : Allocations) : Option (ℕ × AtomTable) :=
  let i := t.handles.findIdx Option.isNone
  if i < t.handles.length then some (i, t.setEntry i (some e))
  else if hgrow : t.handles.length = t.count then
    let newSize := min (t.count + t.count / 2) maxAtoms
    if hsize : newSize > t.count then
      if mem.handles then
        some (t.handles.length, { t with
          count := newSize
          handles := t.handles ++ [some e]
          fits := by rw [List.length_append, List.length_singleton]; omega
          small := Nat.min_le_right _ _ })
      else none
    else none
  else
    some (t.handles.length, { t with
      handles := t.handles ++ [some e]
      fits := by
        have := t.fits
        rw [List.length_append, List.length_singleton]
        omega })

section

variable (cm : CaseMap)

/-- The loop of `atom_hash`, in 16-bit arithmetic. -/
def hashLoop : ℕ → BitVec 16 → List WChar → BitVec 16
  | _, hash, [] => hash
  | i, hash, c :: s =>
    hashLoop (i + 1) (hash ^^^ BitVec.ofNat 16 ((cm.toupperW c).toNat + i)) s

def atomHash (t : AtomTable) (str : List WChar) : ℕ := (hashLoop cm 0 0 str).toNat % t.entriesCount

/-- The first entry of the hash list with this string. -/
def findAtomEntry (t : AtomTable) (str : List WChar) (hash : ℕ) : Option ℕ :=
  (t.entries hash).find? fun i =>
    match t.entry i with
    | some e => e.str.length = str.length && memicmpW cm e.str str str.length = 0
    | none => false

/-- `entry->count++`, by a client or by the server. -/
def bump (t : AtomTable) (i : ℕ) (client : Bool) : Except Fault AtomTable :=
  match t.entry i with
  | none => .ok t
  | some e =>
    if e.count = intMax then .error .overflow
    else .ok (t.setEntry i (some { e with
      count := e.count + 1
      adds := if client then e.adds + 1 else e.adds }))

/-- The atom (0 if there is none), the error and the table after `add_atom`. -/
def addAtom (t : AtomTable) (str : List WChar) (client : Bool) (mem : Allocations) :
    Except Fault (Atom × Option Status × AtomTable) :=
  let hash := atomHash cm t str
  if str.length = 0 then .ok (0, some .objectNameInvalid, t)
  else if str.length > maxAtomLen then .ok (0, some .invalidParameter, t)
  else
    match findAtomEntry cm t str hash with
    | some i => do
      let t ← t.bump i client
      .ok (atomOfIndex i, none, t)
    | none =>
      if mem.object then
        match t.addAtomEntry ⟨1, false, hash, str, if client then 1 else 0, 0⟩ mem with
        | some (i, t) => .ok (atomOfIndex i, none, t.setHash hash (i :: t.entries hash))
        | none => .ok (0, some .noMemory, t)
      else .ok (0, some .noMemory, t)

/-- The entry is unlinked from its hash list and freed. -/
def freeEntry (t : AtomTable) (i : ℕ) (e : AtomEntry) : AtomTable :=
  (t.setHash e.hash ((t.entries e.hash).erase i)).setEntry i none

/-- `delete_atom`; clients are the callers that do not delete pinned atoms. -/
def deleteAtom (t : AtomTable) (atom : Atom) (ifPinned : Bool) : Option Status × AtomTable :=
  match t.getAtomEntry atom with
  | none => (some .invalidHandle, t)
  | some i =>
    match t.entry i with
    | none => (none, t)
    | some e =>
      if e.pinned && !ifPinned then (some .wasLocked, t)
      else if e.count - 1 = 0 then (none, t.freeEntry i e)
      else (none, t.setEntry i (some { e with
        count := e.count - 1
        deletes := if ifPinned then e.deletes else e.deletes + 1 }))

def findAtom (t : AtomTable) (str : List WChar) : Atom × Option Status :=
  if str.length = 0 then (0, some .objectNameInvalid)
  else if str.length > maxAtomLen then (0, some .invalidParameter)
  else
    match findAtomEntry cm t str (atomHash cm t str) with
    | some i => (atomOfIndex i, none)
    | none => (0, some .objectNameNotFound)

/-- The loop of `empty_atom_table` over the indices below `n`. -/
def emptyBelow (t : AtomTable) (ifPinned : Bool) : ℕ → AtomTable
  | 0 => t
  | n + 1 =>
    let t := t.emptyBelow ifPinned n
    match t.entry n with
    | none => t
    | some e => if !e.pinned || ifPinned then t.freeEntry n e else t

def emptyAtomTable (t : AtomTable) (ifPinned : Bool) : AtomTable :=
  t.emptyBelow ifPinned t.handles.length

end

end AtomTable

end Wine.Atoms
