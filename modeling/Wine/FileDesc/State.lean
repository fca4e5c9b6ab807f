import Mathlib.Data.BitVec
import Wine.Server.State

/-!
# File descriptors, inodes, devices and byte-range locks

A file that is open more than once has one inode, which lists the descriptors, the locks and the
Unix descriptors that cannot be closed yet: closing any of them drops all POSIX locks that the
server holds on the file. Pointers are identifiers that are never used twice, and so are the numbers
of Unix descriptors.
-/

namespace Wine.FileDesc
open Wine.Lib
open Wine.Server (Status Access statusInvalidHandle statusInvalidParameter statusNoMemory
  statusAccessDenied statusPending intMax)

abbrev FdId := ℕ
abbrev InodeId := ℕ
abbrev DeviceId := ℕ
abbrev LockId := ℕ
abbrev ProcessId := ℕ
abbrev UnixFd := ℕ

/-- `file_pos_t` -/
abbrev FilePos := BitVec 64

def statusSharingViolation : Status := 0xC0000043
def statusFileLockConflict : Status := 0xC0000054
def statusFileIsADirectory : Status := 0xC00000BA
def statusNotADirectory : Status := 0xC0000103

def fileReadData : Access := 0x0001
def fileWriteData : Access := 0x0002
def fileReadEa : Access := 0x0008
def fileWriteEa : Access := 0x0010
def fileReadAttributes : Access := 0x0080
def fileWriteAttributes : Access := 0x0100
def fileUnixReadAccess : Access := fileReadData ||| fileReadAttributes ||| fileReadEa
def fileUnixWriteAccess : Access := fileWriteData ||| fileWriteAttributes ||| fileWriteEa
def delete : Access := 0x00010000
def fileShareRead : Access := 1
def fileShareWrite : Access := 2
def fileShareDelete : Access := 4

def filePosMax : FilePos := BitVec.allOnes 64
def offTMax : FilePos := 2 ^ 63 - 1

/-- A locked region is the interval from `start` to `end_`, without the latter; `end_ = 0` is the
end of all files. `process` is null once the lock has been removed. -/
structure FileLock where
  fd : FdId
  shared : Bool
  start : FilePos
  end_ : FilePos
  process : Option ProcessId
  deriving DecidableEq, Repr

/-- A Unix descriptor to close (`-1` is `none`) and a name to unlink (if not empty) when the inode
goes away. -/
structure ClosedFd where
  unixFd : Option UnixFd
  unlink : String
  deriving DecidableEq, Repr

/-- `closed` has no meaning without an inode. -/
structure Fd where
  inode : Option InodeId
  closed : ClosedFd
  locks : List LockId
  access : Access
  sharing : Access
  unixFd : Option UnixFd
  fsLocks : Bool
  unmounted : Bool
  deriving DecidableEq, Repr

structure Inode where
  refcount : ℕ
  device : DeviceId
  ino : ℕ
  openFds : List FdId
  locks : List LockId
  closed : List ClosedFd
  deriving DecidableEq, Repr

structure Device where
  refcount : ℕ
  dev : ℕ
  inodes : List InodeId
  deriving DecidableEq, Repr

inductive LockType
  | rdlck | wrlck | unlck
  deriving DecidableEq, Repr

/-- What the server has done that can be told from outside, most of it requests to the Unix system.
`locked` tells whether there was a lock on the inode of the descriptor, on a mounted device, when it
was closed, and `unmount` whether that was done to unmount the device. `pendUnlink` is the recording
of a name for deletion, and `removeUnixLocks` a call of that function. -/
inductive Event
  | opened (fd : UnixFd) (inode : Option InodeId)
  | close (fd : UnixFd) (locked unmount : Bool)
  | truncate (fd : UnixFd)
  | pendUnlink (inode : InodeId) (name : String)
  | unmount (device : DeviceId)
  | unlink (name : String)
  | setLk (fd : Option UnixFd) (start end_ : FilePos) (type : LockType)
  | removeUnixLocks (fd : FdId) (start end_ : FilePos)
  deriving DecidableEq, Repr

/-- `events` is newest first and is never read; `fcntls` counts the attempts to lock. -/
structure State where
  fd : FdId → Option Fd
  inode : InodeId → Option Inode
  device : DeviceId → Option Device
  deviceHash : List DeviceId
  lock : LockId → FileLock
  processLocks : ProcessId → List LockId
  maxUnixOffset : FilePos
  error : Status
  nextFd : ℕ
  nextInode : ℕ
  nextDevice : ℕ
  nextLock : ℕ
  nextUnix : ℕ
  fcntls : ℕ
  events : List Event

def noLock : FileLock := ⟨0, false, 0, 0, none⟩

def State.initial : State where
  fd _ := none
  inode _ := none
  device _ := none
  deviceHash := []
  lock _ := noLock
  processLocks _ := []
  maxUnixOffset := offTMax
  error := 0
  nextFd := 0
  nextInode := 0
  nextDevice := 0
  nextLock := 0
  nextUnix := 0
  fcntls := 0
  events := []

inductive Site
  | inodeOpen | inodeLocks | deviceInodes | unmountFd
  deriving DecidableEq, Repr

/-- A failed assertion, an access through a null or dangling pointer, or (no behaviour of the
source) a loop bound that was too small. -/
inductive Fault
  | assertion (site : Site)
  | badPointer
  | outOfFuel
  deriving DecidableEq, Repr

abbrev M := Exec State Fault

namespace State

def setFd (s : State) (f : FdId) (x : Option Fd) : State :=
  { s with fd := Function.update s.fd f x }

def setInode (s : State) (i : InodeId) (n : Option Inode) : State :=
  { s with inode := Function.update s.inode i n }

def setDevice (s : State) (d : DeviceId) (x : Option Device) : State :=
  { s with device := Function.update s.device d x }

def setLock (s : State) (l : LockId) (k : FileLock) : State :=
  { s with lock := Function.update s.lock l k }

def setProcessLocks (s : State) (p : ProcessId) (ls : List LockId) : State :=
  { s with processLocks := Function.update s.processLocks p ls }

def record (s : State) (e : Event) : State := { s with events := e :: s.events }

/-- There is a lock on the inode, and its device is mounted. -/
def lockedInode (s : State) (i : InodeId) : Bool :=
  match s.inode i with
  | some n => !n.locks.isEmpty && decide (n.device ∈ s.deviceHash)
  | none => false

/-- `close` of a Unix descriptor of the inode `i`, unless it is `-1`. -/
def closeUnixFd (s : State) (i : InodeId) (unmount : Bool) : Option UnixFd → State
  | none => s
  | some u => s.record (.close u (s.lockedInode i) unmount)

end State

def setError (e : Status) : M PUnit := modify fun s => { s with error := e }

def assert (site : Site) (c : Bool) : M PUnit :=
  if c then pure ⟨⟩ else throw (.assertion site)

/-- Access through a pointer to an fd, which may be dangling. -/
def getFd (f : FdId) : M Fd := do
  let s ← get
  match s.fd f with
  | some x => pure x
  | none => throw .badPointer

def getInode (i : InodeId) : M Inode := do
  let s ← get
  match s.inode i with
  | some n => pure n
  | none => throw .badPointer

/-- The inode of an fd, which is null for files that are not regular. -/
def fdInode (f : FdId) : M InodeId := do
  let x ← getFd f
  match x.inode with
  | some i => pure i
  | none => throw .badPointer

end Wine.FileDesc

/-!
## Byte-range locks

`lock_fd` and `unlock_fd` with the lists they keep. A lock is in three lists at once: that of its fd,
that of the inode and that of its process. `fcntl n` is the outcome of the `n`-th attempt to set a
Unix lock.
-/

namespace Wine.FileDesc
open Wine.Lib
open Wine.Server (Status statusInvalidHandle statusInvalidParameter statusNoMemory
  statusAccessDenied statusPending intMax)

/-! ## Unix descriptors that wait for the last lock to go -/

def closeUnixFds (i : InodeId) (unmount : Bool) (cs : List ClosedFd) (s : State) : State :=
  cs.foldl (fun s c => s.closeUnixFd i unmount c.unixFd) s

/-- What `inode_close_pending` leaves in the list. -/
def keptClosed (keepUnlinks : Bool) (cs : List ClosedFd) : List ClosedFd :=
  if keepUnlinks then (cs.filter (·.unlink ≠ "")).map ({ · with unixFd := none }) else []

def State.closePending (s : State) (i : InodeId) (n : Inode) (keepUnlinks : Bool) : State :=
  (closeUnixFds i (!keepUnlinks) n.closed s).setInode i
    (some { n with closed := keptClosed keepUnlinks n.closed })

/-- Names are only dropped to unmount the device. -/
def inodeClosePending (i : InodeId) (keepUnlinks : Bool) : M PUnit := do
  let n ← getInode i
  modify (·.closePending i n keepUnlinks)

/-! ## Unix locks -/

/-- The outcomes of `fcntl( fd, F_SETLK )` that `set_unix_lock` tells apart; `acces` has that of the
`F_GETLK` that follows, and `other` what `file_set_error` makes of `errno`. -/
inductive FcntlResult
  | ok
  | acces (getLk : Bool)
  | noLocks
  | again
  | badFd
  | overflow
  | other (e : Status)
  deriving DecidableEq, Repr

section
variable (fcntl : ℕ → FcntlResult)

/-- One round of the loop of `set_unix_lock`; `none` to try again. -/
def trySetUnixLock (f : FdId) (start end_ : FilePos) (type : LockType) : M (Option Bool) := do
  let x ← getFd f
  let s ← get
  if start = end_ then pure (some true)
  else if s.maxUnixOffset < start then pure (some true)
  else
    let s := { s.record (.setLk x.unixFd start end_ type) with fcntls := s.fcntls + 1 }
    set s
    let ignore : M (Option Bool) := do
      set (s.setFd f (some { x with fsLocks := false }))
      pure (some true)
    let fail (e : Status) : M (Option Bool) := do
      setError e
      pure (some false)
    match fcntl (s.fcntls - 1) with
    | .ok => pure (some true)
    | .acces true => fail statusFileLockConflict
    | .acces false => ignore
    | .noLocks => ignore
    | .again => fail statusFileLockConflict
    | .badFd => if type = .wrlck then pure (some true) else fail statusAccessDenied
    | .overflow =>
      if BitVec.ofNat 64 intMax < s.maxUnixOffset then
        set { s with maxUnixOffset := BitVec.ofNat 64 intMax }
        pure none
      else fail statusInvalidParameter
    | .other e => fail e

/-- There is at most one retry, as the limit does not shrink twice. -/
def setUnixLock (f : FdId) (start end_ : FilePos) (type : LockType) : M Bool := do
  let x ← getFd f
  if !x.fsLocks then pure true
  else
    match ← trySetUnixLock fcntl f start end_ type with
    | some r => pure r
    | none => return (← trySetUnixLock fcntl f start end_ type).getD false

end

def lockOverlaps (lock : FileLock) (start end_ : FilePos) : Bool :=
  if lock.end_ ≠ 0 ∧ lock.end_ ≤ start then false
  else if end_ ≠ 0 ∧ end_ ≤ lock.start then false
  else true

/-- `remove_unix_locks` as its callers see it: the interval that they hand over. -/
def removeUnixLocks (f : FdId) (start end_ : FilePos) : M PUnit :=
  modify (·.record (.removeUnixLocks f start end_))

/-! ## Adding and removing locks -/

/-- The three `list_add_head` of `add_lock`. -/
def State.linkLock (s : State) (l : LockId) (f : FdId) (x : Fd) (i : InodeId) (n : Inode)
    (p : ProcessId) : State :=
  ((s.setFd f (some { x with locks := l :: x.locks })).setInode i
    (some { n with locks := l :: n.locks })).setProcessLocks p (l :: s.processLocks p)

/-- The three `list_remove` of `remove_lock`. -/
def State.unlinkLock (s : State) (l : LockId) (f : FdId) (x : Fd) (i : InodeId) (n : Inode)
    (p : ProcessId) : State :=
  ((s.setFd f (some { x with locks := x.locks.erase l })).setInode i
    (some { n with locks := n.locks.erase l })).setProcessLocks p ((s.processLocks p).erase l)

/-- Of removing a lock, what comes after its removal from the lists. -/
def dropLock (l : LockId) (i : InodeId) (removeUnix : Bool) : M PUnit := do
  let s ← get
  if removeUnix then removeUnixLocks (s.lock l).fd (s.lock l).start (s.lock l).end_
  let n ← getInode i
  if n.locks.isEmpty then inodeClosePending i true
  modify fun s => s.setLock l { s.lock l with process := none }

def removeLock (l : LockId) (removeUnix : Bool) : M PUnit := do
  let s ← get
  let f := (s.lock l).fd
  let x ← getFd f
  let i ← fdInode f
  let n ← getInode i
  match (s.lock l).process with
  | none => throw .badPointer
  | some p =>
    set (s.unlinkLock l f x i n p)
    dropLock l i removeUnix

section
variable (fcntl : ℕ → FcntlResult)

/-- `add_lock` for the process `p`; `mem` is the outcome of the allocation. -/
def addLock (p : ProcessId) (f : FdId) (shared : Bool) (start end_ : FilePos) (mem : Bool) :
    M Bool := do
  let x ← getFd f
  match x.inode with
  | none =>
    setError statusInvalidHandle
    pure false
  | some i =>
    if !mem then
      setError statusNoMemory
      pure false
    else if ← setUnixLock fcntl f start end_ (if shared then .rdlck else .wrlck) then
      let s ← get
      let x ← getFd f
      let n ← getInode i
      set { (s.setLock s.nextLock ⟨f, shared, start, end_, some p⟩).linkLock s.nextLock f x i n p
        with nextLock := s.nextLock + 1 }
      pure true
    else pure false

/-- `lock_fd`, with the lock that the caller gets a handle to wait for. -/
def lockFd (p : ProcessId) (f : FdId) (start count : FilePos) (shared wait mem : Bool) :
    M (Option LockId) := do
  let end_ := start + count
  if end_ ≠ 0 ∧ end_ < start then
    setError statusInvalidParameter
    pure none
  else
    let n ← getInode (← fdInode f)
    let s ← get
    match n.locks.find? fun l => lockOverlaps (s.lock l) start end_ &&
        !((s.lock l).shared && shared) with
    | some l =>
      if !wait then
        setError statusFileLockConflict
        pure none
      else
        setError statusPending
        pure (some l)
    | none =>
      if ← addLock fcntl p f shared start end_ mem then pure none
      else
        let s ← get
        if s.error = statusFileLockConflict ∧ wait then setError statusPending
        pure none

end

def unlockFd (f : FdId) (start count : FilePos) : M PUnit := do
  let x ← getFd f
  let s ← get
  match x.locks.find? fun l => (s.lock l).start = start ∧ (s.lock l).end_ = start + count with
  | some l => removeLock l true
  | none => setError statusFileLockConflict

/-! ## Removing many locks -/

/-- The loop of `remove_process_locks`. -/
def removeProcessLocksLoop (p : ProcessId) : ℕ → M PUnit
  | 0 => do
    let s ← get
    if (s.processLocks p).isEmpty then pure ⟨⟩ else throw .outOfFuel
  | n + 1 => do
    let s ← get
    match s.processLocks p with
    | [] => pure ⟨⟩
    | l :: _ =>
      removeLock l true
      removeProcessLocksLoop p n

/-- Each round takes the first lock out of the list. -/
def removeProcessLocks (p : ProcessId) : M PUnit := do
  let s ← get
  removeProcessLocksLoop p (s.processLocks p).length

/-- How the loop of `remove_fd_locks` widens its interval by a lock. -/
def widenStart (lock : FileLock) (start : FilePos) : FilePos :=
  if lock.start < start then lock.start else start

def widenEnd (lock : FileLock) (end_ : FilePos) : FilePos :=
  if lock.end_ = 0 ∨ end_ < lock.end_ then lock.end_ - 1 else end_

/-- The loop of `remove_fd_locks`, with the interval it has seen so far. -/
def removeFdLocksLoop (f : FdId) : ℕ → FilePos → FilePos → M (FilePos × FilePos)
  | 0, start, end_ => do
    let x ← getFd f
    if x.locks.isEmpty then pure (start, end_) else throw .outOfFuel
  | n + 1, start, end_ => do
    let x ← getFd f
    let s ← get
    match x.locks with
    | [] => pure (start, end_)
    | l :: _ =>
      removeLock l false
      removeFdLocksLoop f n (widenStart (s.lock l) start) (widenEnd (s.lock l) end_)

def removeFdLocks (f : FdId) : M PUnit := do
  let x ← getFd f
  let r ← removeFdLocksLoop f x.locks.length filePosMax 0
  if r.1 < r.2 then removeUnixLocks f r.1 (r.2 + 1)

end Wine.FileDesc
