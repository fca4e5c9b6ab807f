import Wine.Lib.Runs
import Wine.FileDesc.State

/-!
# Opening and closing files

`open_fd` with its check of the sharing modes, the destruction of descriptors, inodes and devices,
and the unmounting of a device. The outcomes of system calls and allocations are inputs.
-/

namespace Wine.FileDesc
open Wine.Lib
open Wine.Server (Status Access statusInvalidHandle statusInvalidParameter statusNoMemory
  statusAccessDenied statusPending intMax)

/-! ## Destruction -/

def releaseDevice (d : DeviceId) : M PUnit := do
  let s ← get
  match s.device d with
  | none => throw .badPointer
  | some x =>
    if x.refcount = 1 then
      assert .deviceInodes x.inodes.isEmpty
      set { s.setDevice d none with deviceHash := s.deviceHash.filter (· ≠ d) }
    else set (s.setDevice d (some { x with refcount := x.refcount - 1 }))

/-- The Unix descriptors of the closed list are closed, and the names in it unlinked. -/
def closeAndUnlink (i : InodeId) (cs : List ClosedFd) (s : State) : State :=
  cs.foldl (fun s c =>
    let s := s.closeUnixFd i false c.unixFd
    if c.unlink = "" then s else s.record (.unlink c.unlink)) s

def State.dropInode (s : State) (i : InodeId) (n : Inode) (d : Device) : State :=
  ((closeAndUnlink i n.closed s).setDevice n.device
    (some { d with inodes := d.inodes.filter (· ≠ i) })).setInode i none

def inodeDestroy (i : InodeId) : M PUnit := do
  let n ← getInode i
  assert .inodeOpen n.openFds.isEmpty
  assert .inodeLocks n.locks.isEmpty
  let s ← get
  match s.device n.device with
  | none => throw .badPointer
  | some d =>
    set (s.dropInode i n d)
    releaseDevice n.device

def releaseInode (i : InodeId) : M PUnit := do
  let n ← getInode i
  if n.refcount = 1 then inodeDestroy i
  else modify (·.setInode i (some { n with refcount := n.refcount - 1 }))

def addClosed (s : State) (i : InodeId) (n : Inode) (c : ClosedFd) : State :=
  if !n.locks.isEmpty then s.setInode i (some { n with closed := c :: n.closed })
  else if c.unlink ≠ "" then
    (s.closeUnixFd i false c.unixFd).setInode i
      (some { n with closed := { c with unixFd := none } :: n.closed })
  else s.closeUnixFd i false c.unixFd

def inodeAddClosedFd (i : InodeId) (c : ClosedFd) : M PUnit := do
  let n ← getInode i
  modify fun s => addClosed s i n c

/-- The fd is no longer on the list of its inode, and gone. -/
def State.dropFd (s : State) (f : FdId) (i : InodeId) (n : Inode) : State :=
  (s.setInode i (some { n with openFds := n.openFds.erase f })).setFd f none

/-- `fd_destroy` after its locks are gone, for an fd with an inode. The queues of asynchronous
requests and the poll array are left out. -/
def leaveInode (f : FdId) (x : Fd) (i : InodeId) : M PUnit := do
  let n ← getInode i
  modify (·.dropFd f i n)
  inodeAddClosedFd i x.closed
  releaseInode i

/-- The same for an fd without an inode. -/
def State.closeFd (s : State) (f : FdId) (x : Fd) : State :=
  match x.unixFd with
  | some u => (s.setFd f none).record (.close u false false)
  | none => s.setFd f none

def fdDestroy (f : FdId) : M PUnit := do
  removeFdLocks f
  let x ← getFd f
  match x.inode with
  | some i => leaveInode f x i
  | none => modify (·.closeFd f x)

/-! ## Opening -/

/-- The `mem` fields are the outcomes of the allocations of a device and of an inode. -/
structure Stat where
  dev : ℕ
  ino : ℕ
  regular : Bool
  directory : Bool
  deriving DecidableEq, Repr

def findDevice (s : State) (dev : ℕ) : Option DeviceId :=
  s.deviceHash.find? fun d => (s.device d).any (·.dev = dev)

/-- `get_device`, which returns a reference. -/
def getDevice (dev : ℕ) (create mem : Bool) : M (Option DeviceId) := do
  let s ← get
  match findDevice s dev with
  | some d =>
    match s.device d with
    | some x =>
      set (s.setDevice d (some { x with refcount := x.refcount + 1 }))
      pure (some d)
    | none => throw .badPointer
  | none =>
    if !create then pure none
    else if !mem then
      setError statusNoMemory
      pure none
    else
      set { s.setDevice s.nextDevice (some ⟨1, dev, []⟩) with
        deviceHash := s.nextDevice :: s.deviceHash
        nextDevice := s.nextDevice + 1 }
      pure (some s.nextDevice)

/-- `get_inode`; the flags are the outcomes of its allocations. -/
def getInodeFor (dev ino : ℕ) (memDevice memInode : Bool) : M (Option InodeId) := do
  match ← getDevice dev true memDevice with
  | none => pure none
  | some d =>
    let s ← get
    match s.device d with
    | none => throw .badPointer
    | some x =>
      match x.inodes.find? fun i => (s.inode i).any (·.ino = ino) with
      | some i =>
        releaseDevice d
        let n ← getInode i
        modify (·.setInode i (some { n with refcount := n.refcount + 1 }))
        pure (some i)
      | none =>
        if memInode then
          set { (s.setInode s.nextInode (some ⟨1, d, ino, [], [], []⟩)).setDevice d
              (some { x with inodes := s.nextInode :: x.inodes }) with
            nextInode := s.nextInode + 1 }
          pure (some s.nextInode)
        else
          setError statusNoMemory
          releaseDevice d
          pure none

/-- What `check_sharing` gathers from the other descriptors of the inode. -/
def existingSharing (s : State) (f : FdId) : List FdId → Access
  | [] => fileShareRead ||| fileShareWrite ||| fileShareDelete
  | g :: l =>
    if g = f then existingSharing s f l
    else existingSharing s f l &&& ((s.fd g).map (·.sharing)).getD 0

def existingAccess (s : State) (f : FdId) : List FdId → Access
  | [] => 0
  | g :: l =>
    if g = f then existingAccess s f l
    else existingAccess s f l ||| ((s.fd g).map (·.access)).getD 0

/-- One of the six tests of `check_sharing`: nobody shares what `access` asks for. -/
def refusedBy (access mask sharing share : Access) : Bool :=
  decide (access &&& mask ≠ 0) && decide (sharing &&& share = 0)

def sharingAllowed (access sharing existingAccess existingSharing : Access) : Bool :=
  !refusedBy access fileUnixReadAccess existingSharing fileShareRead &&
  !refusedBy access fileUnixWriteAccess existingSharing fileShareWrite &&
  !refusedBy access delete existingSharing fileShareDelete &&
  !refusedBy existingAccess fileUnixReadAccess sharing fileShareRead &&
  !refusedBy existingAccess fileUnixWriteAccess sharing fileShareWrite &&
  !refusedBy existingAccess delete sharing fileShareDelete

/-- `check_sharing` for an fd of the inode `i`. -/
def checkSharing (f : FdId) (i : InodeId) (access sharing : Access) : M Bool := do
  let sharing := if access = 0 then fileShareRead ||| fileShareWrite ||| fileShareDelete else sharing
  let x ← getFd f
  modify (·.setFd f (some { x with access := access, sharing := sharing }))
  let n ← getInode i
  let s ← get
  pure (sharingAllowed access sharing (existingAccess s f n.openFds) (existingSharing s f n.openFds))

structure OpenRequest where
  name : String
  create : Bool
  excl : Bool
  trunc : Bool
  access : Access
  sharing : Access
  deleteOnClose : Bool
  directoryFile : Bool
  nonDirectoryFile : Bool
  deriving DecidableEq, Repr

inductive MkdirResult
  | ok | exists_ | error
  deriving DecidableEq, Repr

/-- What the system answers; `unixOpen` is the result of `open` (with the second attempt, for a
directory) and of `fstat`, and `unixError` what `file_set_error` makes of `errno`. -/
structure OpenOutcome where
  memFd : Bool
  memClosed : Bool
  mkdir : MkdirResult
  unixOpen : Option Stat
  unixError : Status
  memDevice : Bool
  memInode : Bool
  deriving DecidableEq, Repr

def allocFdObject : M FdId := do
  let s ← get
  set { s.setFd s.nextFd (some ⟨none, ⟨none, ""⟩, [], 0, 0, none, true, false⟩) with
    nextFd := s.nextFd + 1 }
  pure s.nextFd

/-- `release_object( fd )` with an error code, of an fd that nobody else refers to. -/
def failOpen (f : FdId) (e : Status) : M (Option FdId) := do
  fdDestroy f
  setError e
  pure none

def setUnixFd (f : FdId) : M UnixFd := do
  let x ← getFd f
  let s ← get
  set { s.setFd f (some { x with unixFd := some s.nextUnix }) with nextUnix := s.nextUnix + 1 }
  pure s.nextUnix

/-- Puts the fd on the list of the inode it refers to from now on. -/
def joinInode (f : FdId) (i : InodeId) (u : UnixFd) : M PUnit := do
  let x ← getFd f
  let n ← getInode i
  modify fun s => ((s.record (.opened u (some i))).setFd f
    (some { x with inode := some i, closed := ⟨some u, ""⟩ })).setInode i
      (some { n with openFds := f :: n.openFds })

/-- The end of `open_fd` for a regular file or a directory; `trunc` is what is left of the flag. -/
def openInode (f : FdId) (i : InodeId) (u : UnixFd) (req : OpenRequest) (st : Stat) (trunc : Bool) :
    M (Option FdId) := do
  joinInode f i u
  if req.directoryFile ∧ !st.directory then failOpen f statusNotADirectory
  else if req.nonDirectoryFile ∧ st.directory then failOpen f statusFileIsADirectory
  else if !(← checkSharing f i req.access req.sharing) then failOpen f statusSharingViolation
  else
    let x ← getFd f
    if req.deleteOnClose then
      modify fun s => (s.record (.pendUnlink i req.name)).setFd f
        (some { x with closed := { x.closed with unlink := req.name } })
    if trunc then modify (·.record (.truncate u))
    pure (some f)

def openSpecial (f : FdId) (u : UnixFd) (req : OpenRequest) : M (Option FdId) := do
  modify (·.record (.opened u none))
  if req.directoryFile then failOpen f statusNotADirectory
  else if req.deleteOnClose ∧ req.name ≠ "" then failOpen f statusInvalidParameter
  else pure (some f)

def openFd (req : OpenRequest) (out : OpenOutcome) : M (Option FdId) := do
  if req.deleteOnClose ∧ req.access &&& delete = 0 then
    setError statusInvalidParameter
    pure none
  else if !out.memFd then
    setError statusNoMemory
    pure none
  else
    let f ← allocFdObject
    let makesDirectory := req.directoryFile && req.create
    if !out.memClosed then failOpen f statusNoMemory
    else if makesDirectory ∧
        (out.mkdir = .error ∨ (out.mkdir = .exists_ ∧ req.excl)) then failOpen f out.unixError
    else
      match out.unixOpen with
      | none => failOpen f out.unixError
      | some st =>
        let u ← setUnixFd f
        if st.regular ∨ st.directory then
          match ← getInodeFor st.dev st.ino out.memDevice out.memInode with
          | none =>
            modify (·.record (.opened u none))
            failOpen f statusNoMemory
          | some i => openInode f i u req st (req.trunc && !makesDirectory)
        else openSpecial f u req

/-! ## Unmounting -/

def State.unmountFd (s : State) (i : InodeId) (f : FdId) (x : Fd) : State :=
  (s.closeUnixFd i true x.unixFd).setFd f (some { x with
    unixFd := none
    unmounted := true
    closed := ⟨none, ""⟩
    fsLocks := false })

def unmountFd (i : InodeId) (f : FdId) : M PUnit := do
  let x ← getFd f
  assert .unmountFd x.inode.isSome
  modify (·.unmountFd i f x)

def unmountInode (i : InodeId) : M PUnit := do
  let n ← getInode i
  forM n.openFds (unmountFd i)
  inodeClosePending i false

/-- `unmount_device` of a mounted block device. -/
def unmountDevice (dev : ℕ) : M PUnit := do
  match ← getDevice dev false true with
  | none => pure ⟨⟩
  | some d =>
    let s ← get
    match s.device d with
    | none => throw .badPointer
    | some x =>
      modify (·.record (.unmount d))
      forM x.inodes unmountInode
      modify fun s => { s with deviceHash := s.deviceHash.filter (· ≠ d) }
      releaseDevice d

/-! ## Runs -/

inductive Action
  | openFd (req : OpenRequest) (out : OpenOutcome)
  | lockFd (p : ProcessId) (f : FdId) (start count : FilePos) (shared wait mem : Bool)
  | unlockFd (f : FdId) (start count : FilePos)
  | destroyFd (f : FdId)
  | exitProcess (p : ProcessId)
  | unmountDevice (dev : ℕ)
  deriving DecidableEq, Repr

section
variable (fcntl : ℕ → FcntlResult)

/-- Requests start without an error. A request for an fd that does not exist is none. -/
def act (a : Action) : M PUnit := do
  modify ({ · with error := 0 })
  match a with
  | .openFd req out => do
    let _ ← openFd req out
  | .lockFd p f start count shared wait mem => do
    let s ← get
    if (s.fd f).isSome then
      let _ ← lockFd fcntl p f start count shared wait mem
  | .unlockFd f start count => do
    let s ← get
    if (s.fd f).isSome then unlockFd f start count
  | .destroyFd f => do
    let s ← get
    if (s.fd f).isSome then fdDestroy f
  | .exitProcess p => removeProcessLocks p
  | .unmountDevice dev => unmountDevice dev

def step (s : State) (a : Action) : Except Fault State :=
  match act fcntl a s with
  | .ok (_, s') => .ok s'
  | .error e => .error e

variable {fcntl}

theorem wp_of_step {a : Action} {Q : PUnit → State → Prop} {E : Fault → Prop} {s s' : State}
    (h : wp (act fcntl a) Q E s) (hst : step fcntl s a = .ok s') : Q ⟨⟩ s' := by
  unfold step at hst
  cases hm : act fcntl a s with
  | error e => simp only [hm, reduceCtorEq] at hst
  | ok r =>
    simp only [hm, Except.ok.injEq] at hst
    subst hst
    exact wp_of_ok h hm

end

end Wine.FileDesc
