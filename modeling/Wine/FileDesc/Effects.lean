import Wine.FileDesc.Files

/-!
# What the functions of the file descriptors can do to the state

Except for the steps of `open_fd` and `add_lock` that build something up, all functions are made of
the effects below. An invariant is checked against each effect once.
-/

namespace Wine.FileDesc
open Wine.Lib
open Wine.Server (Status Access)

variable {α β : Type}

/-! ## Closing Unix descriptors only adds events -/

theorem closeUnixFd_eq (s : State) (i : InodeId) (b : Bool) (u : Option UnixFd) :
    s.closeUnixFd i b u = { s with
      events := u.toList.map (Event.close · (s.lockedInode i) b) ++ s.events } := by
  cases u <;> rfl

theorem lockedInode_congr {s s' : State} (hi : s'.inode = s.inode)
    (hd : s'.deviceHash = s.deviceHash) (i : InodeId) : s'.lockedInode i = s.lockedInode i := by
  simp only [State.lockedInode, hi, hd]

/-- The events of closing the Unix descriptors of a list, newest first. -/
def closeEvents (locked b : Bool) (cs : List ClosedFd) : List Event :=
  (cs.reverse.filterMap (·.unixFd)).map (Event.close · locked b)

theorem closeUnixFds_eq (i : InodeId) (b : Bool) (cs : List ClosedFd) (s : State) :
    closeUnixFds i b cs s =
      { s with events := closeEvents (s.lockedInode i) b cs ++ s.events } := by
  induction cs generalizing s with
  | nil => rfl
  | cons c cs ih =>
    have hl : (s.closeUnixFd i b c.unixFd).lockedInode i = s.lockedInode i := by
      rw [closeUnixFd_eq]
      exact lockedInode_congr rfl rfl i
    change closeUnixFds i b cs (s.closeUnixFd i b c.unixFd) = _
    rw [ih, hl, closeUnixFd_eq]
    cases hu : c.unixFd <;> simp [closeEvents, hu, List.filterMap_append]

/-- The events of what is done to the closed list of an inode that goes away. -/
def destroyEvents (locked : Bool) : List ClosedFd → List Event
  | [] => []
  | c :: cs => destroyEvents locked cs ++ (if c.unlink = "" then [] else [.unlink c.unlink]) ++
      c.unixFd.toList.map (Event.close · locked false)

theorem closeAndUnlink_eq (i : InodeId) (cs : List ClosedFd) (s : State) :
    closeAndUnlink i cs s =
      { s with events := destroyEvents (s.lockedInode i) cs ++ s.events } := by
  induction cs generalizing s with
  | nil => rfl
  | cons c cs ih =>
    have hc : (if c.unlink = "" then s.closeUnixFd i false c.unixFd
        else (s.closeUnixFd i false c.unixFd).record (.unlink c.unlink)) =
        { s with events := (if c.unlink = "" then [] else [.unlink c.unlink]) ++
          (c.unixFd.toList.map (Event.close · (s.lockedInode i) false) ++ s.events) } := by
      rw [closeUnixFd_eq]
      split <;> rfl
    change closeAndUnlink i cs (if c.unlink = "" then _ else _) = _
    rw [hc, ih]
    simp only [destroyEvents, List.append_assoc]
    rfl

theorem closePending_eq (s : State) (i : InodeId) (n : Inode) (b : Bool) :
    s.closePending i n b = State.setInode
      { s with events := closeEvents (s.lockedInode i) (!b) n.closed ++ s.events } i
      (some { n with closed := keptClosed b n.closed }) := by
  rw [State.closePending, closeUnixFds_eq]

/-! ## Effects -/

/-- Events that neither open nor close a Unix descriptor and touch no file or name. -/
def Event.quiet : Event → Bool
  | .setLk .. | .removeUnixLocks .. | .unlink _ | .unmount _ => true
  | .opened .. | .close .. | .truncate _ | .pendUnlink .. => false

structure Quiet (s s' : State) : Prop where
  fd : s'.fd = s.fd
  inode : s'.inode = s.inode
  device : s'.device = s.device
  deviceHash : s'.deviceHash = s.deviceHash
  lock : s'.lock = s.lock
  processLocks : s'.processLocks = s.processLocks
  nextFd : s'.nextFd = s.nextFd
  nextInode : s'.nextInode = s.nextInode
  nextDevice : s'.nextDevice = s.nextDevice
  nextLock : s'.nextLock = s.nextLock
  nextUnix : s'.nextUnix = s.nextUnix
  events : ∃ es, s'.events = es ++ s.events ∧ ∀ e ∈ es, e.quiet = true

inductive Effect (s : State) : State → Prop
  | quiet {s' : State} : Quiet s s' → Effect s s'
  | fsLocks {f : FdId} {x : Fd} (b : Bool) :
      s.fd f = some x → Effect s (s.setFd f (some { x with fsLocks := b }))
  | freeLock {l : LockId} {x : Fd} {i : InodeId} {n : Inode} (p : ProcessId) :
      s.fd (s.lock l).fd = some x → x.inode = some i → s.inode i = some n →
      Effect s ((s.unlinkLock l (s.lock l).fd x i n p).setLock l { s.lock l with process := none })
  | closePending {i : InodeId} {n : Inode} :
      s.inode i = some n → n.locks = [] → Effect s (s.closePending i n true)
  | deviceRefcount {d : DeviceId} {x : Device} (r : ℕ) :
      s.device d = some x → Effect s (s.setDevice d (some { x with refcount := r }))
  | destroyDevice {d : DeviceId} {x : Device} :
      s.device d = some x → x.inodes = [] →
      Effect s { s.setDevice d none with deviceHash := s.deviceHash.filter (· ≠ d) }
  | createDevice (dev : ℕ) :
      Effect s { s.setDevice s.nextDevice (some ⟨1, dev, []⟩) with
        deviceHash := s.nextDevice :: s.deviceHash
        nextDevice := s.nextDevice + 1 }
  | unhashDevice (d : DeviceId) : .unmount d ∈ s.events →
      Effect s { s with deviceHash := s.deviceHash.filter (· ≠ d) }
  | inodeRefcount {i : InodeId} {n : Inode} (r : ℕ) :
      s.inode i = some n → Effect s (s.setInode i (some { n with refcount := r }))
  | createInode {d : DeviceId} {x : Device} (ino : ℕ) : s.device d = some x →
      Effect s { (s.setInode s.nextInode (some ⟨1, d, ino, [], [], []⟩)).setDevice d
          (some { x with inodes := s.nextInode :: x.inodes }) with
        nextInode := s.nextInode + 1 }
  | destroyInode {i : InodeId} {n : Inode} {d : Device} :
      s.inode i = some n → n.openFds = [] → n.locks = [] → s.device n.device = some d →
      Effect s (s.dropInode i n d)
  | leave {f : FdId} {x : Fd} {i : InodeId} {n : Inode} :
      s.fd f = some x → x.inode = some i → s.inode i = some n →
      Effect s (addClosed (s.dropFd f i n) i { n with openFds := n.openFds.erase f } x.closed)
  | closeFd {f : FdId} {x : Fd} :
      s.fd f = some x → x.inode = none → Effect s (s.closeFd f x)
  | unmountFd {f : FdId} {x : Fd} {i : InodeId} {n : Inode} {d : DeviceId} {y : Device} :
      s.fd f = some x → s.inode i = some n → f ∈ n.openFds → s.device d = some y → i ∈ y.inodes →
      .unmount d ∈ s.events → Effect s (s.unmountFd i f x)
  | unmountPending {i : InodeId} {n : Inode} {d : DeviceId} {y : Device} :
      s.inode i = some n → s.device d = some y → i ∈ y.inodes → .unmount d ∈ s.events →
      Effect s (s.closePending i n false)

abbrev Effects : State → State → Prop := Relation.ReflTransGen Effect

/-- What each effect keeps, a whole sequence keeps. -/
theorem Effects.invariant {I : State → Prop} {s s' : State} (h : Effects s s') (hs : I s)
    (hstep : ∀ t t', Effect t t' → I t → I t') : I s' := by
  induction h with
  | refl => exact hs
  | tail _ he ih => exact hstep _ _ he ih

/-! ## Composition -/

def anyFault (_ : Fault) : Prop := True

/-- All that `m` does to any state is a sequence of effects. -/
def Does (m : M α) : Prop := ∀ s, wp m (fun _ s' => Effects s s') anyFault s

theorem Does.pure (a : α) : Does (pure a : M α) := fun _ => .refl

theorem Does.bind {m : M α} {f : α → M β} (hm : Does m) (hf : ∀ a, Does (f a)) :
    Does (m >>= f) := by
  intro s
  rw [wp_bind]
  exact wp_mono (hm s) fun a s' h => wp_mono (hf a s') fun _ _ h' => h.trans h'

theorem Does.ite {c : Prop} [Decidable c] {m m' : M α} (hm : Does m) (hm' : Does m') :
    Does (if c then m else m') := by
  split
  · exact hm
  · exact hm'

theorem Does.throw (e : Fault) : Does (throw e : M α) := fun _ => trivial

theorem Does.of_get {f : State → M α}
    (h : ∀ s, wp (f s) (fun _ s' => Effects s s') anyFault s) : Does (get >>= f) := by
  intro s
  simpa only [wp_bind, wp_get] using h s

@[simp] theorem wp_getFd (f : FdId) (Q : Fd → State → Prop) (s : State) :
    wp (getFd f) Q anyFault s ↔ ∀ x, s.fd f = some x → Q x s := by
  simp only [getFd, wp_bind, wp_get]
  cases s.fd f with
  | none => simp only [wp_throw, anyFault, reduceCtorEq, false_implies, implies_true]
  | some x => simp only [wp_pure, Option.some.injEq, forall_eq']

@[simp] theorem wp_getInode (i : InodeId) (Q : Inode → State → Prop) (s : State) :
    wp (getInode i) Q anyFault s ↔ ∀ n, s.inode i = some n → Q n s := by
  simp only [getInode, wp_bind, wp_get]
  cases s.inode i with
  | none => simp only [wp_throw, anyFault, reduceCtorEq, false_implies, implies_true]
  | some n => simp only [wp_pure, Option.some.injEq, forall_eq']

@[simp] theorem wp_fdInode (f : FdId) (Q : InodeId → State → Prop) (s : State) :
    wp (fdInode f) Q anyFault s ↔
      ∀ x i, s.fd f = some x → x.inode = some i → Q i s := by
  simp only [fdInode, wp_bind, wp_getFd]
  refine forall_congr' fun x => ?_
  cases x.inode with
  | none =>
    simp only [wp_throw, anyFault, reduceCtorEq, false_implies, implies_true]
  | some i =>
    simp only [wp_pure, Option.some.injEq]
    exact ⟨fun h j hx hj => hj ▸ h hx, fun h hx => h i hx rfl⟩

@[simp] theorem wp_assert (site : Site) (c : Bool) (Q : PUnit → State → Prop) (s : State) :
    wp (assert site c) Q anyFault s ↔ (c = true → Q ⟨⟩ s) := by
  unfold assert
  rw [wp_ite]
  exact ⟨fun h => h.1, fun h => ⟨h, fun _ => trivial⟩⟩

theorem does_getFd (f : FdId) : Does (getFd f) := fun s => (wp_getFd f _ s).mpr fun _ _ => .refl

theorem does_setError (e : Status) : Does (setError e) := fun s => by
  simp only [setError, wp_modify]
  exact .single (.quiet ⟨rfl, rfl, rfl, rfl, rfl, rfl, rfl, rfl, rfl, rfl, rfl, [], rfl, by simp⟩)

theorem quiet_record (s : State) {e : Event} (he : e.quiet = true) : Quiet s (s.record e) :=
  ⟨rfl, rfl, rfl, rfl, rfl, rfl, rfl, rfl, rfl, rfl, rfl, [e], rfl, by simpa using he⟩

theorem does_removeUnixLocks (f : FdId) (start end_ : FilePos) :
    Does (removeUnixLocks f start end_) := fun s => by
  simp only [removeUnixLocks, wp_modify]
  exact .single (.quiet (quiet_record s rfl))

/-! ## Locks -/

/-- The lock may as well have been freed before. -/
theorem wp_dropLock {s : State} {l : LockId} {i : InodeId} {n : Inode} (hn : s.inode i = some n)
    (removeUnix : Bool) (Q : PUnit → State → Prop) (E : Fault → Prop) :
    wp (dropLock l i removeUnix) Q E s ↔ Q ⟨⟩
      (let t := (if removeUnix then s.record (.removeUnixLocks (s.lock l).fd (s.lock l).start
        (s.lock l).end_) else s).setLock l { s.lock l with process := none }
      if n.locks.isEmpty then t.closePending i n true else t) := by
  have hlocked : ∀ t : State, t.inode = s.inode → t.deviceHash = s.deviceHash →
      t.lockedInode i = s.lockedInode i := fun t h h' => lockedInode_congr h h' i
  cases removeUnix <;> cases hl : n.locks <;>
    simp [dropLock, removeUnixLocks, inodeClosePending, getInode, wp_ite, hn, hl, State.record,
      closePending_eq, State.setLock, State.setInode, hlocked]

theorem does_removeLock (l : LockId) (removeUnix : Bool) : Does (removeLock l removeUnix) := by
  refine .of_get fun s => ?_
  simp only [wp_bind, wp_getFd, wp_fdInode, wp_getInode]
  intro x hx x' i hx' hi n hn
  cases hx.symm.trans hx'
  cases (s.lock l).process with
  | none => trivial
  | some p =>
    simp only [wp_bind, wp_set]
    rw [wp_dropLock (n := { n with locks := n.locks.erase l }) (Function.update_self ..)]
    have hfree : ∀ e : List Event, (∀ e' ∈ e, e'.quiet = true) → Effects s
        (State.setLock (State.unlinkLock { s with events := e ++ s.events } l (s.lock l).fd x i n p)
          l { s.lock l with process := none }) := by
      intro e he
      have hq : Effect s { s with events := e ++ s.events } :=
        .quiet ⟨rfl, rfl, rfl, rfl, rfl, rfl, rfl, rfl, rfl, rfl, rfl, e, rfl, he⟩
      exact .tail (.single hq) (.freeLock (s := { s with events := e ++ s.events }) p hx hi hn)
    obtain ⟨e, he, heq⟩ : ∃ e : List Event, (∀ e' ∈ e, e'.quiet = true) ∧
        (if removeUnix then (s.unlinkLock l (s.lock l).fd x i n p).record (.removeUnixLocks
          (s.lock l).fd (s.lock l).start (s.lock l).end_) else
          s.unlinkLock l (s.lock l).fd x i n p) =
        State.unlinkLock { s with events := e ++ s.events } l (s.lock l).fd x i n p := by
      cases removeUnix
      · exact ⟨[], by simp, rfl⟩
      · exact ⟨[_], by simp [Event.quiet], rfl⟩
    have hlock : (s.unlinkLock l (s.lock l).fd x i n p).lock = s.lock := rfl
    simp only [hlock, heq]
    split
    · next h =>
      exact (hfree e he).tail (.closePending (n := { n with locks := n.locks.erase l })
        (Function.update_self ..) (List.isEmpty_iff.mp h))
    · exact hfree e he

theorem does_unlockFd (f : FdId) (start count : FilePos) : Does (unlockFd f start count) := by
  refine (does_getFd f).bind fun x => .of_get fun s => ?_
  split
  · exact does_removeLock _ _ s
  · exact does_setError _ s

theorem does_removeProcessLocksLoop (p : ProcessId) (n : ℕ) :
    Does (removeProcessLocksLoop p n) := by
  induction n with
  | zero => exact .of_get fun s => (Does.ite (.pure _) (.throw _)) s
  | succ n ih =>
    refine .of_get fun s => ?_
    split
    · exact .refl
    · exact (does_removeLock _ _).bind (fun _ => ih) s

theorem does_removeProcessLocks (p : ProcessId) : Does (removeProcessLocks p) :=
  .of_get fun s => does_removeProcessLocksLoop p _ s

theorem does_removeFdLocksLoop (f : FdId) (n : ℕ) (start end_ : FilePos) :
    Does (removeFdLocksLoop f n start end_) := by
  induction n generalizing start end_ with
  | zero => exact (does_getFd f).bind fun x => .ite (.pure _) (.throw _)
  | succ n ih =>
    refine (does_getFd f).bind fun x => .of_get fun s => ?_
    split
    · exact .refl
    · exact (does_removeLock _ _).bind (fun _ => ih _ _) s

theorem does_removeFdLocks (f : FdId) : Does (removeFdLocks f) :=
  (does_getFd f).bind fun _ => (does_removeFdLocksLoop f _ _ _).bind fun _ =>
    .ite (does_removeUnixLocks _ _ _) (.pure _)

section
variable (fcntl : ℕ → FcntlResult)

theorem does_trySetUnixLock (f : FdId) (start end_ : FilePos) (type : LockType) :
    Does (trySetUnixLock fcntl f start end_ type) := by
  intro s
  simp only [trySetUnixLock, wp_bind, wp_getFd, wp_get, wp_ite, wp_pure, wp_set]
  refine fun x hx => ⟨fun _ => .refl, fun _ => ⟨fun _ => .refl, fun _ => ?_⟩⟩
  have htry : Effects s { s.record (.setLk x.unixFd start end_ type) with
      fcntls := s.fcntls + 1 } :=
    .single (.quiet ⟨rfl, rfl, rfl, rfl, rfl, rfl, rfl, rfl, rfl, rfl, rfl, [_], rfl,
      by simp [Event.quiet]⟩)
  have hfail : ∀ e, wp (do setError e; pure (some false) : M (Option Bool))
      (fun _ s' => Effects s s') anyFault
      { s.record (.setLk x.unixFd start end_ type) with fcntls := s.fcntls + 1 } := by
    intro e
    simp only [wp_bind, wp_pure]
    exact wp_mono (does_setError e _) fun _ _ h => htry.trans h
  split
  · exact htry
  · exact hfail _
  · exact htry.trans (.single (.fsLocks false hx))
  · exact htry.trans (.single (.fsLocks false hx))
  · exact hfail _
  · rw [wp_ite]
    exact ⟨fun _ => htry, fun _ => hfail _⟩
  · rw [wp_ite]
    refine ⟨fun _ => htry.trans (.single (.quiet ?_)), fun _ => hfail _⟩
    exact ⟨rfl, rfl, rfl, rfl, rfl, rfl, rfl, rfl, rfl, rfl, rfl, [], rfl, by simp⟩
  · exact hfail _

theorem does_setUnixLock (f : FdId) (start end_ : FilePos) (type : LockType) :
    Does (setUnixLock fcntl f start end_ type) := by
  refine (does_getFd f).bind fun x => .ite (.pure _) ?_
  refine (does_trySetUnixLock fcntl f start end_ type).bind fun r => ?_
  cases r with
  | some r => exact .pure r
  | none => exact (does_trySetUnixLock fcntl f start end_ type).bind fun r => .pure _

end

/-! ## Descriptors and inodes -/

theorem does_releaseDevice (d : DeviceId) : Does (releaseDevice d) := by
  refine .of_get fun s => ?_
  cases hd : s.device d with
  | none => trivial
  | some x =>
    simp only [wp_ite, wp_bind, wp_assert, wp_set, List.isEmpty_iff]
    exact ⟨fun _ he => .single (.destroyDevice hd he), fun _ => .single (.deviceRefcount _ hd)⟩

theorem does_inodeDestroy (i : InodeId) : Does (inodeDestroy i) := by
  intro s
  simp only [inodeDestroy, wp_bind, wp_getInode, wp_assert, wp_get, List.isEmpty_iff]
  intro n hn ho hl
  cases hd : s.device n.device with
  | none => trivial
  | some d =>
    simp only [wp_bind, wp_set]
    exact wp_mono (does_releaseDevice n.device _) fun _ _ h =>
      .trans (.single (.destroyInode hn ho hl hd)) h

theorem does_releaseInode (i : InodeId) : Does (releaseInode i) := by
  intro s
  simp only [releaseInode, wp_bind, wp_getInode, wp_ite, wp_modify]
  exact fun n hn => ⟨fun _ => does_inodeDestroy i s, fun _ => .single (.inodeRefcount _ hn)⟩

theorem does_leaveInode {f : FdId} {x : Fd} {i : InodeId} {s : State} (hx : s.fd f = some x)
    (hi : x.inode = some i) :
    wp (leaveInode f x i) (fun _ s' => Effects s s') anyFault s := by
  simp only [leaveInode, inodeAddClosedFd, wp_bind, wp_getInode, wp_modify]
  intro n hn n' hn'
  have hn'' : n' = { n with openFds := n.openFds.erase f } := by
    simpa [State.dropFd, State.setInode, State.setFd] using hn'.symm
  subst hn''
  exact wp_mono (does_releaseInode i _) fun _ _ h => .trans (.single (.leave hx hi hn)) h

theorem does_fdDestroy (f : FdId) : Does (fdDestroy f) := by
  refine (does_removeFdLocks f).bind fun _ => fun s => ?_
  simp only [wp_bind, wp_getFd]
  intro x hx
  cases hi : x.inode with
  | some i => exact does_leaveInode hx hi
  | none =>
    simp only [wp_modify]
    exact .single (.closeFd hx hi)

theorem does_failOpen (f : FdId) (e : Status) : Does (failOpen f e) :=
  (does_fdDestroy f).bind fun _ => (does_setError e).bind fun _ => .pure _

theorem does_getDevice (dev : ℕ) (create mem : Bool) : Does (getDevice dev create mem) := by
  refine .of_get fun s => ?_
  cases findDevice s dev with
  | some d =>
    cases hd : s.device d with
    | none => simp only [hd, wp_throw, anyFault]
    | some x =>
      simp only [hd, wp_bind, wp_set, wp_pure]
      exact .single (.deviceRefcount _ hd)
  | none =>
    simp only [wp_ite, wp_bind, wp_pure, wp_set]
    exact ⟨fun _ => .refl, fun _ => ⟨fun _ => does_setError _ s, fun _ =>
      .single (.createDevice dev)⟩⟩

theorem does_getInodeFor (dev ino : ℕ) (memDevice memInode : Bool) :
    Does (getInodeFor dev ino memDevice memInode) := by
  refine (does_getDevice dev true memDevice).bind fun r => ?_
  cases r with
  | none => exact .pure _
  | some d =>
    refine .of_get fun s => ?_
    cases hd : s.device d with
    | none => trivial
    | some x =>
      simp only
      split
      · refine Does.bind (does_releaseDevice d) (fun _ => fun s' => ?_) s
        simp only [wp_bind, wp_getInode, wp_modify, wp_pure]
        exact fun n hn => .single (.inodeRefcount _ hn)
      · simp only [wp_ite, wp_bind, wp_set, wp_pure]
        refine ⟨fun _ => .single (.createInode ino hd), fun _ => ?_⟩
        exact wp_mono (does_setError _ s) fun _ s' h =>
          wp_mono (does_releaseDevice d s') fun _ _ h' => h.trans h'

end Wine.FileDesc
