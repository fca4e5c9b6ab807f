import Wine.FileDesc.Stale

/-!
# Lock requests on file objects

The `lock_file` request on every descriptor that a file object can have: one of a regular file or
a directory, which has an inode, and one of a special file or of `alloc_file_handle`, which has
none.
-/

namespace Wine.FileDesc
open Wine.Lib
open Wine.Server (Status statusInvalidHandle statusInvalidParameter statusNoMemory
  statusAccessDenied statusPending intMax)

/-- `create_anonymous_fd` for a descriptor that a client has sent; `mem` is the outcome of
`alloc_fd_object`. -/
def createAnonymousFd (mem : Bool) : M (Option FdId) := do
  if !mem then
    setError statusNoMemory
    pure none
  else
    let f ← allocFdObject
    let u ← setUnixFd f
    modify (·.record (.opened u none))
    pure (some f)

/-- `lock_file`, for the descriptor of the file object that the handle names. -/
def lockFile (fcntl : ℕ → FcntlResult) (p : ProcessId) (f : Option FdId)
    (offsetHigh offsetLow countHigh countLow : BitVec 32) (shared wait mem : Bool) :
    M (Option LockId) :=
  match f with
  | none => do
    setError statusInvalidHandle
    pure none
  | some f => lockFd fcntl p f (offsetHigh ++ offsetLow) (countHigh ++ countLow) shared wait mem

/-- The requests that open, lock and close, and `alloc_file_handle`. -/
inductive FileAction
  | fd (a : Action)
  | allocFileHandle (mem : Bool)
  deriving DecidableEq, Repr

section
variable (fcntl : ℕ → FcntlResult)

def fileAct : FileAction → M PUnit
  | .fd a => act fcntl a
  | .allocFileHandle mem => do
    modify ({ · with error := 0 })
    let _ ← createAnonymousFd mem

def fileStep (s : State) (a : FileAction) : Except Fault State :=
  match fileAct fcntl a s with
  | .ok (_, s') => .ok s'
  | .error e => .error e

variable {fcntl}

theorem wp_of_fileStep {a : FileAction} {Q : PUnit → State → Prop} {E : Fault → Prop}
    {s s' : State} (h : wp (fileAct fcntl a) Q E s) (hst : fileStep fcntl s a = .ok s') :
    Q ⟨⟩ s' := by
  unfold fileStep at hst
  cases hm : fileAct fcntl a s with
  | error e => simp only [hm, reduceCtorEq] at hst
  | ok r =>
    simp only [hm, Except.ok.injEq] at hst
    subst hst
    exact wp_of_ok h hm

end

/-! ## What runs keep -/

theorem wp_createAnonymousFd_changes (mem : Bool) (s : State) :
    wp (createAnonymousFd mem) (fun _ t => Changes s t) anyFault s := by
  cases mem with
  | false => exact wp_setError_pure _ _ fun _ h => h.changes
  | true =>
    simp only [createAnonymousFd, allocFdObject, setUnixFd, Bool.not_true, Bool.false_eq_true,
      if_false, wp_bind, wp_get, wp_set, wp_pure, wp_getFd, wp_modify]
    intro x hx
    have hget : s.allocFd.fd s.nextFd = some newFd := by simp [State.allocFd, State.setFd]
    cases hget.symm.trans hx
    have h1 : Changes s s.allocFd := Change.allocFd.single
    have h2 : Change s.allocFd (s.allocFd.giveUnixFd s.nextFd newFd) :=
      .giveUnixFd (Function.update_self ..) rfl rfl
    exact (h1.tail h2).tail (.openedSpecial s.nextUnix)

theorem wp_fileAct_changes (fcntl : ℕ → FcntlResult) (a : FileAction) (s : State) :
    wp (fileAct fcntl a) (fun _ t => Changes s t) anyFault s := by
  cases a with
  | fd a => exact wp_act_changes fcntl a s
  | allocFileHandle mem =>
    simp only [fileAct, wp_bind, wp_modify, wp_pure]
    have hreset : Changes s { s with error := 0 } := .single (.effect (.quiet
      ⟨rfl, rfl, rfl, rfl, rfl, rfl, rfl, rfl, rfl, rfl, rfl, [], rfl, by simp⟩))
    exact wp_changes_trans hreset (wp_createAnonymousFd_changes mem _)

variable {fcntl : ℕ → FcntlResult} {ok : State → FileAction → Prop} {s t : State}

theorem linked_fileRun {as : List FileAction} (hr : Run (fileStep fcntl) ok .initial as s) :
    Linked s :=
  hr.invariant linked_initial fun t a _ ht _ hst =>
    (wp_of_fileStep (wp_fileAct_changes fcntl a t) hst).invariant ht fun _ _ h => h.linked

/-! ## The Unix lock -/

/-- After the attempts to lock: the fd is still of its inode, and nothing else has changed but
what locking may change. -/
structure Tried (s t : State) (f : FdId) (x : Fd) : Prop where
  fd : ∃ y, t.fd f = some y ∧ y.inode = x.inode
  inode : t.inode = s.inode
  nextLock : t.nextLock = s.nextLock

theorem Tried.refl {f : FdId} {x : Fd} (hx : s.fd f = some x) : Tried s s f x :=
  ⟨⟨x, hx, rfl⟩, rfl, rfl⟩

theorem wp_trySetUnixLock (hf : ∀ n e, fcntl n = .other e → e ≠ 0) {f : FdId} {x : Fd}
    (hx : s.fd f = some x) (start end_ : FilePos) (type : LockType) :
    wp (trySetUnixLock fcntl f start end_ type) (fun r t =>
      Tried s t f x ∧ (r = some false → t.error ≠ 0) ∧
        (r = none → BitVec.ofNat 64 intMax < s.maxUnixOffset ∧
          t.maxUnixOffset = BitVec.ofNat 64 intMax)) noFault s := by
  have hfail (s' : State) (hs : Tried s s' f x) {e : Status} (he : e ≠ 0) :
      wp (do setError e; pure (some false) : M (Option Bool)) (fun r t =>
        Tried s t f x ∧ (r = some false → t.error ≠ 0) ∧
          (r = none → BitVec.ofNat 64 intMax < s.maxUnixOffset ∧
            t.maxUnixOffset = BitVec.ofNat 64 intMax)) noFault s' := by
    simp only [setError, wp_bind, wp_modify, wp_pure]
    exact ⟨⟨hs.fd, hs.inode, hs.nextLock⟩, fun _ => he, fun h => by cases h⟩
  have hsame : Tried s { s.record (.setLk x.unixFd start end_ type) with
      fcntls := s.fcntls + 1 } f x := ⟨⟨x, hx, rfl⟩, rfl, rfl⟩
  have hignore : Tried s (State.setFd { s.record (.setLk x.unixFd start end_ type) with
      fcntls := s.fcntls + 1 } f (some { x with fsLocks := false })) f x :=
    ⟨⟨_, Function.update_self .., rfl⟩, rfl, rfl⟩
  simp only [trySetUnixLock, wp_bind, wp_getFd_of hx, wp_get, wp_ite, wp_pure, wp_set]
  refine ⟨fun _ => ⟨.refl hx, by simp, by simp⟩,
    fun _ => ⟨fun _ => ⟨.refl hx, by simp, by simp⟩, fun _ => ?_⟩⟩
  cases hc : fcntl (s.fcntls + 1 - 1) with
  | ok => exact ⟨hsame, by simp, by simp⟩
  | acces getLk =>
    cases getLk with
    | true => exact hfail _ hsame (by decide)
    | false => exact ⟨hignore, by simp, by simp⟩
  | noLocks => exact ⟨hignore, by simp, by simp⟩
  | again => exact hfail _ hsame (by decide)
  | badFd =>
    dsimp only
    rw [wp_ite]
    exact ⟨fun _ => ⟨hsame, by simp, by simp⟩, fun _ => hfail _ hsame (by decide)⟩
  | overflow =>
    dsimp only
    rw [wp_ite]
    exact ⟨fun hlt => ⟨⟨⟨x, hx, rfl⟩, rfl, rfl⟩, by simp, fun _ => ⟨hlt, rfl⟩⟩,
      fun _ => hfail _ hsame (by decide)⟩
  | other e => exact hfail _ hsame (hf _ e hc)

theorem Tried.trans {u : State} {f : FdId} {x y : Fd} (h : Tried s t f x)
    (hy : t.fd f = some y) (h' : Tried t u f y) : Tried s u f x := by
  obtain ⟨x', hx', hi⟩ := h.fd
  cases hy.symm.trans hx'
  obtain ⟨z, hz, hz'⟩ := h'.fd
  exact ⟨⟨z, hz, hz'.trans hi⟩, h'.inode.trans h.inode, h'.nextLock.trans h.nextLock⟩

/-- The second attempt is the last, as the limit is then that of an `int`. -/
theorem wp_setUnixLock (hf : ∀ n e, fcntl n = .other e → e ≠ 0) {f : FdId} {x : Fd}
    (hx : s.fd f = some x) (start end_ : FilePos) (type : LockType) :
    wp (setUnixLock fcntl f start end_ type) (fun r t =>
      Tried s t f x ∧ (r = false → t.error ≠ 0)) noFault s := by
  simp only [setUnixLock, wp_bind, wp_getFd_of hx, wp_ite, wp_pure]
  refine ⟨fun _ => ⟨.refl hx, fun h => by cases h⟩, fun _ => ?_⟩
  refine wp_mono (wp_trySetUnixLock hf hx start end_ type) fun r t ht => ?_
  obtain ⟨htried, herror, hagain⟩ := ht
  cases r with
  | some r =>
    simp only [wp_pure]
    exact ⟨htried, fun h => herror (by rw [h])⟩
  | none =>
    obtain ⟨y, hy, -⟩ := htried.fd
    have hmax := (hagain rfl).2
    simp only [wp_bind, wp_pure]
    refine wp_mono (wp_trySetUnixLock hf hy start end_ type) fun r u hu => ?_
    obtain ⟨htried', herror', hagain'⟩ := hu
    refine ⟨htried.trans hy htried', fun h => ?_⟩
    cases r with
    | some r => exact herror' (by rw [← h]; rfl)
    | none =>
      have hlt := (hagain' rfl).1
      rw [hmax] at hlt
      exact absurd hlt (by simp)

/-! ## The request -/

/-- The request ends without a fault: with a lock to wait for, with an error, or with a new lock in
the list of the fd. -/
def LockAnswered (fcntl : ℕ → FcntlResult) (p : ProcessId) (f : FdId)
    (offsetHigh offsetLow countHigh countLow : BitVec 32) (shared wait mem : Bool) (s : State) :
    Prop :=
  ∃ r t, lockFile fcntl p (some f) offsetHigh offsetLow countHigh countLow shared wait mem s =
      .ok (r, t) ∧
    (r.isSome ∨ t.error ≠ 0 ∨ ∃ y, t.fd f = some y ∧ s.nextLock ∈ y.locks ∧
      t.lock s.nextLock = ⟨f, shared, offsetHigh ++ offsetLow,
        (offsetHigh ++ offsetLow) + (countHigh ++ countLow), some p⟩)

theorem wp_addLock_total (hf : ∀ n e, fcntl n = .other e → e ≠ 0) {f : FdId} {x : Fd}
    {i : InodeId} {n : Inode} (hx : s.fd f = some x) (hi : x.inode = some i)
    (hn : s.inode i = some n) (p : ProcessId) (shared : Bool) (start end_ : FilePos)
    (mem : Bool) :
    wp (addLock fcntl p f shared start end_ mem) (fun r t => (r = false ∧ t.error ≠ 0) ∨
      (r = true ∧ ∃ y, t.fd f = some y ∧ s.nextLock ∈ y.locks ∧
        t.lock s.nextLock = ⟨f, shared, start, end_, some p⟩)) noFault s := by
  simp only [addLock, wp_bind, wp_getFd_of hx, hi, wp_ite]
  refine ⟨fun _ => ?_, fun _ => ?_⟩
  · simp only [setError, wp_modify, wp_pure]
    exact .inl ⟨trivial, by decide⟩
  · refine wp_mono (wp_setUnixLock hf hx start end_ _) fun r t ht => ?_
    obtain ⟨htried, herror⟩ := ht
    obtain ⟨y, hy, -⟩ := htried.fd
    have hn' : t.inode i = some n := htried.inode ▸ hn
    refine ⟨fun _ => ?_, fun hr => ?_⟩
    · simp only [wp_get, wp_getFd_of hy, wp_getInode_of hn', wp_set, wp_pure]
      right
      rw [← htried.nextLock]
      exact ⟨trivial, _, Function.update_self .., List.mem_cons_self,
        Function.update_self ..⟩
    · simp only [wp_pure]
      exact .inl ⟨trivial, herror (by simpa using hr)⟩

theorem wp_lockFd_total (hf : ∀ n e, fcntl n = .other e → e ≠ 0) {f : FdId} {x : Fd}
    {i : InodeId} {n : Inode} (hx : s.fd f = some x) (hi : x.inode = some i)
    (hn : s.inode i = some n) (p : ProcessId) (start count : FilePos)
    (shared wait mem : Bool) :
    wp (lockFd fcntl p f start count shared wait mem) (fun r t =>
      r.isSome ∨ t.error ≠ 0 ∨ ∃ y, t.fd f = some y ∧ s.nextLock ∈ y.locks ∧
        t.lock s.nextLock = ⟨f, shared, start, start + count, some p⟩) noFault s := by
  unfold lockFd
  simp only
  rw [wp_ite]
  refine ⟨fun _ => ?_, fun _ => ?_⟩
  · simp only [setError, wp_bind, wp_modify, wp_pure]
    exact .inr (.inl (by decide))
  · simp only [wp_bind, wp_fdInode_of hx hi, wp_getInode_of hn, wp_get]
    generalize n.locks.find? _ = found
    cases found with
    | some l =>
      rw [wp_ite]
      simp only [setError, wp_bind, wp_modify, wp_pure]
      exact ⟨fun _ => .inr (.inl (by decide)), fun _ => .inl rfl⟩
    | none =>
      dsimp only
      rw [wp_bind]
      refine wp_mono (wp_addLock_total hf hx hi hn p shared start _ mem) fun r t ht => ?_
      rcases ht with ⟨rfl, herror⟩ | ⟨rfl, hadded⟩
      · simp only [Bool.false_eq_true, if_false, setError, wp_bind, wp_get, wp_ite, wp_modify,
          wp_pure]
        exact ⟨fun _ => .inr (.inl (by decide)), fun _ => .inr (.inl herror)⟩
      · simp only [if_true, wp_pure]
        exact .inr (.inr hadded)

/-- The range wraps: `lock_fd` refuses it before it looks at the inode. -/
def Wraps (start count : FilePos) : Prop := start + count ≠ 0 ∧ start + count < start

instance (start count : FilePos) : Decidable (Wraps start count) :=
  inferInstanceAs (Decidable (_ ∧ _))

/-- Without an inode the walk of the lock list is a fault. -/
theorem wp_lockFd_special {f : FdId} {x : Fd} (hx : s.fd f = some x) (hi : x.inode = none)
    {start count : FilePos} (hwrap : ¬ Wraps start count) (p : ProcessId)
    (shared wait mem : Bool) :
    wp (lockFd fcntl p f start count shared wait mem) (fun _ _ => False) anyFault s := by
  unfold Wraps at hwrap
  simp only [lockFd, if_neg hwrap, wp_bind, wp_fdInode]
  intro y j hy hj
  cases hx.symm.trans hy
  rw [hi] at hj
  cases hj

/-- A lock request is answered exactly when the descriptor has an inode or the range wraps. -/
theorem lockAnswered_iff (hf : ∀ n e, fcntl n = .other e → e ≠ 0) {as : List FileAction}
    (hr : Run (fileStep fcntl) ok .initial as s) {f : FdId} {x : Fd} (hx : s.fd f = some x)
    (p : ProcessId) (offsetHigh offsetLow countHigh countLow : BitVec 32)
    (shared wait mem : Bool) :
    LockAnswered fcntl p f offsetHigh offsetLow countHigh countLow shared wait mem
        { s with error := 0 } ↔
      x.inode.isSome ∨ Wraps (offsetHigh ++ offsetLow) (countHigh ++ countLow) := by
  unfold LockAnswered lockFile
  dsimp only
  generalize (offsetHigh ++ offsetLow : FilePos) = start
  generalize (countHigh ++ countLow : FilePos) = count
  cases hi : x.inode with
  | some i =>
    refine iff_of_true ?_ (.inl rfl)
    obtain ⟨n, hn, -⟩ := (linked_fileRun hr).fd_inode f x i hx hi
    have hw := wp_lockFd_total (s := { s with error := 0 }) hf hx hi hn p start count shared
      wait mem
    cases hm : lockFd fcntl p f start count shared wait mem { s with error := 0 } with
    | ok r =>
      obtain ⟨r, t⟩ := r
      have ht := wp_of_ok hw hm
      exact ⟨r, t, rfl, ht⟩
    | error e => exact (wp_of_error hw hm).elim
  | none =>
    by_cases hwrap : start + count ≠ 0 ∧ start + count < start
    · refine iff_of_true ?_ (.inr hwrap)
      have hw : wp (lockFd fcntl p f start count shared wait mem)
          (fun _ t => t.error ≠ 0) noFault { s with error := 0 } := by
        simp only [lockFd, if_pos hwrap, setError, wp_bind, wp_modify, wp_pure]
        decide
      cases hm : lockFd fcntl p f start count shared wait mem { s with error := 0 } with
      | ok r =>
        obtain ⟨r, t⟩ := r
        have ht := wp_of_ok hw hm
        exact ⟨r, t, rfl, .inr (.inl ht)⟩
      | error e => exact (wp_of_error hw hm).elim
    · refine iff_of_false ?_ (fun h => h.elim (fun h => by cases h) hwrap)
      rintro ⟨r, t, hm, -⟩
      have hw : wp (lockFd fcntl p f start count shared wait mem) (fun _ _ => False) anyFault
          { s with error := 0 } :=
        wp_lockFd_special (s := { s with error := 0 }) hx hi hwrap p shared wait mem
      exact wp_of_ok hw hm

/-- A regular file is opened. -/
def openRegular : FileAction :=
  .fd (.openFd ⟨"file", false, false, false, fileReadData, fileShareRead, false, false, false⟩
    ⟨true, true, .ok, some ⟨1, 1, true, false⟩, 0, true, true⟩)

theorem lockAnswered_regular :
    ∃ s, Run (fileStep fun _ => .ok) (fun _ _ => True) .initial [openRegular] s ∧
      LockAnswered (fun _ => .ok) 0 0 0 0 0 1 false false true { s with error := 0 } := by
  obtain ⟨s, hr, hp⟩ := run_of_execTo (f := fileStep fun _ => .ok) (s := .initial)
    (q := fun _ _ => True) (g := fun _ _ => true) (l := [openRegular])
    (p := fun s => (s.fd 0).any (·.inode.isSome)) (fun _ _ _ => trivial) (by decide)
  rw [Option.any_eq_true_iff_get] at hp
  obtain ⟨hx, hi⟩ := hp
  exact ⟨s, hr, (lockAnswered_iff (fun n e h => by cases h) hr (Option.some_get hx).symm 0
    0 0 0 1 false false true).2 (.inl hi)⟩

/-- A file object made of a client's descriptor, and a lock on its first byte. -/
theorem not_lockAnswered_anonymous :
    ∃ s, Run (fileStep fun _ => .ok) (fun _ _ => True) .initial [.allocFileHandle true] s ∧
      (s.fd 0).isSome ∧
      ¬ LockAnswered (fun _ => .ok) 0 0 0 0 0 1 false false true { s with error := 0 } := by
  refine ⟨(State.initial.allocFd.giveUnixFd 0 newFd).record (.opened 0 none),
    Run.single trivial rfl, rfl, ?_⟩
  rintro ⟨r, t, hm, -⟩
  have hw : wp (lockFd (fun _ => .ok) 0 0 (0#32 ++ 0#32) (0#32 ++ 1#32) false false true)
      (fun _ _ => False) anyFault
      { (State.initial.allocFd.giveUnixFd 0 newFd).record (.opened 0 none) with error := 0 } :=
    wp_lockFd_special (x := { newFd with unixFd := some 0 }) rfl rfl (by decide) 0 false false true
  exact wp_of_ok hw hm

end Wine.FileDesc
