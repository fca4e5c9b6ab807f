import Wine.FileDesc.Keeps

/-!
# Requests as sequences of changes

To the effects come the steps that build something up: a new fd, its Unix descriptor, its place on
the list of an inode, its modes, its name to unlink, and a lock. An invariant that every change keeps
holds in all reachable states.
-/

namespace Wine.FileDesc
open Wine.Lib
open Wine.Server (Status Access)

variable {α β : Type}

/-- What `alloc_fd_object` fills in. -/
def newFd : Fd := ⟨none, ⟨none, ""⟩, [], 0, 0, none, true, false⟩

def State.allocFd (s : State) : State :=
  { s.setFd s.nextFd (some newFd) with nextFd := s.nextFd + 1 }

def State.giveUnixFd (s : State) (f : FdId) (x : Fd) : State :=
  { s.setFd f (some { x with unixFd := some s.nextUnix }) with nextUnix := s.nextUnix + 1 }

def State.join (s : State) (f : FdId) (x : Fd) (i : InodeId) (n : Inode) (u : UnixFd) : State :=
  ((s.record (.opened u (some i))).setFd f
    (some { x with inode := some i, closed := ⟨some u, ""⟩ })).setInode i
      (some { n with openFds := f :: n.openFds })

def State.pendUnlink (s : State) (f : FdId) (x : Fd) (i : InodeId) (name : String) : State :=
  (s.record (.pendUnlink i name)).setFd f
    (some { x with closed := { x.closed with unlink := name } })

def State.addLock (s : State) (f : FdId) (x : Fd) (i : InodeId) (n : Inode) (p : ProcessId)
    (shared : Bool) (start end_ : FilePos) : State :=
  { (s.setLock s.nextLock ⟨f, shared, start, end_, some p⟩).linkLock s.nextLock f x i n p with
    nextLock := s.nextLock + 1 }

/-- The test of `lock_fd` for an existing lock. -/
def FileLock.conflicts (k : FileLock) (shared : Bool) (start end_ : FilePos) : Bool :=
  lockOverlaps k start end_ && !(k.shared && shared)

/-- The range does not go beyond the end of all files. -/
def NoWrap (start end_ : FilePos) : Prop := ¬ (end_ ≠ 0 ∧ end_ < start)

inductive Change (s : State) : State → Prop
  | effect {s' : State} : Effect s s' → Change s s'
  | allocFd : Change s s.allocFd
  | giveUnixFd {f : FdId} {x : Fd} :
      s.fd f = some x → x.inode = none → x.unixFd = none → Change s (s.giveUnixFd f x)
  | openedSpecial (u : UnixFd) : Change s (s.record (.opened u none))
  | join {f : FdId} {x : Fd} {i : InodeId} {n : Inode} {u : UnixFd} :
      s.fd f = some x → x.inode = none → x.unixFd = some u → x.locks = [] → s.inode i = some n →
      Change s (s.join f x i n u)
  | share {f : FdId} {x : Fd} (access sharing : Access) : s.fd f = some x →
      Change s (s.setFd f (some { x with access := access, sharing := sharing }))
  | pendUnlink {f : FdId} {x : Fd} {i : InodeId} (name : String) :
      s.fd f = some x → x.inode = some i → x.closed.unlink = "" →
      Change s (s.pendUnlink f x i name)
  | truncate (u : UnixFd) : Change s (s.record (.truncate u))
  | addLock {f : FdId} {x : Fd} {i : InodeId} {n : Inode} (p : ProcessId) (shared : Bool)
      (start end_ : FilePos) : s.fd f = some x → x.inode = some i → s.inode i = some n →
      NoWrap start end_ → (∀ l ∈ n.locks, (s.lock l).conflicts shared start end_ = false) →
      Change s (s.addLock f x i n p shared start end_)

abbrev Changes : State → State → Prop := Relation.ReflTransGen Change

theorem Change.single {s s' : State} (h : Change s s') : Changes s s' :=
  Relation.ReflTransGen.single h

theorem Changes.invariant {I : State → Prop} {s s' : State} (h : Changes s s') (hs : I s)
    (hstep : ∀ t t', Change t t' → I t → I t') : I s' := by
  induction h with
  | refl => exact hs
  | tail _ hc ih => exact hstep _ _ hc ih

theorem Effects.changes {s s' : State} (h : Effects s s') : Changes s s' :=
  Relation.ReflTransGen.mono (fun _ _ => Change.effect) _ _ h

theorem Does.changes {m : M α} (h : Does m) (s : State) :
    wp m (fun _ s' => Changes s s') anyFault s :=
  wp_mono (h s) fun _ _ => Effects.changes

/-- What comes after some changes adds its own. -/
theorem wp_changes_trans {m : M α} {s t : State} (h : Changes s t)
    (hm : wp m (fun _ s' => Changes t s') anyFault t) :
    wp m (fun _ s' => Changes s s') anyFault t :=
  wp_mono hm fun _ _ => h.trans

/-! ## Opening -/

theorem wp_releaseDevice_fd (d : DeviceId) (s : State) :
    wp (releaseDevice d) (fun _ s' => s'.fd = s.fd) anyFault s := by
  simp only [releaseDevice, wp_bind, wp_get]
  cases s.device d with
  | none => trivial
  | some x =>
    simp only [wp_ite, wp_bind, wp_assert, wp_set]
    exact ⟨fun _ _ => rfl, fun _ => rfl⟩

theorem wp_getDevice_fd (dev : ℕ) (create mem : Bool) (s : State) :
    wp (getDevice dev create mem) (fun _ s' => s'.fd = s.fd) anyFault s := by
  simp only [getDevice, wp_bind, wp_get]
  cases findDevice s dev with
  | some d => cases hd : s.device d <;> simp [hd, State.setDevice, anyFault]
  | none => simp [wp_ite, setError, State.setDevice]

/-- Looking for an inode changes no fd. -/
theorem wp_getInodeFor_fd (dev ino : ℕ) (memDevice memInode : Bool) (s : State) :
    wp (getInodeFor dev ino memDevice memInode) (fun _ s' => s'.fd = s.fd) anyFault s := by
  simp only [getInodeFor, wp_bind]
  refine wp_mono (wp_getDevice_fd dev true memDevice s) fun r t ht => ?_
  rw [← ht]
  cases r with
  | none => rfl
  | some d =>
    simp only [wp_bind, wp_get]
    cases t.device d with
    | none => trivial
    | some x =>
      simp only
      split
      · simp only [wp_bind]
        refine wp_mono (wp_releaseDevice_fd d t) fun _ t' ht' => ?_
        simp only [wp_getInode, wp_modify, wp_pure]
        exact fun n _ => ht'
      · simp only [wp_ite, wp_bind, wp_set, wp_pure, setError, wp_modify]
        exact ⟨fun _ => rfl, fun _ => wp_releaseDevice_fd d _⟩

theorem wp_openInode_changes (f : FdId) (i : InodeId) (u : UnixFd) (req : OpenRequest) (st : Stat)
    (trunc : Bool) {s : State} {x : Fd} (hx : s.fd f = some x) (hi : x.inode = none)
    (hu : x.unixFd = some u) (hl : x.locks = []) :
    wp (openInode f i u req st trunc) (fun _ s' => Changes s s') anyFault s := by
  simp only [openInode, joinInode, wp_bind, wp_getFd, wp_getInode, wp_modify]
  intro x' hx' n hn
  cases hx.symm.trans hx'
  have hjoin : Changes s (s.join f x i n u) := .single (.join hx hi hu hl hn)
  have hfd : (s.join f x i n u).fd f = some { x with inode := some i, closed := ⟨some u, ""⟩ } :=
    Function.update_self ..
  rw [wp_ite]
  refine ⟨fun _ => wp_changes_trans hjoin ((does_failOpen f _).changes _), fun _ => ?_⟩
  rw [wp_ite]
  refine ⟨fun _ => wp_changes_trans hjoin ((does_failOpen f _).changes _), fun _ => ?_⟩
  simp only [checkSharing, wp_bind, wp_getFd, wp_modify, wp_getInode, wp_get, wp_pure]
  intro y hy m _
  cases hfd.symm.trans hy
  have hshare := hjoin.tail (.share req.access (if req.access = 0 then
    fileShareRead ||| fileShareWrite ||| fileShareDelete else req.sharing) hfd)
  rw [wp_ite]
  refine ⟨fun _ => wp_changes_trans hshare ((does_failOpen f _).changes _), fun _ => ?_⟩
  simp only [wp_bind, wp_getFd]
  intro y hy
  have htrunc : ∀ t, Changes s t → wp (do
      if trunc then modify (·.record (.truncate u))
      pure (some f)) (fun _ s' => Changes s s') anyFault t := by
    intro t ht
    simp only [wp_bind, wp_ite, wp_modify, wp_pure]
    exact ⟨fun _ => ht.tail (.truncate u), fun _ => ht⟩
  have hy' := (Function.update_self ..).symm.trans hy
  simp only [Option.some.injEq] at hy'
  split
  · simp only [wp_bind, wp_modify]
    refine htrunc _ (hshare.tail (.pendUnlink req.name hy ?_ ?_)) <;> simp only [← hy']
  · exact htrunc _ hshare

theorem wp_openSpecial_changes (f : FdId) (u : UnixFd) (req : OpenRequest) (s : State) :
    wp (openSpecial f u req) (fun _ s' => Changes s s') anyFault s := by
  simp only [openSpecial, wp_bind, wp_modify, wp_ite, wp_pure]
  have h : Changes s (s.record (.opened u none)) := .single (.openedSpecial u)
  exact ⟨fun _ => wp_changes_trans h ((does_failOpen f _).changes _), fun _ =>
    ⟨fun _ => wp_changes_trans h ((does_failOpen f _).changes _), fun _ => h⟩⟩

theorem wp_openFd_changes (req : OpenRequest) (out : OpenOutcome) (s : State) :
    wp (openFd req out) (fun _ s' => Changes s s') anyFault s := by
  have hfail : ∀ e, wp (do setError e; pure none : M (Option FdId))
      (fun _ s' => Changes s s') anyFault s := fun e =>
    ((does_setError e).bind fun _ => .pure _).changes s
  have hclose : ∀ f e t, Changes s t →
      wp (failOpen f e) (fun _ s' => Changes s s') anyFault t := fun f e t h =>
    wp_changes_trans h ((does_failOpen f e).changes t)
  unfold openFd
  rw [wp_ite]
  refine ⟨fun _ => hfail _, fun _ => ?_⟩
  rw [wp_ite]
  refine ⟨fun _ => hfail _, fun _ => ?_⟩
  simp only [allocFdObject, wp_bind, wp_get, wp_set, wp_pure]
  have halloc : Changes s s.allocFd := .single .allocFd
  have hfd : s.allocFd.fd s.nextFd = some newFd := Function.update_self ..
  rw [wp_ite]
  refine ⟨fun _ => hclose _ _ _ halloc, fun _ => ?_⟩
  rw [wp_ite]
  refine ⟨fun _ => hclose _ _ _ halloc, fun _ => ?_⟩
  cases out.unixOpen with
  | none => exact hclose _ _ _ halloc
  | some st =>
    simp only [setUnixFd, wp_bind, wp_getFd, wp_get, wp_set, wp_pure]
    intro x hx
    cases hfd.symm.trans hx
    have hunix : Changes s (s.allocFd.giveUnixFd s.nextFd newFd) :=
      halloc.tail (.giveUnixFd hfd rfl rfl)
    rw [wp_ite]
    refine ⟨fun _ => ?_, fun _ => wp_changes_trans hunix (wp_openSpecial_changes _ _ req _)⟩
    rw [wp_bind]
    refine wp_mono (wp_and (does_getInodeFor _ _ _ _ _) (wp_getInodeFor_fd _ _ _ _ _))
      fun r t hpost => ?_
    obtain ⟨he, hf⟩ := hpost
    have ht := hunix.trans he.changes
    cases r with
    | none =>
      simp only [wp_bind, wp_modify]
      exact hclose _ _ _ (ht.tail (.openedSpecial _))
    | some i =>
      refine wp_changes_trans ht (wp_openInode_changes (x := { newFd with
        unixFd := some s.allocFd.nextUnix }) _ i _ req st _ ?_ rfl rfl rfl)
      rw [hf]
      exact Function.update_self ..

/-! ## Locking -/

section
variable (fcntl : ℕ → FcntlResult)

theorem wp_setError_pure (e : Status) (a : α) {Q : α → State → Prop} {s : State}
    (h : ∀ t, Effects s t → Q a t) : wp (do setError e; pure a : M α) Q anyFault s := by
  simp only [wp_bind, wp_pure]
  exact wp_mono (does_setError e s) fun _ => h

theorem wp_addLock (p : ProcessId) (f : FdId) (shared : Bool) (start end_ : FilePos)
    (mem : Bool) (s : State) :
    wp (addLock fcntl p f shared start end_ mem) (fun r t =>
      (r = false ∧ Effects s t) ∨ (r = true ∧ ∃ m x i n, Effects s m ∧ m.fd f = some x ∧
        x.inode = some i ∧ m.inode i = some n ∧ t = m.addLock f x i n p shared start end_))
      anyFault s := by
  simp only [addLock, wp_bind, wp_getFd]
  intro x hx
  cases hi : x.inode with
  | none => exact wp_setError_pure _ _ fun _ h => .inl ⟨rfl, h⟩
  | some i =>
    simp only
    rw [wp_ite]
    refine ⟨fun _ => wp_setError_pure _ _ fun _ h => .inl ⟨rfl, h⟩, fun _ => ?_⟩
    rw [wp_bind]
    refine wp_mono (does_setUnixLock fcntl f start end_ _ s) fun r t ht => ?_
    rw [wp_ite]
    refine ⟨fun _ => ?_, fun _ => .inl ⟨rfl, ht⟩⟩
    simp only [wp_bind, wp_get, wp_getFd, wp_getInode, wp_set, wp_pure]
    intro y hy n hn
    obtain ⟨x', hx', hsame⟩ := ht.keeps.fd f y hy
    cases hx.symm.trans hx'
    exact .inr ⟨trivial, t, y, i, n, ht, hy, hsame.inode_eq.trans hi, hn, rfl⟩

/-- Whether a lock conflicts does not depend on its process. -/
theorem Keeps.conflicts_eq {s t : State} (h : Keeps s t) (l : LockId) (shared : Bool)
    (start end_ : FilePos) :
    (t.lock l).conflicts shared start end_ = (s.lock l).conflicts shared start end_ := by
  rw [h.lock_eq l]
  rfl

/-- A lock that conflicts with none is added after attempts to set the Unix lock. -/
def AddsLock (s : State) (p : ProcessId) (f : FdId) (shared : Bool) (start end_ : FilePos)
    (t : State) : Prop :=
  ∃ m x i n, Effects s m ∧ m.fd f = some x ∧ x.inode = some i ∧ m.inode i = some n ∧
    NoWrap start end_ ∧ (∀ l ∈ n.locks, (m.lock l).conflicts shared start end_ = false) ∧
    t = m.addLock f x i n p shared start end_

theorem wp_lockFd (p : ProcessId) (f : FdId) (start count : FilePos) (shared wait mem : Bool)
    (s : State) :
    wp (lockFd fcntl p f start count shared wait mem) (fun _ t => Effects s t ∨
      AddsLock s p f shared start (start + count) t) anyFault s := by
  unfold lockFd
  simp only
  rw [wp_ite]
  refine ⟨fun _ => wp_setError_pure _ _ fun _ h => .inl h, fun hwrap => ?_⟩
  simp only [wp_bind, wp_fdInode, wp_getInode, wp_get]
  intro x i hx hi n hn
  split
  · rw [wp_ite]
    exact ⟨fun _ => wp_setError_pure _ _ fun _ h => .inl h, fun _ =>
      wp_setError_pure _ _ fun _ h => .inl h⟩
  · next hfind =>
    have hfree : ∀ l ∈ n.locks, (s.lock l).conflicts shared start (start + count) = false :=
      fun l hl => by simpa [FileLock.conflicts] using List.find?_eq_none.mp hfind l hl
    rw [wp_bind]
    refine wp_mono (wp_addLock fcntl p f shared start _ mem s) fun r t ht => ?_
    rw [wp_ite]
    rcases ht with ⟨rfl, ht⟩ | ⟨rfl, ht⟩
    · refine ⟨fun h => (by cases h), fun _ => ?_⟩
      simp only [wp_bind, wp_get, wp_ite, wp_pure]
      exact ⟨fun _ => wp_mono (does_setError _ t) fun _ _ h => .inl (ht.trans h), fun _ => .inl ht⟩
    · refine ⟨fun _ => .inr ?_, fun h => absurd rfl h⟩
      obtain ⟨m, y, j, n', he, hy, hj, hn', rfl⟩ := ht
      have hk := he.keeps
      refine ⟨m, y, j, n', he, hy, hj, hn', hwrap, fun l hl => ?_, rfl⟩
      obtain ⟨x', hx', hsame⟩ := hk.fd f y hy
      cases hx.symm.trans hx'
      cases hi.symm.trans (hsame.inode_eq.symm.trans hj)
      rw [hk.conflicts_eq]
      rcases hk.inode i n' hn' with ⟨-, hnil⟩ | ⟨n₀, hn₀, hsub⟩
      · rw [hnil] at hl
        cases hl
      · cases hn.symm.trans hn₀
        exact hfree l (hsub.locks_sub.subset hl)

theorem AddsLock.changes {s t : State} {p : ProcessId} {f : FdId} {shared : Bool}
    {start end_ : FilePos} (h : AddsLock s p f shared start end_ t) : Changes s t := by
  obtain ⟨m, x, i, n, he, hx, hi, hn, hwrap, hfree, rfl⟩ := h
  exact he.changes.tail (.addLock p shared start end_ hx hi hn hwrap hfree)

end

/-! ## Unmounting -/

/-- To unmount an inode of a device that is being unmounted. -/
theorem wp_unmountInode {d : DeviceId} {y : Device} {i : InodeId} {s : State}
    (hd : s.device d = some y) (hi : i ∈ y.inodes) (hev : .unmount d ∈ s.events) :
    wp (unmountInode i) (fun _ s' => Effects s s' ∧ s'.device = s.device ∧
      .unmount d ∈ s'.events) anyFault s := by
  simp only [unmountInode, wp_bind, wp_getInode]
  intro n hn
  have hloop : wp (forM n.openFds (unmountFd i)) (fun _ s' => Effects s s' ∧
      s'.device = s.device ∧ s'.inode = s.inode ∧ .unmount d ∈ s'.events) anyFault s := by
    refine wp_forM (I := fun t => Effects s t ∧ t.device = s.device ∧ t.inode = s.inode ∧
      Event.unmount d ∈ t.events) (fun f hf t ht => ?_) ⟨.refl, rfl, rfl, hev⟩
    obtain ⟨he, htd, hti, htev⟩ := ht
    simp only [unmountFd, wp_bind, wp_getFd, wp_assert, wp_modify]
    intro x hx _
    refine ⟨he.tail (.unmountFd hx (hti ▸ hn) hf (htd ▸ hd) hi htev), ?_, ?_, ?_⟩ <;>
      simp only [State.unmountFd, State.setFd, closeUnixFd_eq]
    · exact htd
    · exact hti
    · exact List.mem_append_right _ htev
  refine wp_mono hloop fun _ t ht => ?_
  obtain ⟨he, htd, hti, htev⟩ := ht
  simp only [inodeClosePending, wp_bind, wp_getInode, wp_modify]
  intro m hm
  refine ⟨he.tail (.unmountPending hm (htd ▸ hd) hi htev), ?_, ?_⟩ <;>
    simp only [closePending_eq, State.setInode]
  · exact htd
  · exact List.mem_append_right _ htev

theorem does_unmountDevice (dev : ℕ) : Does (unmountDevice dev) := by
  refine (does_getDevice dev false true).bind fun r => ?_
  cases r with
  | none => exact .pure _
  | some d =>
    refine .of_get fun s => ?_
    cases hd : s.device d with
    | none => trivial
    | some y =>
      simp only [wp_bind, wp_modify]
      have hquiet : Effects s (s.record (.unmount d)) := .single (.quiet (quiet_record s rfl))
      refine wp_mono (wp_forM (I := fun t => Effects s t ∧ t.device = s.device ∧
        Event.unmount d ∈ t.events) (fun i hi t ht => ?_)
        ⟨hquiet, rfl, List.mem_cons_self⟩) fun _ t ht => ?_
      · obtain ⟨he, htd, htev⟩ := ht
        refine wp_mono (wp_unmountInode (htd ▸ hd) hi htev) fun _ t' ht' => ?_
        exact ⟨he.trans ht'.1, ht'.2.1.trans htd, ht'.2.2⟩
      · obtain ⟨he, -, htev⟩ := ht
        exact wp_mono (does_releaseDevice d _) fun _ _ h =>
          (he.tail (.unhashDevice d htev)).trans h

/-! ## Requests -/

theorem wp_act_changes (fcntl : ℕ → FcntlResult) (a : Action) (s : State) :
    wp (act fcntl a) (fun _ s' => Changes s s') anyFault s := by
  simp only [act, wp_bind, wp_modify]
  have hreset : Changes s { s with error := 0 } := .single (.effect (.quiet
    ⟨rfl, rfl, rfl, rfl, rfl, rfl, rfl, rfl, rfl, rfl, rfl, [], rfl, by simp⟩))
  refine wp_changes_trans hreset ?_
  cases a with
  | openFd req out =>
    simp only [wp_bind, wp_pure]
    exact wp_openFd_changes req out _
  | lockFd p f start count shared wait mem =>
    simp only [wp_bind, wp_get, wp_ite, wp_pure]
    refine ⟨fun _ => wp_mono (wp_lockFd fcntl p f start count shared wait mem _) fun _ t ht => ?_,
      fun _ => .refl⟩
    exact ht.elim Effects.changes AddsLock.changes
  | unlockFd f start count =>
    exact (Does.of_get fun s => (Does.ite (does_unlockFd f start count) (.pure _)) s).changes _
  | destroyFd f =>
    exact (Does.of_get fun s => (Does.ite (does_fdDestroy f) (.pure _)) s).changes _
  | exitProcess p => exact (does_removeProcessLocks p).changes _
  | unmountDevice dev => exact (does_unmountDevice dev).changes _

/-- An invariant of the changes is one of the runs. -/
theorem run_invariant_of_changes {fcntl : ℕ → FcntlResult} {ok : State → Action → Prop}
    {I : State → Prop} {s s' : State} {as : List Action} (hr : Run (step fcntl) ok s as s')
    (hs : I s) (hI : ∀ t t', Change t t' → I t → I t') : I s' :=
  hr.invariant hs fun t a _ ht _ hst =>
    (wp_of_step (wp_act_changes fcntl a t) hst).invariant ht hI

end Wine.FileDesc
