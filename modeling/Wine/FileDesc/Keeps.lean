import Wine.FileDesc.Effects

/-!
# What the effects keep

No effect puts anything on the lists of an inode or of an fd, and none changes the access and sharing
modes of an fd or the range of a lock. None touches a file, and none closes a Unix descriptor of a
locked inode unless it is for unmounting the device.
-/

namespace Wine.FileDesc
open Wine.Lib
open Wine.Server (Status Access)

/-! ## What is kept -/

structure SameFd (x' x : Fd) : Prop where
  inode_eq : x'.inode = x.inode
  access_eq : x'.access = x.access
  sharing_eq : x'.sharing = x.sharing
  locks_sub : x'.locks.Sublist x.locks

structure SameInode (n' n : Inode) : Prop where
  device_eq : n'.device = n.device
  ino_eq : n'.ino = n.ino
  open_sub : n'.openFds.Sublist n.openFds
  locks_sub : n'.locks.Sublist n.locks

structure Keeps (s s' : State) : Prop where
  nextLock_eq : s'.nextLock = s.nextLock
  nextFd_eq : s'.nextFd = s.nextFd
  nextUnix_eq : s'.nextUnix = s.nextUnix
  lock_eq : ∀ l, s'.lock l = { s.lock l with process := (s'.lock l).process }
  fd : ∀ f x', s'.fd f = some x' → ∃ x, s.fd f = some x ∧ SameFd x' x
  inode : ∀ i n', s'.inode i = some n' →
    (n'.openFds = [] ∧ n'.locks = []) ∨ ∃ n, s.inode i = some n ∧ SameInode n' n

theorem SameFd.refl (x : Fd) : SameFd x x := ⟨rfl, rfl, rfl, .refl _⟩

theorem SameInode.refl (n : Inode) : SameInode n n := ⟨rfl, rfl, .refl _, .refl _⟩

theorem SameFd.trans {x x' x'' : Fd} (h : SameFd x'' x') (h' : SameFd x' x) : SameFd x'' x :=
  ⟨h.inode_eq.trans h'.inode_eq, h.access_eq.trans h'.access_eq,
    h.sharing_eq.trans h'.sharing_eq, h.locks_sub.trans h'.locks_sub⟩

theorem SameInode.trans {n n' n'' : Inode} (h : SameInode n'' n') (h' : SameInode n' n) :
    SameInode n'' n :=
  ⟨h.device_eq.trans h'.device_eq, h.ino_eq.trans h'.ino_eq, h.open_sub.trans h'.open_sub,
    h.locks_sub.trans h'.locks_sub⟩

theorem Keeps.refl (s : State) : Keeps s s :=
  ⟨rfl, rfl, rfl, fun _ => rfl, fun _ x h => ⟨x, h, .refl x⟩, fun _ n h => .inr ⟨n, h, .refl n⟩⟩

theorem Keeps.trans {s s' s'' : State} (h : Keeps s s') (h' : Keeps s' s'') : Keeps s s'' where
  nextLock_eq := h'.nextLock_eq.trans h.nextLock_eq
  nextFd_eq := h'.nextFd_eq.trans h.nextFd_eq
  nextUnix_eq := h'.nextUnix_eq.trans h.nextUnix_eq
  lock_eq l := by rw [h'.lock_eq l, h.lock_eq l]
  fd f x'' hx'' := by
    obtain ⟨x', hx', h₂⟩ := h'.fd f x'' hx''
    obtain ⟨x, hx, h₁⟩ := h.fd f x' hx'
    exact ⟨x, hx, h₂.trans h₁⟩
  inode i n'' hn'' := by
    rcases h'.inode i n'' hn'' with he | ⟨n', hn', h₂⟩
    · exact .inl he
    · rcases h.inode i n' hn' with ⟨ho, hl⟩ | ⟨n, hn, h₁⟩
      · exact .inl ⟨List.sublist_nil.mp (ho ▸ h₂.open_sub), List.sublist_nil.mp (hl ▸ h₂.locks_sub)⟩
      · exact .inr ⟨n, hn, h₂.trans h₁⟩

/-- Nothing of the state that `Keeps` is about changes. -/
theorem Keeps.of_eq {s s' : State} (hf : s'.fd = s.fd) (hi : s'.inode = s.inode)
    (hl : s'.lock = s.lock) (hnl : s'.nextLock = s.nextLock) (hnf : s'.nextFd = s.nextFd)
    (hnu : s'.nextUnix = s.nextUnix) : Keeps s s' :=
  ⟨hnl, hnf, hnu, fun l => by rw [hl], fun f x h => ⟨x, hf ▸ h, .refl x⟩,
    fun i n h => .inr ⟨n, hi ▸ h, .refl n⟩⟩

theorem Keeps.setFd {s : State} {f : FdId} {x x' : Fd} (hx : s.fd f = some x)
    (h : SameFd x' x) : Keeps s (s.setFd f (some x')) := by
  refine ⟨rfl, rfl, rfl, fun _ => rfl, fun g y hy => ?_, fun _ n hn => .inr ⟨n, hn, .refl n⟩⟩
  rcases eq_or_ne g f with rfl | hne
  · simp only [State.setFd, Function.update_self, Option.some.injEq] at hy
    exact ⟨x, hx, hy ▸ h⟩
  · simp only [State.setFd, Function.update_of_ne hne] at hy
    exact ⟨y, hy, .refl y⟩

theorem Keeps.dropFd (s : State) (f : FdId) : Keeps s (s.setFd f none) := by
  refine ⟨rfl, rfl, rfl, fun _ => rfl, fun g y hy => ?_, fun _ n hn => .inr ⟨n, hn, .refl n⟩⟩
  rcases eq_or_ne g f with rfl | hne
  · simp only [State.setFd, Function.update_self, reduceCtorEq] at hy
  · simp only [State.setFd, Function.update_of_ne hne] at hy
    exact ⟨y, hy, .refl y⟩

theorem Keeps.setInode {s : State} {i : InodeId} {n m : Inode} (hn : s.inode i = some n)
    (h : SameInode m n) : Keeps s (s.setInode i (some m)) := by
  refine ⟨rfl, rfl, rfl, fun _ => rfl, fun _ x hx => ⟨x, hx, .refl x⟩, fun j k hm => .inr ?_⟩
  rcases eq_or_ne j i with rfl | hne
  · simp only [State.setInode, Function.update_self, Option.some.injEq] at hm
    exact ⟨n, hn, hm ▸ h⟩
  · simp only [State.setInode, Function.update_of_ne hne] at hm
    exact ⟨k, hm, .refl k⟩

theorem Keeps.dropInode (s : State) (i : InodeId) : Keeps s (s.setInode i none) := by
  refine ⟨rfl, rfl, rfl, fun _ => rfl, fun _ x hx => ⟨x, hx, .refl x⟩, fun j m hm => .inr ?_⟩
  rcases eq_or_ne j i with rfl | hne
  · simp only [State.setInode, Function.update_self, reduceCtorEq] at hm
  · simp only [State.setInode, Function.update_of_ne hne] at hm
    exact ⟨m, hm, .refl m⟩

theorem Keeps.closeUnixFd (s : State) (i : InodeId) (b : Bool) (u : Option UnixFd) :
    Keeps s (s.closeUnixFd i b u) := by
  rw [closeUnixFd_eq]
  exact .of_eq rfl rfl rfl rfl rfl rfl

theorem Keeps.closePending {s : State} {i : InodeId} {n : Inode} (hn : s.inode i = some n)
    (b : Bool) : Keeps s (s.closePending i n b) := by
  rw [closePending_eq]
  have h : Keeps s { s with
      events := closeEvents (s.lockedInode i) (!b) n.closed ++ s.events } :=
    .of_eq rfl rfl rfl rfl rfl rfl
  refine h.trans (.setInode (n := n) ?_ ⟨rfl, rfl, .refl _, .refl _⟩)
  exact hn

theorem Keeps.freeLock (s : State) (l : LockId) :
    Keeps s (s.setLock l { s.lock l with process := none }) := by
  refine ⟨rfl, rfl, rfl, fun k => ?_, fun _ x hx => ⟨x, hx, .refl x⟩,
    fun _ n hn => .inr ⟨n, hn, .refl n⟩⟩
  rcases eq_or_ne k l with rfl | hne
  · simp only [State.setLock, Function.update_self]
  · simp only [State.setLock, Function.update_of_ne hne]

theorem Keeps.addClosed {s : State} {i : InodeId} {n : Inode} (hn : s.inode i = some n)
    (c : ClosedFd) : Keeps s (addClosed s i n c) := by
  unfold Wine.FileDesc.addClosed
  split
  · exact .setInode hn ⟨rfl, rfl, .refl _, .refl _⟩
  · split
    · refine (Keeps.closeUnixFd s i false c.unixFd).trans (.setInode (n := n) ?_
        ⟨rfl, rfl, .refl _, .refl _⟩)
      rw [closeUnixFd_eq]
      exact hn
    · exact .closeUnixFd s i false c.unixFd

theorem Effect.keeps {s s' : State} (h : Effect s s') : Keeps s s' := by
  cases h with
  | quiet h => exact .of_eq h.fd h.inode h.lock h.nextLock h.nextFd h.nextUnix
  | fsLocks b hx => exact .setFd hx ⟨rfl, rfl, rfl, .refl _⟩
  | @freeLock l x i n p hx hi hn =>
    have h₁ : Keeps s (s.setFd (s.lock l).fd (some { x with locks := x.locks.erase l })) :=
      .setFd hx ⟨rfl, rfl, rfl, List.erase_sublist⟩
    have h₂ : Keeps s (s.unlinkLock l (s.lock l).fd x i n p) := by
      refine (h₁.trans (.setInode (i := i) (n := n) (m := { n with locks := n.locks.erase l }) ?_
        ⟨rfl, rfl, .refl _, List.erase_sublist⟩)).trans (.of_eq rfl rfl rfl rfl rfl rfl)
      exact hn
    exact h₂.trans (.freeLock _ l)
  | closePending hn _ => exact .closePending hn true
  | deviceRefcount r _ => exact .of_eq rfl rfl rfl rfl rfl rfl
  | destroyDevice _ _ => exact .of_eq rfl rfl rfl rfl rfl rfl
  | createDevice dev => exact .of_eq rfl rfl rfl rfl rfl rfl
  | unhashDevice d _ => exact .of_eq rfl rfl rfl rfl rfl rfl
  | inodeRefcount r hn => exact .setInode hn ⟨rfl, rfl, .refl _, .refl _⟩
  | @createInode d x ino hd =>
    refine ⟨rfl, rfl, rfl, fun _ => rfl, fun _ x hx => ⟨x, hx, .refl x⟩, fun j m hm => ?_⟩
    rcases eq_or_ne j s.nextInode with rfl | hne
    · simp only [State.setDevice, State.setInode, Function.update_self, Option.some.injEq] at hm
      subst hm
      exact .inl ⟨rfl, rfl⟩
    · simp only [State.setDevice, State.setInode, Function.update_of_ne hne] at hm
      exact .inr ⟨m, hm, .refl m⟩
  | @destroyInode i n d hn ho hl hd =>
    rw [State.dropInode, closeAndUnlink_eq]
    have h : Keeps s (State.setDevice { s with
        events := destroyEvents (s.lockedInode i) n.closed ++ s.events } n.device
        (some { d with inodes := d.inodes.filter (· ≠ i) })) := .of_eq rfl rfl rfl rfl rfl rfl
    exact h.trans (.dropInode _ i)
  | @leave f x i n hx hi hn =>
    have h₁ : Keeps s (s.setInode i (some { n with openFds := n.openFds.erase f })) :=
      .setInode hn ⟨rfl, rfl, List.erase_sublist, .refl _⟩
    refine (h₁.trans (.dropFd _ f)).trans (.addClosed ?_ x.closed)
    exact Function.update_self ..
  | @closeFd f x hx hi =>
    unfold State.closeFd
    split
    · exact (Keeps.dropFd s f).trans (.of_eq rfl rfl rfl rfl rfl rfl)
    · exact .dropFd s f
  | @unmountFd f x i n d y hx _ _ _ _ _ =>
    refine (Keeps.closeUnixFd s i true x.unixFd).trans (.setFd (x := x) ?_ ⟨rfl, rfl, rfl, .refl _⟩)
    rw [closeUnixFd_eq]
    exact hx
  | unmountPending hn _ _ _ => exact .closePending hn false

theorem Effects.keeps {s s' : State} (h : Effects s s') : Keeps s s' := by
  induction h with
  | refl => exact .refl _
  | tail _ he ih => exact ih.trans he.keeps

/-! ## What is done to the outside -/

def Event.mild : Event → Bool
  | .close _ locked b => !locked || b
  | e => e.quiet

/-- The later state has more events, and those are mild. -/
def Mildly (s s' : State) : Prop :=
  ∃ es, s'.events = es ++ s.events ∧ ∀ e ∈ es, e.mild = true

theorem Mildly.of_events {s s' : State} (h : s'.events = s.events) : Mildly s s' := ⟨[], h, by simp⟩

theorem Event.mild_of_quiet {e : Event} (h : e.quiet = true) : e.mild = true := by
  cases e <;> first | exact h | cases h

theorem closeEvents_mild {locked b : Bool} (h : locked = false ∨ b = true) (cs : List ClosedFd) :
    ∀ e ∈ closeEvents locked b cs, e.mild = true := by
  intro e he
  obtain ⟨u, -, rfl⟩ := List.mem_map.mp he
  rcases h with rfl | rfl
  · rfl
  · exact Bool.or_true _

theorem destroyEvents_mild (cs : List ClosedFd) : ∀ e ∈ destroyEvents false cs, e.mild = true := by
  induction cs with
  | nil => exact fun _ he => (by cases he)
  | cons c cs ih =>
    intro e he
    rcases List.mem_append.mp he with he | he
    · rcases List.mem_append.mp he with he | he
      · exact ih e he
      · split at he
        · cases he
        · rw [List.mem_singleton.mp he]
          rfl
    · obtain ⟨u, -, rfl⟩ := List.mem_map.mp he
      rfl

theorem mildly_closeUnixFd {s : State} {i : InodeId} {b : Bool}
    (h : s.lockedInode i = false ∨ b = true) (u : Option UnixFd) :
    Mildly s (s.closeUnixFd i b u) := by
  rw [closeUnixFd_eq]
  refine ⟨_, rfl, fun e he => ?_⟩
  obtain ⟨v, -, rfl⟩ := List.mem_map.mp he
  rcases h with h | rfl
  · rw [h]
    rfl
  · exact Bool.or_true _

theorem lockedInode_eq_false {s : State} {i : InodeId} {n : Inode} (hn : s.inode i = some n)
    (hl : n.locks = []) : s.lockedInode i = false := by
  simp [State.lockedInode, hn, hl]

theorem Effect.mildly {s s' : State} (h : Effect s s') : Mildly s s' := by
  cases h with
  | quiet h =>
    obtain ⟨es, he, hes⟩ := h.events
    exact ⟨es, he, fun e hm => Event.mild_of_quiet (hes e hm)⟩
  | closePending hn hl =>
    rw [closePending_eq]
    exact ⟨_, rfl, closeEvents_mild (.inl (lockedInode_eq_false hn hl)) _⟩
  | unmountPending _ _ _ _ =>
    rw [closePending_eq]
    exact ⟨_, rfl, closeEvents_mild (.inr rfl) _⟩
  | destroyInode hn _ hl _ =>
    rw [State.dropInode, closeAndUnlink_eq, lockedInode_eq_false hn hl]
    exact ⟨_, rfl, destroyEvents_mild _⟩
  | @leave f x i n hx _ hn =>
    unfold addClosed
    split
    · exact .of_events rfl
    · next hl =>
      have hclose : Mildly s ((s.dropFd f i n).closeUnixFd i false x.closed.unixFd) := by
        refine mildly_closeUnixFd (.inl (lockedInode_eq_false
          (n := { n with openFds := n.openFds.erase f }) (Function.update_self ..) ?_)) _
        simpa using hl
      split
      · exact hclose
      · exact hclose
  | closeFd _ _ =>
    unfold State.closeFd
    split
    · exact ⟨[_], rfl, by simp [Event.mild]⟩
    · exact .of_events rfl
  | @unmountFd f x i _ _ _ _ _ _ _ _ _ =>
    exact mildly_closeUnixFd (s := s) (i := i) (b := true) (.inr rfl) x.unixFd
  | _ => exact .of_events rfl

end Wine.FileDesc
