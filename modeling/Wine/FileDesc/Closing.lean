import Mathlib.Algebra.BigOperators.Group.Finset.Basic
import Wine.FileDesc.Linked

/-!
# When Unix descriptors are closed and names unlinked

A Unix descriptor belongs to one fd or to one entry of the closed list of one inode, until it is
closed. A name to unlink stays with an fd of the inode or in its closed list.
-/

namespace Wine.FileDesc
open Wine.Lib
open Wine.Server (Status Access)

/-! ## Counting -/

def Event.closes (u : UnixFd) : Event → Bool
  | .close v _ _ => decide (v = u)
  | _ => false

/-- Whether an fd has the Unix descriptor `u`. -/
def fdUnix (u : UnixFd) (x : Option Fd) : ℕ := if x.bind (·.unixFd) = some u then 1 else 0

/-- How often the closed list of an inode has it. -/
def pendingUnix (u : UnixFd) : Option Inode → ℕ
  | some n => n.closed.countP (·.unixFd = some u)
  | none => 0

namespace State

def sumFd (s : State) (u : UnixFd) : ℕ := ∑ f ∈ Finset.range s.nextFd, fdUnix u (s.fd f)

def sumPending (s : State) (u : UnixFd) : ℕ :=
  ∑ i ∈ Finset.range s.nextInode, pendingUnix u (s.inode i)

def closeCount (s : State) (u : UnixFd) : ℕ := s.events.countP (Event.closes u)

/-- How often the server has the Unix descriptor `u`, or has closed it. -/
def account (s : State) (u : UnixFd) : ℕ := s.sumFd u + s.sumPending u + s.closeCount u

end State

theorem sum_range_update {γ : Type} (F : γ → ℕ) (g : ℕ → γ) {N a : ℕ} (ha : a < N) (v : γ) :
    ∑ k ∈ Finset.range N, F (Function.update g a v k) + F (g a) =
      ∑ k ∈ Finset.range N, F (g k) + F v := by
  have hmem : a ∈ Finset.range N := Finset.mem_range.mpr ha
  rw [← Finset.sum_erase_add _ _ hmem, ← Finset.sum_erase_add (Finset.range N) _ hmem,
    Function.update_self]
  have hsame : ∑ k ∈ (Finset.range N).erase a, F (Function.update g a v k) =
      ∑ k ∈ (Finset.range N).erase a, F (g k) :=
    Finset.sum_congr rfl fun k hk => by rw [Function.update_of_ne (Finset.ne_of_mem_erase hk)]
  rw [hsame]
  omega

variable {s s' t : State} {u : UnixFd}

theorem sumFd_congr (hf : t.fd = s.fd) (hn : t.nextFd = s.nextFd) : t.sumFd u = s.sumFd u := by
  unfold State.sumFd
  rw [hf, hn]

theorem sumPending_congr (hi : t.inode = s.inode) (hn : t.nextInode = s.nextInode) :
    t.sumPending u = s.sumPending u := by
  unfold State.sumPending
  rw [hi, hn]

theorem sumFd_update {f : FdId} {v : Option Fd} (hlt : f < s.nextFd)
    (hf : t.fd = Function.update s.fd f v) (hn : t.nextFd = s.nextFd) :
    t.sumFd u + fdUnix u (s.fd f) = s.sumFd u + fdUnix u v := by
  unfold State.sumFd
  rw [hf, hn]
  exact sum_range_update (fdUnix u) s.fd hlt v

theorem sumPending_update {i : InodeId} {v : Option Inode} (hlt : i < s.nextInode)
    (hi : t.inode = Function.update s.inode i v) (hn : t.nextInode = s.nextInode) :
    t.sumPending u + pendingUnix u (s.inode i) = s.sumPending u + pendingUnix u v := by
  unfold State.sumPending
  rw [hi, hn]
  exact sum_range_update (pendingUnix u) s.inode hlt v

theorem closeCount_append {l : List Event} (h : t.events = l ++ s.events) :
    t.closeCount u = l.countP (Event.closes u) + s.closeCount u := by
  unfold State.closeCount
  rw [h, List.countP_append]

theorem closeCount_congr (h : t.events = s.events) : t.closeCount u = s.closeCount u := by
  unfold State.closeCount
  rw [h]

theorem countP_quiet {es : List Event} (h : ∀ e ∈ es, e.quiet = true) :
    es.countP (Event.closes u) = 0 := by
  rw [List.countP_eq_zero]
  intro e he
  have hq := h e he
  cases e <;> first | exact Bool.false_ne_true | cases hq

theorem countP_closeEvents (locked b : Bool) (cs : List ClosedFd) :
    (closeEvents locked b cs).countP (Event.closes u) = cs.countP (·.unixFd = some u) := by
  simp only [closeEvents, List.countP_map, List.countP_filterMap, List.countP_reverse]
  congr 1
  funext c
  cases hc : c.unixFd <;> simp [Event.closes]

theorem countP_toList (locked b : Bool) (o : Option UnixFd) :
    (o.toList.map (Event.close · locked b)).countP (Event.closes u) =
      if o = some u then 1 else 0 := by
  cases o <;> simp [Event.closes, List.countP_cons]

theorem countP_destroyEvents (locked : Bool) (cs : List ClosedFd) :
    (destroyEvents locked cs).countP (Event.closes u) = cs.countP (·.unixFd = some u) := by
  induction cs with
  | nil => rfl
  | cons c cs ih =>
    have hunlink : (if c.unlink = "" then [] else [Event.unlink c.unlink]).countP
        (Event.closes u) = 0 := by
      split <;> simp [Event.closes]
    rw [destroyEvents, List.countP_append, List.countP_append, ih, hunlink, countP_toList,
      List.countP_cons]
    simp

theorem countP_keptClosed (b : Bool) (cs : List ClosedFd) :
    (keptClosed b cs).countP (·.unixFd = some u) = 0 := by
  rw [List.countP_eq_zero]
  intro c hc
  unfold keptClosed at hc
  split at hc
  · obtain ⟨c', -, rfl⟩ := List.mem_map.mp hc
    simp
  · cases hc

/-! ## Nothing is lost or closed twice -/

theorem account_of_sums (hf : s'.sumFd u = s.sumFd u) (hp : s'.sumPending u = s.sumPending u)
    (hc : s'.closeCount u = s.closeCount u) : s'.account u = s.account u := by
  unfold State.account
  rw [hf, hp, hc]

theorem sumPending_setInode {i : InodeId} {n n' : Inode} (hn : s.inode i = some n)
    (h : n'.closed = n.closed) (hlt : i < s.nextInode) :
    (s.setInode i (some n')).sumPending u = s.sumPending u := by
  have hs := sumPending_update (u := u) (t := s.setInode i (some n')) hlt rfl rfl
  simp only [hn, pendingUnix, h] at hs
  omega

theorem account_closePending {i : InodeId} {n : Inode} (hn : s.inode i = some n)
    (hlt : i < s.nextInode) (b : Bool) : (s.closePending i n b).account u = s.account u := by
  rw [closePending_eq]
  set s' := State.setInode { s with
    events := closeEvents (s.lockedInode i) (!b) n.closed ++ s.events } i
    (some { n with closed := keptClosed b n.closed }) with hs'
  have hfd : s'.sumFd u = s.sumFd u := sumFd_congr rfl rfl
  have hpend := sumPending_update (u := u) (s := s) (t := s') hlt rfl rfl
  have hclose : s'.closeCount u = _ + s.closeCount u := closeCount_append rfl
  simp only [hn, pendingUnix, countP_keptClosed, countP_closeEvents] at hpend hclose
  unfold State.account
  omega

theorem account_closeUnixFd (i : InodeId) (b : Bool) (v : Option UnixFd) :
    (s.closeUnixFd i b v).account u = s.account u + if v = some u then 1 else 0 := by
  rw [closeUnixFd_eq]
  set s' := { s with events := v.toList.map (Event.close · (s.lockedInode i) b) ++ s.events }
  have hclose : s'.closeCount u = _ + s.closeCount u := closeCount_append rfl
  have hfd : s'.sumFd u = s.sumFd u := sumFd_congr rfl rfl
  have hpend : s'.sumPending u = s.sumPending u := sumPending_congr rfl rfl
  rw [countP_toList] at hclose
  unfold State.account
  omega

theorem account_addClosed {i : InodeId} {n : Inode} (hn : s.inode i = some n)
    (hlt : i < s.nextInode) (c : ClosedFd) :
    (addClosed s i n c).account u = s.account u + if c.unixFd = some u then 1 else 0 := by
  have hset : ∀ t : State, t.inode i = some n → t.nextInode = s.nextInode → ∀ c' : ClosedFd,
      (t.setInode i (some { n with closed := c' :: n.closed })).account u =
        t.account u + if c'.unixFd = some u then 1 else 0 := by
    intro t ht hnext c'
    have hpend := sumPending_update (u := u) (s := t)
      (t := t.setInode i (some { n with closed := c' :: n.closed })) (hnext ▸ hlt) rfl rfl
    simp only [ht, pendingUnix, List.countP_cons, decide_eq_true_eq] at hpend
    unfold State.account
    rw [sumFd_congr (s := t) (t := t.setInode i _) rfl rfl,
      closeCount_congr (s := t) (t := t.setInode i _) rfl]
    omega
  unfold addClosed
  split
  · exact hset s hn rfl c
  · split
    · have hclose := account_closeUnixFd (s := s) (u := u) i false c.unixFd
      rw [hset _ (by rw [closeUnixFd_eq]; exact hn) (by rw [closeUnixFd_eq]), hclose]
      simp
    · exact account_closeUnixFd i false c.unixFd

/-- The Unix descriptor that is closed for an fd is its own. -/
def ClosedEq (s : State) : Prop :=
  ∀ f x, s.fd f = some x → x.inode.isSome → x.closed.unixFd = x.unixFd

theorem Effect.account_eq (h : Effect s s') (hl : Linked s) (hc : ClosedEq s) :
    s'.account u = s.account u := by
  cases h with
  | quiet h =>
    obtain ⟨es, he, hes⟩ := h.events
    have hclose := closeCount_append (u := u) he
    rw [countP_quiet hes] at hclose
    exact account_of_sums (sumFd_congr h.fd h.nextFd) (sumPending_congr h.inode h.nextInode)
      (hclose.trans (Nat.zero_add _))
  | @fsLocks f x b hx =>
    have hf := sumFd_update (u := u) (t := s.setFd f (some { x with fsLocks := b }))
      (hl.fd_lt f x hx) rfl rfl
    simp only [hx, fdUnix, Option.bind_some] at hf
    exact account_of_sums (by omega) (sumPending_congr rfl rfl) (closeCount_congr rfl)
  | @freeLock l x i n p hx hi hn =>
    obtain ⟨m, hm, -⟩ := hl.fd_inode _ x i hx hi
    set s' := (s.unlinkLock l (s.lock l).fd x i n p).setLock l { s.lock l with process := none }
    have hf := sumFd_update (u := u) (s := s) (t := s') (hl.fd_lt _ x hx) rfl rfl
    have hp := sumPending_update (u := u) (s := s) (t := s') (hl.inode_lt i n hn) rfl rfl
    simp only [hx, fdUnix, Option.bind_some] at hf
    simp only [hn, pendingUnix] at hp
    exact account_of_sums (by omega) (by omega) (closeCount_congr rfl)
  | closePending hn _ => exact account_closePending hn (hl.inode_lt _ _ hn) true
  | unmountPending hn _ _ _ => exact account_closePending hn (hl.inode_lt _ _ hn) false
  | inodeRefcount r hn =>
    exact account_of_sums (sumFd_congr rfl rfl) (sumPending_setInode hn rfl (hl.inode_lt _ _ hn))
      (closeCount_congr rfl)
  | @createInode d y ino hy =>
    refine account_of_sums (sumFd_congr rfl rfl) ?_ (closeCount_congr rfl)
    unfold State.sumPending
    simp only [State.setDevice, State.setInode]
    rw [Finset.sum_range_succ, Function.update_self]
    refine (Nat.add_zero _).trans (Finset.sum_congr rfl fun i hi => ?_)
    rw [Function.update_of_ne (Finset.mem_range.mp hi).ne]
  | @destroyInode i n d hn ho hlocks hd =>
    rw [State.dropInode, closeAndUnlink_eq]
    set s' := State.setInode (State.setDevice { s with
      events := destroyEvents (s.lockedInode i) n.closed ++ s.events } n.device
      (some { d with inodes := d.inodes.filter (· ≠ i) })) i none
    have hfd : s'.sumFd u = s.sumFd u := sumFd_congr rfl rfl
    have hp := sumPending_update (u := u) (s := s) (t := s') (hl.inode_lt i n hn) rfl rfl
    have hclose : s'.closeCount u = _ + s.closeCount u := closeCount_append rfl
    simp only [hn, pendingUnix, countP_destroyEvents] at hp hclose
    unfold State.account
    omega
  | @leave f x i n hx hi hn =>
    have hf := sumFd_update (u := u) (s := s) (t := s.dropFd f i n) (hl.fd_lt f x hx) rfl rfl
    have hp := sumPending_update (u := u) (s := s) (t := s.dropFd f i n) (hl.inode_lt i n hn)
      rfl rfl
    have hadd := account_addClosed (u := u) (s := s.dropFd f i n) (i := i)
      (n := { n with openFds := n.openFds.erase f }) (Function.update_self ..)
      (hl.inode_lt i n hn) x.closed
    rw [hadd, hc f x hx (by rw [hi]; rfl)]
    simp only [hx, fdUnix, Option.bind_some, Option.bind_none, reduceCtorEq, if_false] at hf
    simp only [hn, pendingUnix] at hp
    unfold State.account
    rw [closeCount_congr (s := s) (t := s.dropFd f i n) rfl]
    omega
  | @closeFd f x hx hi =>
    have hf := sumFd_update (u := u) (s := s) (t := s.closeFd f x) (hl.fd_lt f x hx)
      (v := none) (by unfold State.closeFd; split <;> rfl) (by unfold State.closeFd; split <;> rfl)
    have hp : (s.closeFd f x).sumPending u = s.sumPending u := by
      unfold State.closeFd
      split <;> exact sumPending_congr rfl rfl
    have hclose : (s.closeFd f x).closeCount u =
        (if x.unixFd = some u then 1 else 0) + s.closeCount u := by
      unfold State.closeFd
      split
      · next v hv => simp [State.closeCount, State.record, State.setFd, Event.closes, hv,
          List.countP_cons, Nat.add_comm]
      · next hv => simp [State.closeCount, State.setFd, hv]
    simp only [hx, fdUnix, Option.bind_some, Option.bind_none, reduceCtorEq, if_false] at hf
    unfold State.account
    omega
  | @unmountFd f x i n d y hx hn hf hy hi hev =>
    have hclose := account_closeUnixFd (s := s) (u := u) i true x.unixFd
    have hfd := sumFd_update (u := u) (s := s.closeUnixFd i true x.unixFd)
      (t := s.unmountFd i f x) (f := f) (by rw [closeUnixFd_eq]; exact hl.fd_lt f x hx) rfl rfl
    have hsame : (s.closeUnixFd i true x.unixFd).fd f = some x := by rw [closeUnixFd_eq]; exact hx
    simp only [hsame, fdUnix, Option.bind_some, reduceCtorEq, if_false] at hfd
    unfold State.account at hclose ⊢
    rw [sumPending_congr (s := s.closeUnixFd i true x.unixFd) (t := s.unmountFd i f x) rfl rfl,
      closeCount_congr (s := s.closeUnixFd i true x.unixFd) (t := s.unmountFd i f x) rfl]
    omega
  | _ => exact account_of_sums (sumFd_congr rfl rfl) (sumPending_congr rfl rfl) (closeCount_congr rfl)

/-! ## Where Unix descriptors are -/

/-- Each descriptor in the later state was there before, with the same inode, and is as it was or has
been unmounted. -/
theorem Effect.fd_from {f : FdId} {x' : Fd} (h : Effect s s') (hx' : s'.fd f = some x') :
    ∃ x, s.fd f = some x ∧ x'.inode = x.inode ∧
      ((x'.unixFd = x.unixFd ∧ x'.closed = x.closed) ∨
        (x'.unixFd = none ∧ x'.closed = ⟨none, ""⟩)) := by
  have hset : ∀ {t : State} {g : FdId} {y z : Fd}, s.fd g = some y →
      t.fd = Function.update s.fd g (some z) → z.inode = y.inode →
      ((z.unixFd = y.unixFd ∧ z.closed = y.closed) ∨
        (z.unixFd = none ∧ z.closed = ⟨none, ""⟩)) → t.fd f = some x' →
      ∃ x, s.fd f = some x ∧ x'.inode = x.inode ∧
        ((x'.unixFd = x.unixFd ∧ x'.closed = x.closed) ∨
          (x'.unixFd = none ∧ x'.closed = ⟨none, ""⟩)) := by
    intro t g y z hy ht hi hu hx
    rw [ht] at hx
    rcases eq_or_ne f g with rfl | hne
    · rw [Function.update_self, Option.some.injEq] at hx
      exact ⟨y, hy, hx ▸ hi, hx ▸ hu⟩
    · rw [Function.update_of_ne hne] at hx
      exact ⟨x', hx, rfl, .inl ⟨rfl, rfl⟩⟩
  have hdrop : ∀ {t : State} {g : FdId}, t.fd = Function.update s.fd g none → t.fd f = some x' →
      s.fd f = some x' := by
    intro t g ht hx
    rw [ht] at hx
    rcases eq_or_ne f g with rfl | hne
    · simp only [Function.update_self, reduceCtorEq] at hx
    · rwa [Function.update_of_ne hne] at hx
  have hsame : s'.fd = s.fd → ∃ x, s.fd f = some x ∧ x'.inode = x.inode ∧
      ((x'.unixFd = x.unixFd ∧ x'.closed = x.closed) ∨
        (x'.unixFd = none ∧ x'.closed = ⟨none, ""⟩)) :=
    fun he => ⟨x', he ▸ hx', rfl, .inl ⟨rfl, rfl⟩⟩
  cases h with
  | quiet h => exact hsame h.fd
  | @fsLocks g x b hx =>
    exact hset (z := { x with fsLocks := b }) hx rfl rfl (.inl ⟨rfl, rfl⟩) hx'
  | @freeLock l x _ _ p hx _ _ =>
    exact hset (z := { x with locks := x.locks.erase l }) hx rfl rfl (.inl ⟨rfl, rfl⟩) hx'
  | closePending _ _ | unmountPending _ _ _ _ => exact hsame (by rw [closePending_eq]; rfl)
  | destroyInode _ _ _ _ => exact hsame (by rw [State.dropInode, closeAndUnlink_eq]; rfl)
  | @leave g x i n _ _ _ =>
    refine ⟨x', hdrop (g := g) ?_ hx', rfl, .inl ⟨rfl, rfl⟩⟩
    unfold addClosed
    simp only [closeUnixFd_eq]
    split
    · rfl
    · split <;> rfl
  | @closeFd g x _ _ =>
    refine ⟨x', hdrop (g := g) ?_ hx', rfl, .inl ⟨rfl, rfl⟩⟩
    unfold State.closeFd
    split <;> rfl
  | @unmountFd g x _ _ _ _ hx _ _ _ _ _ =>
    refine hset (z := { x with
      unixFd := none
      unmounted := true
      closed := ⟨none, ""⟩
      fsLocks := false }) hx ?_ rfl (.inr ⟨rfl, rfl⟩) hx'
    rw [State.unmountFd, closeUnixFd_eq]
    rfl
  | _ => exact hsame rfl

/-- What an effect does to the closed list of an inode. -/
inductive ClosedStep (s s' : State) (i : InodeId) (n n' : Inode) : Prop
  | same : n'.closed = n.closed → ClosedStep s s' i n n'
  | kept : n'.closed = keptClosed true n.closed → ClosedStep s s' i n n'
  | unmounted : n'.closed = [] → .unmount n.device ∈ s'.events → ClosedStep s s' i n n'
  | left {f : FdId} {x : Fd} {c : ClosedFd} : s.fd f = some x → x.inode = some i →
      c.unlink = x.closed.unlink → (c.unixFd = none ∨ c.unixFd = x.closed.unixFd) →
      n'.closed = c :: n.closed → ClosedStep s s' i n n'

theorem addClosed_inode (t : State) (i : InodeId) (n : Inode) (c : ClosedFd) :
    ((addClosed t i n c).inode = t.inode ∧ c.unlink = "") ∨
      ∃ c', (addClosed t i n c).inode =
        Function.update t.inode i (some { n with closed := c' :: n.closed }) ∧
        c'.unlink = c.unlink ∧ (c'.unixFd = none ∨ c'.unixFd = c.unixFd) := by
  unfold addClosed
  simp only [closeUnixFd_eq]
  split
  · exact .inr ⟨c, rfl, rfl, .inr rfl⟩
  · split
    · exact .inr ⟨{ c with unixFd := none }, rfl, rfl, .inl rfl⟩
    · next h => exact .inl ⟨rfl, by simpa using h⟩

theorem Effect.inode_from {i : InodeId} {n' : Inode} (h : Effect s s') (hl : Linked s)
    (hn' : s'.inode i = some n') :
    (i = s.nextInode ∧ n'.closed = []) ∨
      ∃ n, s.inode i = some n ∧ n'.device = n.device ∧ ClosedStep s s' i n n' := by
  have hsame : s'.inode = s.inode → (i = s.nextInode ∧ n'.closed = []) ∨
      ∃ n, s.inode i = some n ∧ n'.device = n.device ∧ ClosedStep s s' i n n' :=
    fun he => .inr ⟨n', he ▸ hn', rfl, .same rfl⟩
  have hset : ∀ {j : InodeId} {m k : Inode}, s.inode j = some m →
      s'.inode = Function.update s.inode j (some k) → k.device = m.device →
      (j = i → ClosedStep s s' i m k) → (i = s.nextInode ∧ n'.closed = []) ∨
      ∃ n, s.inode i = some n ∧ n'.device = n.device ∧ ClosedStep s s' i n n' := by
    intro j m k hm ht hd hc
    rw [ht] at hn'
    rcases eq_or_ne i j with rfl | hne
    · rw [Function.update_self, Option.some.injEq] at hn'
      subst hn'
      exact .inr ⟨m, hm, hd, hc rfl⟩
    · rw [Function.update_of_ne hne] at hn'
      exact .inr ⟨n', hn', rfl, .same rfl⟩
  cases h with
  | quiet h => exact hsame h.inode
  | @freeLock l x j n p _ _ hn =>
    exact hset (k := { n with locks := n.locks.erase l }) hn rfl rfl fun _ => .same rfl
  | @closePending j n hn _ =>
    exact hset (k := { n with closed := keptClosed true n.closed }) hn (by rw [closePending_eq]; rfl)
      rfl fun _ => .kept rfl
  | @unmountPending j n d y hn hy hj hev =>
    refine hset (k := { n with closed := keptClosed false n.closed }) hn
      (by rw [closePending_eq]; rfl) rfl fun _ => .unmounted rfl ?_
    obtain ⟨m, hm, hd⟩ := hl.device_inode d y j hy hj
    cases hn.symm.trans hm
    rw [closePending_eq, hd]
    exact List.mem_append_right _ hev
  | @inodeRefcount j n r hn =>
    exact hset (k := { n with refcount := r }) hn rfl rfl fun _ => .same rfl
  | @createInode d y ino hy =>
    simp only [State.setDevice, State.setInode] at hn'
    rcases eq_or_ne i s.nextInode with rfl | hne
    · rw [Function.update_self, Option.some.injEq] at hn'
      subst hn'
      exact .inl ⟨rfl, rfl⟩
    · rw [Function.update_of_ne hne] at hn'
      exact .inr ⟨n', hn', rfl, .same rfl⟩
  | @destroyInode j n d hn _ _ _ =>
    rw [State.dropInode, closeAndUnlink_eq] at hn'
    simp only [State.setInode, State.setDevice] at hn'
    rcases eq_or_ne i j with rfl | hne
    · simp only [Function.update_self, reduceCtorEq] at hn'
    · rw [Function.update_of_ne hne] at hn'
      exact .inr ⟨n', hn', rfl, .same rfl⟩
  | @leave f x j n hx hj hn =>
    rcases addClosed_inode (s.dropFd f j n) j { n with openFds := n.openFds.erase f } x.closed with
      ⟨he, -⟩ | ⟨c, he, hc, hu⟩
    · exact hset (k := { n with openFds := n.openFds.erase f }) hn he rfl fun _ => .same rfl
    · refine hset (k := { n with
        openFds := n.openFds.erase f
        closed := c :: n.closed }) hn (he.trans (Function.update_idem ..)) rfl fun h => ?_
      exact .left hx (h ▸ hj) hc hu rfl
  | closeFd _ _ =>
    refine hsame ?_
    unfold State.closeFd
    split <;> rfl
  | unmountFd _ _ _ _ _ _ =>
    refine hsame ?_
    rw [State.unmountFd, closeUnixFd_eq]
    rfl
  | _ => exact hsame rfl

end Wine.FileDesc
