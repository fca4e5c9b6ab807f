import Mathlib.Algebra.Order.BigOperators.Group.Finset
import Wine.FileDesc.Closing

/-!
# Deferred closing

In every run, a Unix descriptor of an inode is closed exactly once by the time the inode is gone,
never while the inode of a mounted device is locked, and a name to unlink is not forgotten before.
-/

namespace Wine.FileDesc
open Wine.Lib
open Wine.Server (Status Access)

/-! ## Unix descriptors -/

/-- There is one place for each Unix descriptor, and it belongs to the inode it was opened for. -/
structure Tracked (s : State) : Prop where
  account : ∀ u, s.account u = if u < s.nextUnix then 1 else 0
  closed_eq : ClosedEq s
  fd_home : ∀ f x u i, s.fd f = some x → x.unixFd = some u →
    (x.inode = some i ↔ .opened u (some i) ∈ s.events)
  closed_home : ∀ i n c u, s.inode i = some n → c ∈ n.closed → c.unixFd = some u →
    .opened u (some i) ∈ s.events
  opened_lt : ∀ u i, .opened u (some i) ∈ s.events → u < s.nextUnix
  opened_unique : ∀ u i j, .opened u (some i) ∈ s.events → .opened u (some j) ∈ s.events → i = j

variable {s s' : State}

theorem Mildly.mem_iff (h : Mildly s s') {e : Event} (he : e.mild = false) :
    e ∈ s'.events ↔ e ∈ s.events := by
  obtain ⟨es, hes, hmild⟩ := h
  rw [hes, List.mem_append, or_iff_right]
  intro hm
  exact absurd (hmild e hm) (by rw [he]; exact Bool.false_ne_true)

theorem Mildly.mem_of_mem (h : Mildly s s') {e : Event} (he : e ∈ s.events) : e ∈ s'.events := by
  obtain ⟨es, hes, -⟩ := h
  rw [hes]
  exact List.mem_append_right _ he

/-- A change that moves no Unix descriptor to another inode. -/
theorem Tracked.congr (ht : Tracked s) (hacc : ∀ u, s'.account u = s.account u)
    (hnext : s'.nextUnix = s.nextUnix)
    (hopened : ∀ u i, .opened u (some i) ∈ s'.events ↔ .opened u (some i) ∈ s.events)
    (hfd : ∀ f x', s'.fd f = some x' → (x'.unixFd = none ∧ x'.closed.unixFd = none) ∨
      ∃ x, s.fd f = some x ∧ x'.inode = x.inode ∧ x'.unixFd = x.unixFd ∧
        x'.closed.unixFd = x.closed.unixFd)
    (hclosed : ∀ i n' c u, s'.inode i = some n' → c ∈ n'.closed → c.unixFd = some u →
      (∃ n, s.inode i = some n ∧ c ∈ n.closed) ∨ .opened u (some i) ∈ s.events) :
    Tracked s' where
  account u := by rw [hacc u, hnext, ht.account u]
  closed_eq f x' hx' hi := by
    rcases hfd f x' hx' with ⟨hu, hc⟩ | ⟨x, hx, hxi, hu, hc⟩
    · rw [hu, hc]
    · rw [hu, hc]
      exact ht.closed_eq f x hx (hxi ▸ hi)
  fd_home f x' u i hx' hu := by
    rcases hfd f x' hx' with ⟨hxu, -⟩ | ⟨x, hx, hxi, hxu, -⟩
    · rw [hxu] at hu
      cases hu
    · rw [hopened, hxi]
      exact ht.fd_home f x u i hx (hxu ▸ hu)
  closed_home i n' c u hn' hc hu := by
    rw [hopened]
    rcases hclosed i n' c u hn' hc hu with ⟨n, hn, hc⟩ | h
    · exact ht.closed_home i n c u hn hc hu
    · exact h
  opened_lt u i h := by
    rw [hnext]
    exact ht.opened_lt u i ((hopened u i).mp h)
  opened_unique u i j hi hj := ht.opened_unique u i j ((hopened u i).mp hi) ((hopened u j).mp hj)

theorem Effect.tracked (h : Effect s s') (hl : Linked s) (ht : Tracked s) : Tracked s' := by
  have hm := h.mildly
  refine ht.congr (fun u => h.account_eq hl ht.closed_eq) h.keeps.nextUnix_eq
    (fun u i => hm.mem_iff rfl) (fun f x' hx' => ?_) fun i n' c u hn' hc hu => ?_
  · obtain ⟨x, hx, hi, ⟨hu, hc⟩ | ⟨hu, hc⟩⟩ := h.fd_from hx'
    · exact .inr ⟨x, hx, hi, hu, by rw [hc]⟩
    · exact .inl ⟨hu, by rw [hc]⟩
  · rcases h.inode_from hl hn' with ⟨-, hnil⟩ | ⟨n, hn, -, hstep⟩
    · rw [hnil] at hc
      cases hc
    · cases hstep with
      | same he => exact .inl ⟨n, hn, he ▸ hc⟩
      | kept he =>
        rw [he, keptClosed, if_pos rfl] at hc
        obtain ⟨c', -, rfl⟩ := List.mem_map.mp hc
        cases hu
      | unmounted he _ =>
        rw [he] at hc
        cases hc
      | @left f x c' hx hi _ hfrom he =>
        rw [he] at hc
        rcases List.mem_cons.mp hc with rfl | hc
        · rcases hfrom with hnone | hfrom
          · rw [hnone] at hu
            cases hu
          · refine .inr ((ht.fd_home f x u i hx ?_).mp hi)
            rw [← ht.closed_eq f x hx (by rw [hi]; rfl), ← hfrom, hu]
        · exact .inl ⟨n, hn, hc⟩

/-- Two descriptors do not have the same Unix descriptor. -/
theorem Tracked.fd_unique (ht : Tracked s) (hl : Linked s) {f g : FdId} {x y : Fd} {u : UnixFd}
    (hx : s.fd f = some x) (hy : s.fd g = some y) (hu : x.unixFd = some u)
    (hv : y.unixFd = some u) : f = g := by
  by_contra hne
  have hle : s.sumFd u ≤ 1 := by
    have hacc := ht.account u
    unfold State.account at hacc
    split at hacc <;> omega
  have hpair : ∑ k ∈ {f, g}, fdUnix u (s.fd k) ≤ s.sumFd u := by
    refine Finset.sum_le_sum_of_subset fun k hk => ?_
    rw [Finset.mem_insert, Finset.mem_singleton] at hk
    rcases hk with rfl | rfl
    · exact Finset.mem_range.mpr (hl.fd_lt _ x hx)
    · exact Finset.mem_range.mpr (hl.fd_lt _ y hy)
  rw [Finset.sum_pair hne] at hpair
  simp only [fdUnix, hx, hy, Option.bind_some, hu, hv, if_true] at hpair
  omega

theorem Tracked.giveUnixFd (ht : Tracked s) (hl : Linked s) {f : FdId} {x : Fd}
    (hx : s.fd f = some x) (hi : x.inode = none) (hu : x.unixFd = none) :
    Tracked (s.giveUnixFd f x) := by
  have hnew : ∀ i, .opened s.nextUnix (some i) ∉ s.events := fun i h =>
    lt_irrefl _ (ht.opened_lt _ i h)
  refine ⟨fun u => ?_, fun g y hy hg => ?_, fun g y u i hy hv => ?_, ht.closed_home,
    fun u i h => (ht.opened_lt u i h).trans (Nat.lt_succ_self _), ht.opened_unique⟩
  · have hacc := ht.account u
    have hsum := sumFd_update (u := u) (s := s) (t := s.giveUnixFd f x) (hl.fd_lt f x hx) rfl rfl
    simp only [hx, fdUnix, Option.bind_some, hu, reduceCtorEq, if_false, Option.some.injEq] at hsum
    unfold State.account at hacc ⊢
    rw [sumPending_congr (s := s) (t := s.giveUnixFd f x) rfl rfl,
      closeCount_congr (s := s) (t := s.giveUnixFd f x) rfl]
    have hnext : (s.giveUnixFd f x).nextUnix = s.nextUnix + 1 := rfl
    rw [hnext]
    rcases eq_or_ne s.nextUnix u with rfl | hne
    · rw [if_pos rfl] at hsum
      rw [if_neg (lt_irrefl _)] at hacc
      rw [if_pos (Nat.lt_succ_self _)]
      omega
    · rw [if_neg hne] at hsum
      have hiff : u < s.nextUnix + 1 ↔ u < s.nextUnix :=
        ⟨fun h => lt_of_le_of_ne (Nat.lt_succ_iff.mp h) hne.symm, fun h => h.trans (Nat.lt_succ_self _)⟩
      simp only [hiff]
      omega
  all_goals
    simp only [State.giveUnixFd, State.setFd] at hy
    rcases eq_or_ne g f with rfl | hne
  · rw [Function.update_self, Option.some.injEq] at hy
    subst hy
    simp [hi] at hg
  · rw [Function.update_of_ne hne] at hy
    exact ht.closed_eq g y hy hg
  · rw [Function.update_self, Option.some.injEq] at hy
    subst hy
    cases hv
    simp only [hi, reduceCtorEq, false_iff]
    exact hnew i
  · rw [Function.update_of_ne hne] at hy
    exact ht.fd_home g y u i hy hv

theorem Tracked.join (ht : Tracked s) (hl : Linked s) {f : FdId} {x : Fd} {i : InodeId} {n : Inode}
    {u : UnixFd} (hx : s.fd f = some x) (hi : x.inode = none) (hu : x.unixFd = some u)
    (hn : s.inode i = some n) : Tracked (s.join f x i n u) := by
  have hnot : ∀ j, .opened u (some j) ∉ s.events := by
    intro j h
    have := (ht.fd_home f x u j hx hu).mpr h
    rw [hi] at this
    cases this
  have hmem : ∀ v j, .opened v (some j) ∈ (s.join f x i n u).events ↔
      (v = u ∧ j = i) ∨ .opened v (some j) ∈ s.events := by
    intro v j
    simp [State.join, State.setInode, State.setFd, State.record]
  refine ⟨fun v => ?_, fun g y hy hg => ?_, fun g y v j hy hv => ?_, fun j m c v hm hc hv => ?_,
    fun v j h => ?_, fun v j k hj hk => ?_⟩
  · have hf := sumFd_update (u := v) (s := s) (t := s.join f x i n u) (hl.fd_lt f x hx) rfl rfl
    have hp := sumPending_update (u := v) (s := s) (t := s.join f x i n u) (hl.inode_lt i n hn)
      rfl rfl
    have hc := closeCount_append (u := v) (s := s) (t := s.join f x i n u) (l := [_]) rfl
    simp only [hx, fdUnix, Option.bind_some] at hf
    simp only [hn, pendingUnix] at hp
    simp only [List.countP_cons, List.countP_nil, Event.closes, Bool.false_eq_true, if_false,
      Nat.zero_add] at hc
    have hacc := ht.account v
    unfold State.account at hacc ⊢
    have hnext : (s.join f x i n u).nextUnix = s.nextUnix := rfl
    rw [hnext, ← hacc]
    omega
  · simp only [State.join, State.setInode, State.setFd, State.record] at hy
    rcases eq_or_ne g f with rfl | hne
    · rw [Function.update_self, Option.some.injEq] at hy
      subst hy
      exact hu.symm
    · rw [Function.update_of_ne hne] at hy
      exact ht.closed_eq g y hy hg
  · rw [hmem]
    simp only [State.join, State.setInode, State.setFd, State.record] at hy
    rcases eq_or_ne g f with rfl | hne
    · rw [Function.update_self, Option.some.injEq] at hy
      subst hy
      cases hu.symm.trans hv
      simp [hnot, eq_comm]
    · rw [Function.update_of_ne hne] at hy
      rw [ht.fd_home g y v j hy hv, or_iff_right]
      rintro ⟨rfl, -⟩
      exact hne (ht.fd_unique hl hy hx hv hu)
  · rw [hmem]
    simp only [State.join, State.setInode, State.setFd, State.record] at hm
    rcases eq_or_ne j i with rfl | hne
    · rw [Function.update_self, Option.some.injEq] at hm
      subst hm
      exact .inr (ht.closed_home _ n c v hn hc hv)
    · rw [Function.update_of_ne hne] at hm
      exact .inr (ht.closed_home j m c v hm hc hv)
  · rcases (hmem v j).mp h with ⟨rfl, rfl⟩ | h
    · change v < s.nextUnix
      by_contra hge
      have hacc := ht.account v
      rw [if_neg hge] at hacc
      have hpos : fdUnix v (s.fd f) ≤ s.sumFd v :=
        Finset.single_le_sum (f := fun k => fdUnix v (s.fd k)) (fun _ _ => Nat.zero_le _)
          (Finset.mem_range.mpr (hl.fd_lt f x hx))
      simp only [fdUnix, hx, Option.bind_some, hu, if_true] at hpos
      unfold State.account at hacc
      omega
    · exact ht.opened_lt v j h
  · rcases (hmem v j).mp hj with ⟨rfl, rfl⟩ | hj' <;> rcases (hmem _ k).mp hk with ⟨hv, rfl⟩ | hk'
    · rfl
    · exact absurd hk' (hnot k)
    · subst hv
      exact absurd hj' (hnot j)
    · exact ht.opened_unique v j k hj' hk'

/-- A change of an fd that leaves its inode and its Unix descriptor. -/
theorem Tracked.setFd (ht : Tracked s) (hl : Linked s) {f : FdId} {x x' : Fd}
    (hx : s.fd f = some x) (hfd : s'.fd = Function.update s.fd f (some x'))
    (hi : x'.inode = x.inode) (hu : x'.unixFd = x.unixFd)
    (hc : x'.closed.unixFd = x.closed.unixFd)
    (hnextFd : s'.nextFd = s.nextFd) (hnextUnix : s'.nextUnix = s.nextUnix)
    (hpending : ∀ u, s'.sumPending u = s.sumPending u)
    (hclosed : ∀ i n', s'.inode i = some n' → ∃ n, s.inode i = some n ∧ n'.closed = n.closed)
    (hcount : ∀ u, s'.closeCount u = s.closeCount u)
    (hopened : ∀ u i, .opened u (some i) ∈ s'.events ↔ .opened u (some i) ∈ s.events) :
    Tracked s' := by
  refine ht.congr (fun u => account_of_sums ?_ (hpending u) (hcount u)) hnextUnix hopened
    (fun g y hy => ?_) fun i n' c u hn' hcm _ => ?_
  · have hsum := sumFd_update (u := u) (hl.fd_lt f x hx) hfd hnextFd
    simp only [hx, fdUnix, Option.bind_some, hu] at hsum
    omega
  · rw [hfd] at hy
    rcases eq_or_ne g f with rfl | hne
    · rw [Function.update_self, Option.some.injEq] at hy
      subst hy
      exact .inr ⟨x, hx, hi, hu, hc⟩
    · rw [Function.update_of_ne hne] at hy
      exact .inr ⟨y, hy, rfl, rfl, rfl⟩
  · obtain ⟨n, hn, he⟩ := hclosed i n' hn'
    exact .inl ⟨n, hn, he ▸ hcm⟩

theorem Change.tracked (h : Change s s') (hl : Linked s) (ht : Tracked s) : Tracked s' := by
  have hopened : ∀ e : Event, (∀ u i, e ≠ .opened u (some i)) → ∀ u i,
      .opened u (some i) ∈ e :: s.events ↔ .opened u (some i) ∈ s.events := by
    intro e he u i
    rw [List.mem_cons, or_iff_right (he u i).symm]
  have hrecord : ∀ e : Event, (∀ u i, e ≠ .opened u (some i)) → (∀ u, e.closes u = false) →
      Tracked (s.record e) := by
    intro e he hcl
    refine ht.congr (fun u => account_of_sums (sumFd_congr rfl rfl) (sumPending_congr rfl rfl) ?_)
      rfl (hopened e he) (fun f x hx => .inr ⟨x, hx, rfl, rfl, rfl⟩)
      fun i n c u hn hc _ => .inl ⟨n, hn, hc⟩
    simp [State.closeCount, State.record, hcl]
  cases h with
  | effect h => exact h.tracked hl ht
  | allocFd =>
    refine ht.congr (fun u => account_of_sums ?_ (sumPending_congr rfl rfl) (closeCount_congr rfl))
      rfl (fun _ _ => Iff.rfl) (fun f x' hx' => ?_) fun i n c u hn hc _ => .inl ⟨n, hn, hc⟩
    · unfold State.sumFd
      simp only [State.allocFd, State.setFd]
      rw [Finset.sum_range_succ, Function.update_self]
      refine (Nat.add_zero _).trans (Finset.sum_congr rfl fun f hf => ?_)
      rw [Function.update_of_ne (Finset.mem_range.mp hf).ne]
    · simp only [State.allocFd, State.setFd] at hx'
      rcases eq_or_ne f s.nextFd with rfl | hne
      · rw [Function.update_self, Option.some.injEq] at hx'
        exact .inl (hx' ▸ ⟨rfl, rfl⟩)
      · rw [Function.update_of_ne hne] at hx'
        exact .inr ⟨x', hx', rfl, rfl, rfl⟩
  | giveUnixFd hx hi hu => exact ht.giveUnixFd hl hx hi hu
  | openedSpecial u => exact hrecord _ (fun _ _ h => (by cases h)) fun _ => rfl
  | join hx hi hu _ hn => exact ht.join hl hx hi hu hn
  | share access sharing hx =>
    exact ht.setFd hl hx rfl rfl rfl rfl rfl rfl (fun _ => sumPending_congr rfl rfl)
      (fun i n hn => ⟨n, hn, rfl⟩) (fun _ => rfl) fun _ _ => Iff.rfl
  | pendUnlink name hx _ _ =>
    exact ht.setFd hl hx rfl rfl rfl rfl rfl rfl (fun _ => sumPending_congr rfl rfl)
      (fun i n hn => ⟨n, hn, rfl⟩) (fun _ => rfl) (hopened _ fun _ _ h => (by cases h))
  | truncate u => exact hrecord _ (fun _ _ h => (by cases h)) fun _ => rfl
  | @addLock f x i n p shared start end_ hx hi hn _ _ =>
    refine ht.setFd hl hx rfl rfl rfl rfl rfl rfl (fun u => ?_) (fun j m hm => ?_) (fun _ => rfl)
      fun _ _ => Iff.rfl
    · have hsum := sumPending_update (u := u) (s := s) (t := s.addLock f x i n p shared start end_)
        (hl.inode_lt i n hn) rfl rfl
      simp only [hn, pendingUnix] at hsum
      omega
    · simp only [State.addLock, State.linkLock, State.setProcessLocks, State.setInode] at hm
      rcases eq_or_ne j i with rfl | hne
      · rw [Function.update_self, Option.some.injEq] at hm
        subst hm
        exact ⟨n, hn, rfl⟩
      · rw [Function.update_of_ne hne] at hm
        exact ⟨m, hm, rfl⟩

theorem tracked_initial : Tracked .initial :=
  ⟨fun _ => rfl, fun _ _ h => (by cases h), fun _ _ _ _ h => (by cases h),
    fun _ _ _ _ h => (by cases h), fun _ _ h => (by cases h), fun _ _ _ h => (by cases h)⟩

/-! ## Names to unlink -/

/-- An fd of the inode or its closed list has the name, unless its device has been unmounted. -/
def Named (s : State) (i : InodeId) (n : Inode) (name : String) : Prop :=
  (∃ f x, s.fd f = some x ∧ x.inode = some i ∧ x.closed.unlink = name) ∨
    (∃ c ∈ n.closed, c.unlink = name) ∨ .unmount n.device ∈ s.events

structure NamesKept (s : State) : Prop where
  pend_lt : ∀ i name, .pendUnlink i name ∈ s.events → i < s.nextInode
  named : ∀ i name n, .pendUnlink i name ∈ s.events → name ≠ "" → s.inode i = some n →
    Named s i n name

/-- What becomes of the name of an fd. -/
theorem Effect.fd_named {f : FdId} {x : Fd} {i : InodeId} {n n' : Inode} (h : Effect s s')
    (hl : Linked s) (hx : s.fd f = some x) (hi : x.inode = some i) (hn : s.inode i = some n)
    (hn' : s'.inode i = some n') (hd : n'.device = n.device) (hname : x.closed.unlink ≠ "") :
    Named s' i n' x.closed.unlink := by
  have hset : ∀ {g : FdId} {y z : Fd}, s.fd g = some y →
      s'.fd = Function.update s.fd g (some z) → z.inode = y.inode → z.closed = y.closed →
      Named s' i n' x.closed.unlink := by
    intro g y z hy ht hyi hyc
    refine .inl ⟨f, ?_⟩
    rw [ht]
    rcases eq_or_ne f g with rfl | hne
    · cases hx.symm.trans hy
      exact ⟨z, Function.update_self .., hyi.trans hi, by rw [hyc]⟩
    · exact ⟨x, by rw [Function.update_of_ne hne, hx], hi, rfl⟩
  have hsame : s'.fd = s.fd → Named s' i n' x.closed.unlink := fun he =>
    .inl ⟨f, x, he ▸ hx, hi, rfl⟩
  cases h with
  | quiet h => exact hsame h.fd
  | @fsLocks g y b hy => exact hset (z := { y with fsLocks := b }) hy rfl rfl rfl
  | @freeLock l y _ _ p hy _ _ =>
    exact hset (z := { y with locks := y.locks.erase l }) hy rfl rfl rfl
  | closePending _ _ | unmountPending _ _ _ _ => exact hsame (by rw [closePending_eq]; rfl)
  | destroyInode _ _ _ _ => exact hsame (by rw [State.dropInode, closeAndUnlink_eq]; rfl)
  | @leave g y j m hy hj hm =>
    rcases eq_or_ne f g with rfl | hne
    · cases hx.symm.trans hy
      cases hi.symm.trans hj
      cases hn.symm.trans hm
      rcases addClosed_inode (s.dropFd f i n) i { n with openFds := n.openFds.erase f } x.closed with
        ⟨-, hempty⟩ | ⟨c, he, hc, -⟩
      · exact absurd hempty hname
      · rw [he, Function.update_self, Option.some.injEq] at hn'
        subst hn'
        exact .inr (.inl ⟨c, List.mem_cons_self, hc⟩)
    · refine .inl ⟨f, x, ?_, hi, rfl⟩
      have hfd : (addClosed (s.dropFd g j m) j { m with openFds := m.openFds.erase g }
          y.closed).fd = Function.update s.fd g none := by
        unfold addClosed
        simp only [closeUnixFd_eq]
        split
        · rfl
        · split <;> rfl
      rw [hfd, Function.update_of_ne hne, hx]
  | @closeFd g y hy hj =>
    have hne : f ≠ g := by
      rintro rfl
      cases hx.symm.trans hy
      rw [hi] at hj
      cases hj
    refine .inl ⟨f, x, ?_, hi, rfl⟩
    have hfd : (s.closeFd g y).fd = Function.update s.fd g none := by
      unfold State.closeFd
      split <;> rfl
    rw [hfd, Function.update_of_ne hne, hx]
  | @unmountFd g y j m d z hy hm hg hz hj hev =>
    rcases eq_or_ne f g with rfl | hne
    · obtain ⟨y', hy', hyj⟩ := hl.open_fd j m f hm hg
      cases hx.symm.trans hy'
      cases hi.symm.trans hyj
      obtain ⟨m', hm', hd'⟩ := hl.device_inode d z i hz hj
      cases hn.symm.trans hm'
      refine .inr (.inr ?_)
      rw [hd, hd', State.unmountFd, closeUnixFd_eq]
      exact List.mem_append_right _ hev
    · refine .inl ⟨f, x, ?_, hi, rfl⟩
      rw [State.unmountFd, closeUnixFd_eq]
      exact (Function.update_of_ne hne ..).trans hx
  | _ => exact hsame rfl

theorem ClosedStep.named {i : InodeId} {n n' : Inode} {name : String} (h : ClosedStep s s' i n n')
    (hd : n'.device = n.device) (hname : name ≠ "") {c : ClosedFd} (hc : c ∈ n.closed)
    (hcn : c.unlink = name) : Named s' i n' name := by
  cases h with
  | same he => exact .inr (.inl ⟨c, he ▸ hc, hcn⟩)
  | kept he =>
    refine .inr (.inl ⟨{ c with unixFd := none }, ?_, hcn⟩)
    rw [he, keptClosed, if_pos rfl]
    exact List.mem_map.mpr ⟨c, List.mem_filter.mpr ⟨hc, by simpa [hcn] using hname⟩, rfl⟩
  | unmounted _ hev => exact .inr (.inr (hd ▸ hev))
  | left _ _ _ _ he => exact .inr (.inl ⟨c, he ▸ List.mem_cons_of_mem _ hc, hcn⟩)

theorem Effect.nextInode_le (h : Effect s s') : s.nextInode ≤ s'.nextInode := by
  cases h with
  | quiet h => exact h.nextInode.ge
  | closePending _ _ | unmountPending _ _ _ _ => rw [closePending_eq]; exact le_rfl
  | destroyInode _ _ _ _ => rw [State.dropInode, closeAndUnlink_eq]; exact le_rfl
  | leave _ _ _ =>
    unfold addClosed
    simp only [closeUnixFd_eq]
    split
    · exact le_rfl
    · split <;> exact le_rfl
  | closeFd _ _ => unfold State.closeFd; split <;> exact le_rfl
  | unmountFd _ _ _ _ _ _ => rw [State.unmountFd, closeUnixFd_eq]; exact le_rfl
  | createInode _ _ => exact Nat.le_succ _
  | _ => exact le_rfl

theorem Effect.namesKept (h : Effect s s') (hl : Linked s) (hk : NamesKept s) : NamesKept s' := by
  have hm := h.mildly
  refine ⟨fun i name hp => (hk.pend_lt i name ((hm.mem_iff rfl).mp hp)).trans_le h.nextInode_le,
    fun i name n' hp hname hn' => ?_⟩
  have hp' := (hm.mem_iff rfl).mp hp
  rcases h.inode_from hl hn' with ⟨rfl, -⟩ | ⟨n, hn, hd, hstep⟩
  · exact absurd (hk.pend_lt _ name hp') (lt_irrefl _)
  · rcases hk.named i name n hp' hname hn with ⟨f, x, hx, hi, rfl⟩ | ⟨c, hc, hcn⟩ | hev
    · exact h.fd_named hl hx hi hn hn' hd hname
    · exact hstep.named hd hname hc hcn
    · exact .inr (.inr (hd ▸ hm.mem_of_mem hev))

/-- A change of one fd that keeps its name, if it has an inode. -/
theorem NamesKept.setFd (hk : NamesKept s) {f : FdId} {x x' : Fd} (hx : s.fd f = some x)
    (hfd : s'.fd = Function.update s.fd f (some x'))
    (hname : ∀ i, x.inode = some i → x'.inode = some i ∧
      (x.closed.unlink ≠ "" → x'.closed.unlink = x.closed.unlink))
    (hpend : ∀ i name, .pendUnlink i name ∈ s'.events → .pendUnlink i name ∈ s.events)
    (hmono : ∀ e ∈ s.events, e ∈ s'.events) (hnext : s.nextInode = s'.nextInode)
    (hin : ∀ i n', s'.inode i = some n' →
      ∃ n, s.inode i = some n ∧ n'.device = n.device ∧ n'.closed = n.closed) : NamesKept s' := by
  refine ⟨fun i name hp => hnext ▸ hk.pend_lt i name (hpend i name hp), fun i name n' hp hne hn' => ?_⟩
  obtain ⟨n, hn, hd, hc⟩ := hin i n' hn'
  rcases hk.named i name n (hpend i name hp) hne hn with ⟨g, y, hy, hi, hyn⟩ | ⟨c, hcm, hcn⟩ | hev
  · refine .inl ⟨g, ?_⟩
    rw [hfd]
    rcases eq_or_ne g f with rfl | hgf
    · cases hx.symm.trans hy
      obtain ⟨hi', hn'⟩ := hname i hi
      exact ⟨x', Function.update_self .., hi', (hn' (hyn ▸ hne)).trans hyn⟩
    · exact ⟨y, by rw [Function.update_of_ne hgf, hy], hi, hyn⟩
  · exact .inr (.inl ⟨c, hc ▸ hcm, hcn⟩)
  · exact .inr (.inr (hd ▸ hmono _ hev))

theorem NamesKept.record (hk : NamesKept s) {e : Event} (he : ∀ i name, e ≠ .pendUnlink i name) :
    NamesKept (s.record e) := by
  have hpend : ∀ i name, .pendUnlink i name ∈ e :: s.events → .pendUnlink i name ∈ s.events :=
    fun i name hp => (List.mem_cons.mp hp).resolve_left (he i name).symm
  refine ⟨fun i name hp => hk.pend_lt i name (hpend i name hp), fun i name n hp hne hn => ?_⟩
  rcases hk.named i name n (hpend i name hp) hne hn with h | h | h
  · exact .inl h
  · exact .inr (.inl h)
  · exact .inr (.inr (List.mem_cons_of_mem _ h))

theorem NamesKept.pendUnlink (hk : NamesKept s) (hl : Linked s) {f : FdId} {x : Fd} {i : InodeId}
    (name : String) (hx : s.fd f = some x) (hi : x.inode = some i) (hempty : x.closed.unlink = "") :
    NamesKept (s.pendUnlink f x i name) := by
  have hmem : ∀ j name', .pendUnlink j name' ∈ (s.pendUnlink f x i name).events →
      (j = i ∧ name' = name) ∨ .pendUnlink j name' ∈ s.events := by
    intro j name' h
    simpa [State.pendUnlink, State.setFd, State.record] using h
  refine ⟨fun j name' hp => ?_, fun j name' n hp hne hn => ?_⟩
  · rcases hmem j name' hp with ⟨rfl, -⟩ | hp
    · obtain ⟨n, hn, -⟩ := hl.fd_inode f x _ hx hi
      exact hl.inode_lt _ n hn
    · exact hk.pend_lt j name' hp
  · rcases hmem j name' hp with ⟨rfl, rfl⟩ | hp
    · exact .inl ⟨f, _, Function.update_self .., hi, rfl⟩
    · rcases hk.named j name' n hp hne hn with ⟨g, y, hy, hj, hyn⟩ | h | h
      · refine .inl ⟨g, y, ?_, hj, hyn⟩
        refine (Function.update_of_ne ?_ ..).trans hy
        rintro rfl
        cases hx.symm.trans hy
        exact hne (hyn.symm.trans hempty)
      · exact .inr (.inl h)
      · exact .inr (.inr (List.mem_cons_of_mem _ h))

theorem Change.namesKept (h : Change s s') (hl : Linked s) (hk : NamesKept s) : NamesKept s' := by
  cases h with
  | effect h => exact h.namesKept hl hk
  | allocFd =>
    refine ⟨hk.pend_lt, fun i name n hp hne hn => ?_⟩
    rcases hk.named i name n hp hne hn with ⟨g, y, hy, hi, hyn⟩ | h | h
    · refine .inl ⟨g, y, (Function.update_of_ne ?_ ..).trans hy, hi, hyn⟩
      exact (hl.fd_lt g y hy).ne
    · exact .inr (.inl h)
    · exact .inr (.inr h)
  | @giveUnixFd f x hx hi _ =>
    exact hk.setFd hx rfl (fun i h => (by cases hi.symm.trans h)) (fun _ _ h => h) (fun _ h => h) rfl
      fun i n hn => ⟨n, hn, rfl, rfl⟩
  | openedSpecial u => exact hk.record fun _ _ h => (by cases h)
  | @join f x i n u hx hi _ _ hn =>
    refine hk.setFd (f := f) hx rfl (fun j h => (by cases hi.symm.trans h)) (fun j name hp => ?_)
      (fun e he => List.mem_cons_of_mem _ he) rfl fun j m hm => ?_
    · exact (List.mem_cons.mp hp).resolve_left fun h => (by cases h)
    · simp only [State.join, State.setInode] at hm
      rcases eq_or_ne j i with rfl | hne
      · rw [Function.update_self, Option.some.injEq] at hm
        subst hm
        exact ⟨n, hn, rfl, rfl⟩
      · rw [Function.update_of_ne hne] at hm
        exact ⟨m, hm, rfl, rfl⟩
  | share access sharing hx =>
    exact hk.setFd hx rfl (fun i h => ⟨h, fun _ => rfl⟩) (fun _ _ h => h) (fun _ h => h) rfl
      fun i n hn => ⟨n, hn, rfl, rfl⟩
  | pendUnlink name hx hi hempty => exact hk.pendUnlink hl name hx hi hempty
  | truncate u => exact hk.record fun _ _ h => (by cases h)
  | @addLock f x i n p shared start end_ hx hi hn _ _ =>
    refine hk.setFd hx rfl (fun i h => ⟨h, fun _ => rfl⟩) (fun _ _ h => h) (fun _ h => h) rfl
      fun j m hm => ?_
    simp only [State.addLock, State.linkLock, State.setProcessLocks, State.setInode] at hm
    rcases eq_or_ne j i with rfl | hne
    · rw [Function.update_self, Option.some.injEq] at hm
      subst hm
      exact ⟨n, hn, rfl, rfl⟩
    · rw [Function.update_of_ne hne] at hm
      exact ⟨m, hm, rfl, rfl⟩

theorem namesKept_initial : NamesKept .initial :=
  ⟨fun _ _ h => (by cases h), fun _ _ _ h => (by cases h)⟩

/-! ## Runs -/

/-- No close of a Unix descriptor of a locked inode, unless to unmount. -/
def Careful (s : State) : Prop :=
  ∀ u locked unmount, .close u locked unmount ∈ s.events → locked = true → unmount = true

theorem Change.careful (h : Change s s') (hc : Careful s) : Careful s' := by
  have hcons : ∀ e : Event, (∀ u locked b, e ≠ .close u locked b) → ∀ t : State,
      t.events = e :: s.events → Careful t := by
    intro e he t ht u locked b hm
    rw [ht] at hm
    exact hc u locked b ((List.mem_cons.mp hm).resolve_left (he u locked b).symm)
  cases h with
  | effect h =>
    obtain ⟨es, hes, hmild⟩ := h.mildly
    intro u locked b hm hlocked
    rw [hes] at hm
    rcases List.mem_append.mp hm with hm | hm
    · simpa [Event.mild, hlocked] using hmild _ hm
    · exact hc u locked b hm hlocked
  | allocFd | giveUnixFd _ _ _ | share _ _ _ | addLock _ _ _ _ _ _ _ _ _ => exact hc
  | openedSpecial u => exact hcons (.opened u none) (fun _ _ _ h => (by cases h)) _ rfl
  | @join _ _ i _ u _ _ _ _ _ => exact hcons (.opened u (some i)) (fun _ _ _ h => (by cases h)) _ rfl
  | @pendUnlink _ _ i name _ _ _ =>
    exact hcons (.pendUnlink i name) (fun _ _ _ h => (by cases h)) _ rfl
  | truncate u => exact hcons (.truncate u) (fun _ _ _ h => (by cases h)) _ rfl

variable {fcntl : ℕ → FcntlResult} {ok : State → Action → Prop}

theorem tracked_run {as : List Action} (hr : Run (step fcntl) ok .initial as s) :
    Tracked s ∧ NamesKept s ∧ Careful s := by
  refine (run_invariant_of_changes hr (I := fun t => Linked t ∧ Tracked t ∧ NamesKept t ∧ Careful t)
    ⟨linked_initial, tracked_initial, namesKept_initial, fun _ _ _ h => (by cases h)⟩
    fun t t' h hpost => ?_).2
  obtain ⟨hl, ht, hk, hc⟩ := hpost
  exact ⟨h.linked hl, h.tracked hl ht, h.namesKept hl hk, h.careful hc⟩

/-- In every reachable state: no Unix descriptor was closed while its inode, on a mounted device, was
locked; those opened for an inode were closed at most once, and exactly once if the inode is gone; and
a name to unlink is kept as long as the inode, unless its device was unmounted. -/
theorem deferred_run {as : List Action} (hr : Run (step fcntl) ok .initial as s) :
    (∀ u locked unmount, .close u locked unmount ∈ s.events → locked = true → unmount = true) ∧
    (∀ u i, .opened u (some i) ∈ s.events →
      s.closeCount u ≤ 1 ∧ (s.inode i = none → s.closeCount u = 1)) ∧
    ∀ i name n, .pendUnlink i name ∈ s.events → name ≠ "" → s.inode i = some n →
      Named s i n name := by
  obtain ⟨ht, hk, hc⟩ := tracked_run hr
  have hl := linked_run hr
  refine ⟨hc, fun u i ho => ?_, hk.named⟩
  have hacc := ht.account u
  rw [if_pos (ht.opened_lt u i ho)] at hacc
  unfold State.account at hacc
  refine ⟨by omega, fun hnone => ?_⟩
  have hfd : s.sumFd u = 0 := by
    refine Finset.sum_eq_zero fun f _ => if_neg fun hu => ?_
    obtain ⟨x, hx, hxu⟩ := Option.bind_eq_some_iff.mp hu
    obtain ⟨n, hn, -⟩ := hl.fd_inode f x i hx ((ht.fd_home f x u i hx hxu).mpr ho)
    rw [hnone] at hn
    cases hn
  have hpending : s.sumPending u = 0 := by
    refine Finset.sum_eq_zero fun j _ => ?_
    cases hn : s.inode j with
    | none => rfl
    | some n =>
      refine List.countP_eq_zero.mpr fun c hc hu => ?_
      have hj := ht.closed_home j n c u hn hc (by simpa using hu)
      rw [ht.opened_unique u j i hj ho, hnone] at hn
      cases hn
  omega

/-- A file is opened twice, once to be deleted, and that fd goes away while the other has a lock. -/
def deferringRun : List Action :=
  let outcome : OpenOutcome := ⟨true, true, .ok, some ⟨1, 7, true, false⟩, 0, true, true⟩
  [.openFd ⟨"file", false, false, false, delete, 7, true, false, false⟩ outcome,
    .openFd ⟨"file", false, false, false, fileReadData, 7, false, false, false⟩ outcome,
    .lockFd 3 1 0 10 false false true, .destroyFd 0, .exitProcess 3, .destroyFd 1]

/-- Both descriptors were closed once, the first when the process went. -/
theorem deferred_deferringRun :
    ∃ s, Run (step fun _ => .ok) (fun _ _ => True) .initial deferringRun s ∧
      s.inode 0 = none ∧ s.closeCount 0 = 1 ∧ s.closeCount 1 = 1 ∧
      .unlink "file" ∈ s.events := by
  obtain ⟨s, hr, hp⟩ := run_of_execTo (f := step fun _ => .ok) (s := .initial)
    (q := fun _ _ => True) (g := fun _ _ => true) (l := deferringRun)
    (p := fun s => (s.inode 0).isNone && decide (.opened 0 (some 0) ∈ s.events ∧
      .opened 1 (some 0) ∈ s.events ∧ .unlink "file" ∈ s.events))
    (fun _ _ _ => trivial) (by decide +kernel)
  simp only [Bool.and_eq_true, decide_eq_true_eq, Option.isNone_iff_eq_none] at hp
  obtain ⟨hnone, ho₀, ho₁, hun⟩ := hp
  have h := (deferred_run hr).2.1
  exact ⟨s, hr, hnone, (h 0 0 ho₀).2 hnone, (h 1 0 ho₁).2 hnone, hun⟩

theorem exists_deferringRun :
    ∃ s, Run (step fun _ => .ok) (fun _ _ => True) .initial deferringRun s := by
  obtain ⟨s, hr, -⟩ := run_of_execTo (f := step fun _ => .ok) (s := .initial)
    (q := fun _ _ => True) (g := fun _ _ => true) (l := deferringRun) (p := fun _ => true)
    (fun _ _ _ => trivial) (by decide +kernel)
  exact ⟨s, hr⟩

/-- Descriptors, inodes and devices refer to each other, and locks to their fd, after every run. -/
theorem links_run {as : List Action} (hr : Run (step fcntl) ok .initial as s) :
    Linked s ∧ LocksLinked s :=
  ⟨linked_run hr, locksLinked_run hr⟩

theorem links_deferringRun : ∃ s, Run (step fun _ => .ok) (fun _ _ => True) .initial deferringRun s ∧
    Linked s ∧ LocksLinked s :=
  exists_deferringRun.imp fun _ hr => ⟨hr, links_run hr⟩

/-- A Unix descriptor that was opened is in one place, or was closed once. -/
theorem accounted_run {as : List Action} (hr : Run (step fcntl) ok .initial as s) (u : UnixFd) :
    s.account u = if u < s.nextUnix then 1 else 0 :=
  (tracked_run hr).1.account u

theorem accounted_deferringRun : ∃ s, Run (step fun _ => .ok) (fun _ _ => True) .initial
    deferringRun s ∧ ∀ u, s.account u = if u < s.nextUnix then 1 else 0 :=
  exists_deferringRun.imp fun _ hr => ⟨hr, accounted_run hr⟩

end Wine.FileDesc
