import Mathlib.Order.Nat
import Wine.FileDesc.Changes

/-!
# Descriptors, inodes and devices refer to each other

The list of an inode has exactly the descriptors that refer to it, once each, and the list of a device
only inodes of that device. The locks of an fd belong to it and to a process.
-/

namespace Wine.FileDesc
open Wine.Lib
open Wine.Server (Status Access)

structure Linked (s : State) : Prop where
  fd_lt : ∀ f x, s.fd f = some x → f < s.nextFd
  inode_lt : ∀ i n, s.inode i = some n → i < s.nextInode
  device_lt : ∀ d y, s.device d = some y → d < s.nextDevice
  fd_inode : ∀ f x i, s.fd f = some x → x.inode = some i →
    ∃ n, s.inode i = some n ∧ f ∈ n.openFds
  open_fd : ∀ i n f, s.inode i = some n → f ∈ n.openFds → ∃ x, s.fd f = some x ∧ x.inode = some i
  open_nodup : ∀ i n, s.inode i = some n → n.openFds.Nodup
  device_inode : ∀ d y i, s.device d = some y → i ∈ y.inodes →
    ∃ n, s.inode i = some n ∧ n.device = d

structure LocksLinked (s : State) : Prop where
  fd_lock : ∀ f x l, s.fd f = some x → l ∈ x.locks →
    (s.lock l).fd = f ∧ l < s.nextLock ∧ (s.lock l).process.isSome ∧ x.inode.isSome
  nodup : ∀ f x, s.fd f = some x → x.locks.Nodup

/-! ## Changes that keep all links -/

structure SameLinks (s s' : State) : Prop where
  fd : ∀ f, (s'.fd f).map (·.inode) = (s.fd f).map (·.inode)
  inode : ∀ i, (s'.inode i).map (fun n => (n.openFds, n.device)) =
    (s.inode i).map fun n => (n.openFds, n.device)
  device : ∀ d, (s'.device d).map (·.inodes) = (s.device d).map (·.inodes)
  nextFd : s'.nextFd = s.nextFd
  nextInode : s'.nextInode = s.nextInode
  nextDevice : s'.nextDevice = s.nextDevice

namespace SameLinks

theorem fd_of {s s' : State} (h : SameLinks s s') {f : FdId} {x' : Fd} (hx : s'.fd f = some x') :
    ∃ x, s.fd f = some x ∧ x.inode = x'.inode := by
  have hm := h.fd f
  rw [hx, Option.map_some] at hm
  exact Option.map_eq_some_iff.mp hm.symm

theorem fd_to {s s' : State} (h : SameLinks s s') {f : FdId} {x : Fd} (hx : s.fd f = some x) :
    ∃ x', s'.fd f = some x' ∧ x'.inode = x.inode := by
  have hm := h.fd f
  rw [hx, Option.map_some] at hm
  exact Option.map_eq_some_iff.mp hm

theorem inode_of {s s' : State} (h : SameLinks s s') {i : InodeId} {n' : Inode}
    (hn : s'.inode i = some n') :
    ∃ n, s.inode i = some n ∧ n.openFds = n'.openFds ∧ n.device = n'.device := by
  have hm := h.inode i
  rw [hn, Option.map_some] at hm
  obtain ⟨n, hn, he⟩ := Option.map_eq_some_iff.mp hm.symm
  exact ⟨n, hn, congrArg Prod.fst he, congrArg Prod.snd he⟩

theorem inode_to {s s' : State} (h : SameLinks s s') {i : InodeId} {n : Inode}
    (hn : s.inode i = some n) :
    ∃ n', s'.inode i = some n' ∧ n'.openFds = n.openFds ∧ n'.device = n.device := by
  have hm := h.inode i
  rw [hn, Option.map_some] at hm
  obtain ⟨n', hn', he⟩ := Option.map_eq_some_iff.mp hm
  exact ⟨n', hn', congrArg Prod.fst he, congrArg Prod.snd he⟩

theorem device_of {s s' : State} (h : SameLinks s s') {d : DeviceId} {y' : Device}
    (hy : s'.device d = some y') : ∃ y, s.device d = some y ∧ y.inodes = y'.inodes := by
  have hm := h.device d
  rw [hy, Option.map_some] at hm
  exact Option.map_eq_some_iff.mp hm.symm

theorem trans {s s' s'' : State} (h : SameLinks s s') (h' : SameLinks s' s'') : SameLinks s s'' :=
  ⟨fun f => (h'.fd f).trans (h.fd f), fun i => (h'.inode i).trans (h.inode i),
    fun d => (h'.device d).trans (h.device d), h'.nextFd.trans h.nextFd,
    h'.nextInode.trans h.nextInode, h'.nextDevice.trans h.nextDevice⟩

theorem of_eq {s s' : State} (hf : s'.fd = s.fd) (hi : s'.inode = s.inode)
    (hd : s'.device = s.device) (hnf : s'.nextFd = s.nextFd) (hni : s'.nextInode = s.nextInode)
    (hnd : s'.nextDevice = s.nextDevice) : SameLinks s s' :=
  ⟨fun _ => by rw [hf], fun _ => by rw [hi], fun _ => by rw [hd], hnf, hni, hnd⟩

theorem setFd {s : State} {f : FdId} {x y : Fd} (hx : s.fd f = some x)
    (h : y.inode = x.inode) : SameLinks s (s.setFd f (some y)) := by
  refine ⟨fun g => ?_, fun _ => rfl, fun _ => rfl, rfl, rfl, rfl⟩
  rcases eq_or_ne g f with rfl | hne
  · simp only [State.setFd, Function.update_self, hx, Option.map_some, h]
  · simp only [State.setFd, Function.update_of_ne hne]

theorem setInode {s : State} {i : InodeId} {n m : Inode} (hn : s.inode i = some n)
    (ho : m.openFds = n.openFds) (hd : m.device = n.device) :
    SameLinks s (s.setInode i (some m)) := by
  refine ⟨fun _ => rfl, fun j => ?_, fun _ => rfl, rfl, rfl, rfl⟩
  rcases eq_or_ne j i with rfl | hne
  · simp only [State.setInode, Function.update_self, hn, Option.map_some, ho, hd]
  · simp only [State.setInode, Function.update_of_ne hne]

theorem setDevice {s : State} {d : DeviceId} {y y' : Device} (hy : s.device d = some y)
    (h : y'.inodes = y.inodes) : SameLinks s (s.setDevice d (some y')) := by
  refine ⟨fun _ => rfl, fun _ => rfl, fun e => ?_, rfl, rfl, rfl⟩
  rcases eq_or_ne e d with rfl | hne
  · simp only [State.setDevice, Function.update_self, hy, Option.map_some, h]
  · simp only [State.setDevice, Function.update_of_ne hne]

theorem closeUnixFd (s : State) (i : InodeId) (b : Bool) (u : Option UnixFd) :
    SameLinks s (s.closeUnixFd i b u) := by
  rw [closeUnixFd_eq]
  exact .of_eq rfl rfl rfl rfl rfl rfl

theorem closePending {s : State} {i : InodeId} {n : Inode} (hn : s.inode i = some n) (b : Bool) :
    SameLinks s (s.closePending i n b) := by
  rw [closePending_eq]
  have h : SameLinks s { s with
      events := closeEvents (s.lockedInode i) (!b) n.closed ++ s.events } :=
    .of_eq rfl rfl rfl rfl rfl rfl
  refine h.trans (.setInode (n := n) ?_ rfl rfl)
  exact hn

theorem addClosed {s : State} {i : InodeId} {n : Inode} (hn : s.inode i = some n)
    (c : ClosedFd) : SameLinks s (addClosed s i n c) := by
  unfold Wine.FileDesc.addClosed
  split
  · exact .setInode hn rfl rfl
  · split
    · refine (SameLinks.closeUnixFd s i false c.unixFd).trans (.setInode (n := n) ?_ rfl rfl)
      rw [closeUnixFd_eq]
      exact hn
    · exact .closeUnixFd s i false c.unixFd

end SameLinks

theorem Linked.of_same {s s' : State} (hs : Linked s) (h : SameLinks s s') : Linked s' where
  fd_lt f x' hx' := by
    obtain ⟨x, hx, -⟩ := h.fd_of hx'
    exact h.nextFd ▸ hs.fd_lt f x hx
  inode_lt i n' hn' := by
    obtain ⟨n, hn, -⟩ := h.inode_of hn'
    exact h.nextInode ▸ hs.inode_lt i n hn
  device_lt d y' hy' := by
    obtain ⟨y, hy, -⟩ := h.device_of hy'
    exact h.nextDevice ▸ hs.device_lt d y hy
  fd_inode f x' i hx' hi := by
    obtain ⟨x, hx, he⟩ := h.fd_of hx'
    obtain ⟨n, hn, hf⟩ := hs.fd_inode f x i hx (he.trans hi)
    obtain ⟨n', hn', ho, -⟩ := h.inode_to hn
    exact ⟨n', hn', ho ▸ hf⟩
  open_fd i n' f hn' hf := by
    obtain ⟨n, hn, ho, -⟩ := h.inode_of hn'
    obtain ⟨x, hx, hi⟩ := hs.open_fd i n f hn (ho ▸ hf)
    obtain ⟨x', hx', he⟩ := h.fd_to hx
    exact ⟨x', hx', he.trans hi⟩
  open_nodup i n' hn' := by
    obtain ⟨n, hn, ho, -⟩ := h.inode_of hn'
    exact ho ▸ hs.open_nodup i n hn
  device_inode d y' i hy' hi := by
    obtain ⟨y, hy, he⟩ := h.device_of hy'
    obtain ⟨n, hn, hd⟩ := hs.device_inode d y i hy (he ▸ hi)
    obtain ⟨n', hn', -, hd'⟩ := h.inode_to hn
    exact ⟨n', hn', hd'.trans hd⟩

/-! ## Changes of the links -/

theorem Linked.setDevice {s s' : State} {d : DeviceId} {y : Option Device} (hs : Linked s)
    (hdev : s'.device = Function.update s.device d y)
    (hf : s'.fd = s.fd) (hi : s'.inode = s.inode) (hnf : s'.nextFd = s.nextFd)
    (hni : s'.nextInode = s.nextInode) (hnd : s.nextDevice ≤ s'.nextDevice)
    (hy : ∀ z, y = some z → d < s'.nextDevice ∧
      ∀ i ∈ z.inodes, ∃ n, s.inode i = some n ∧ n.device = d) : Linked s' where
  fd_lt := by rw [hf, hnf]; exact hs.fd_lt
  inode_lt := by rw [hi, hni]; exact hs.inode_lt
  device_lt e z hz := by
    rw [hdev] at hz
    rcases eq_or_ne e d with rfl | hne
    · exact (hy z (by simpa using hz)).1
    · rw [Function.update_of_ne hne] at hz
      exact (hs.device_lt e z hz).trans_le hnd
  fd_inode := by rw [hf, hi]; exact hs.fd_inode
  open_fd := by rw [hf, hi]; exact hs.open_fd
  open_nodup := by rw [hi]; exact hs.open_nodup
  device_inode e z i hz hiz := by
    rw [hdev] at hz
    rw [hi]
    rcases eq_or_ne e d with rfl | hne
    · exact (hy z (by simpa using hz)).2 i hiz
    · rw [Function.update_of_ne hne] at hz
      exact hs.device_inode e z i hz hiz

theorem Linked.createInode {s : State} (hs : Linked s) {d : DeviceId} {y : Device}
    (hy : s.device d = some y) (ino : ℕ) :
    Linked { (s.setInode s.nextInode (some ⟨1, d, ino, [], [], []⟩)).setDevice d
      (some { y with inodes := s.nextInode :: y.inodes }) with nextInode := s.nextInode + 1 } := by
  have hfresh : s.inode s.nextInode = none := by
    rcases h : s.inode s.nextInode with _ | n
    · rfl
    · exact absurd (hs.inode_lt _ n h) (lt_irrefl _)
  have hinode : ∀ i n, s.inode i = some n → Function.update s.inode s.nextInode
      (some ⟨1, d, ino, [], [], []⟩) i = some n := by
    intro i n hn
    rw [Function.update_of_ne, hn]
    rintro rfl
    rw [hfresh] at hn
    cases hn
  have hself : Function.update s.inode s.nextInode (some ⟨1, d, ino, [], [], []⟩) s.nextInode =
    some ⟨1, d, ino, [], [], []⟩ := Function.update_self ..
  refine ⟨hs.fd_lt, fun i n hn => ?_, fun e z hz => ?_, fun f x i hx hi => ?_,
    fun i n f hn hf => ?_, fun i n hn => ?_, fun e z i hz hi => ?_⟩ <;>
    simp only [State.setDevice, State.setInode] at *
  · rcases eq_or_ne i s.nextInode with rfl | hne
    · exact Nat.lt_succ_self _
    · rw [Function.update_of_ne hne] at hn
      exact (hs.inode_lt i n hn).trans (Nat.lt_succ_self _)
  · rcases eq_or_ne e d with rfl | hne
    · exact hs.device_lt e y hy
    · rw [Function.update_of_ne hne] at hz
      exact hs.device_lt e z hz
  · obtain ⟨n, hn, hf⟩ := hs.fd_inode f x i hx hi
    exact ⟨n, hinode i n hn, hf⟩
  · rcases eq_or_ne i s.nextInode with rfl | hne
    · rw [hself, Option.some.injEq] at hn
      subst hn
      cases hf
    · rw [Function.update_of_ne hne] at hn
      exact hs.open_fd i n f hn hf
  · rcases eq_or_ne i s.nextInode with rfl | hne
    · rw [hself, Option.some.injEq] at hn
      subst hn
      exact List.nodup_nil
    · rw [Function.update_of_ne hne] at hn
      exact hs.open_nodup i n hn
  · rcases eq_or_ne e d with rfl | hne
    · rw [Function.update_self, Option.some.injEq] at hz
      subst hz
      rcases List.mem_cons.mp hi with rfl | hi
      · exact ⟨_, hself, rfl⟩
      · obtain ⟨n, hn, hd⟩ := hs.device_inode e y i hy hi
        exact ⟨n, hinode i n hn, hd⟩
    · rw [Function.update_of_ne hne] at hz
      obtain ⟨n, hn, hd⟩ := hs.device_inode e z i hz hi
      exact ⟨n, hinode i n hn, hd⟩

/-- An inode without descriptors goes away, and from the list of its device. -/
theorem Linked.dropInode {s : State} (hs : Linked s) {i : InodeId} {n : Inode} {y : Device}
    (hn : s.inode i = some n) (ho : n.openFds = []) (hy : s.device n.device = some y) :
    Linked (s.dropInode i n y) := by
  rw [State.dropInode, closeAndUnlink_eq]
  refine ⟨hs.fd_lt, fun j m hm => ?_, fun e z hz => ?_, fun f x j hx hj => ?_,
    fun j m f hm hf => ?_, fun j m hm => ?_, fun e z j hz hj => ?_⟩ <;>
    simp only [State.setDevice, State.setInode] at *
  · rcases eq_or_ne j i with rfl | hne
    · simp only [Function.update_self, reduceCtorEq] at hm
    · rw [Function.update_of_ne hne] at hm
      exact hs.inode_lt j m hm
  · rcases eq_or_ne e n.device with rfl | hne
    · exact hs.device_lt _ y hy
    · rw [Function.update_of_ne hne] at hz
      exact hs.device_lt e z hz
  · obtain ⟨m, hm, hf⟩ := hs.fd_inode f x j hx hj
    rcases eq_or_ne j i with rfl | hne
    · cases hn.symm.trans hm
      rw [ho] at hf
      cases hf
    · exact ⟨m, by rw [Function.update_of_ne hne, hm], hf⟩
  · rcases eq_or_ne j i with rfl | hne
    · simp only [Function.update_self, reduceCtorEq] at hm
    · rw [Function.update_of_ne hne] at hm
      exact hs.open_fd j m f hm hf
  · rcases eq_or_ne j i with rfl | hne
    · simp only [Function.update_self, reduceCtorEq] at hm
    · rw [Function.update_of_ne hne] at hm
      exact hs.open_nodup j m hm
  · have hmem : j ≠ i ∧ ∃ m, s.inode j = some m ∧ m.device = e := by
      rcases eq_or_ne e n.device with rfl | hne
      · rw [Function.update_self, Option.some.injEq] at hz
        subst hz
        obtain ⟨hj, hne⟩ := List.mem_filter.mp hj
        exact ⟨by simpa using hne, hs.device_inode _ y j hy hj⟩
      · rw [Function.update_of_ne hne] at hz
        obtain ⟨m, hm, hd⟩ := hs.device_inode e z j hz hj
        refine ⟨?_, m, hm, hd⟩
        rintro rfl
        cases hn.symm.trans hm
        exact hne hd.symm
    obtain ⟨hne, m, hm, hd⟩ := hmem
    exact ⟨m, by rw [Function.update_of_ne hne, hm], hd⟩

theorem Linked.dropFd {s : State} (hs : Linked s) {f : FdId} {x : Fd} {i : InodeId} {n : Inode}
    (hx : s.fd f = some x) (hi : x.inode = some i) (hn : s.inode i = some n) :
    Linked (s.dropFd f i n) := by
  have hnodup := hs.open_nodup i n hn
  refine ⟨fun g y hy => ?_, fun j m hm => ?_, hs.device_lt, fun g y j hy hj => ?_,
    fun j m g hm hg => ?_, fun j m hm => ?_, fun e z j hz hj => ?_⟩ <;>
    simp only [State.dropFd, State.setFd, State.setInode] at *
  · rcases eq_or_ne g f with rfl | hne
    · simp only [Function.update_self, reduceCtorEq] at hy
    · rw [Function.update_of_ne hne] at hy
      exact hs.fd_lt g y hy
  · rcases eq_or_ne j i with rfl | hne
    · exact hs.inode_lt _ n hn
    · rw [Function.update_of_ne hne] at hm
      exact hs.inode_lt j m hm
  · rcases eq_or_ne g f with rfl | hne
    · simp only [Function.update_self, reduceCtorEq] at hy
    · rw [Function.update_of_ne hne] at hy
      obtain ⟨m, hm, hg⟩ := hs.fd_inode g y j hy hj
      rcases eq_or_ne j i with rfl | hji
      · cases hn.symm.trans hm
        exact ⟨_, Function.update_self .., (List.mem_erase_of_ne hne).mpr hg⟩
      · exact ⟨m, by rw [Function.update_of_ne hji, hm], hg⟩
  · have hmem : g ≠ f ∧ ∃ y, s.fd g = some y ∧ y.inode = some j := by
      rcases eq_or_ne j i with rfl | hji
      · rw [Function.update_self, Option.some.injEq] at hm
        subst hm
        obtain ⟨hne, hg⟩ := hnodup.mem_erase_iff.mp hg
        exact ⟨hne, hs.open_fd _ n g hn hg⟩
      · rw [Function.update_of_ne hji] at hm
        obtain ⟨y, hy, hj⟩ := hs.open_fd j m g hm hg
        refine ⟨?_, y, hy, hj⟩
        rintro rfl
        cases hx.symm.trans hy
        exact hji (Option.some.inj (hj.symm.trans hi))
    obtain ⟨hne, y, hy, hj⟩ := hmem
    exact ⟨y, by rw [Function.update_of_ne hne, hy], hj⟩
  · rcases eq_or_ne j i with rfl | hne
    · rw [Function.update_self, Option.some.injEq] at hm
      subst hm
      exact hnodup.erase f
    · rw [Function.update_of_ne hne] at hm
      exact hs.open_nodup j m hm
  · obtain ⟨m, hm, hd⟩ := hs.device_inode e z j hz hj
    rcases eq_or_ne j i with rfl | hne
    · cases hn.symm.trans hm
      exact ⟨_, Function.update_self .., hd⟩
    · exact ⟨m, by rw [Function.update_of_ne hne, hm], hd⟩

theorem Linked.closeFd {s : State} (hs : Linked s) {f : FdId} {x : Fd} (hx : s.fd f = some x)
    (hi : x.inode = none) : Linked (s.setFd f none) := by
  refine ⟨fun g y hy => ?_, hs.inode_lt, hs.device_lt, fun g y j hy hj => ?_,
    fun j m g hm hg => ?_, hs.open_nodup, hs.device_inode⟩ <;> simp only [State.setFd] at *
  · rcases eq_or_ne g f with rfl | hne
    · simp only [Function.update_self, reduceCtorEq] at hy
    · rw [Function.update_of_ne hne] at hy
      exact hs.fd_lt g y hy
  · rcases eq_or_ne g f with rfl | hne
    · simp only [Function.update_self, reduceCtorEq] at hy
    · rw [Function.update_of_ne hne] at hy
      exact hs.fd_inode g y j hy hj
  · obtain ⟨y, hy, hj⟩ := hs.open_fd j m g hm hg
    refine ⟨y, ?_, hj⟩
    rw [Function.update_of_ne, hy]
    rintro rfl
    cases hx.symm.trans hy
    rw [hi] at hj
    cases hj

theorem Linked.fd_fresh {s : State} (hs : Linked s) : s.fd s.nextFd = none := by
  rcases h : s.fd s.nextFd with _ | x
  · rfl
  · exact absurd (hs.fd_lt _ x h) (lt_irrefl _)

theorem Linked.allocFd {s : State} (hs : Linked s) : Linked s.allocFd := by
  refine ⟨fun g y hy => ?_, hs.inode_lt, hs.device_lt, fun g y j hy hj => ?_,
    fun j m g hm hg => ?_, hs.open_nodup, hs.device_inode⟩ <;>
    simp only [State.allocFd, State.setFd] at *
  · rcases eq_or_ne g s.nextFd with rfl | hne
    · exact Nat.lt_succ_self _
    · rw [Function.update_of_ne hne] at hy
      exact (hs.fd_lt g y hy).trans (Nat.lt_succ_self _)
  · rcases eq_or_ne g s.nextFd with rfl | hne
    · rw [Function.update_self, Option.some.injEq] at hy
      subst hy
      cases hj
    · rw [Function.update_of_ne hne] at hy
      exact hs.fd_inode g y j hy hj
  · obtain ⟨y, hy, hj⟩ := hs.open_fd j m g hm hg
    refine ⟨y, ?_, hj⟩
    rw [Function.update_of_ne, hy]
    rintro rfl
    rw [hs.fd_fresh] at hy
    cases hy

theorem Linked.join {s : State} (hs : Linked s) {f : FdId} {x : Fd} {i : InodeId} {n : Inode}
    (hx : s.fd f = some x) (hi : x.inode = none) (hn : s.inode i = some n) (u : UnixFd) :
    Linked (s.join f x i n u) := by
  have hnot : ∀ j m, s.inode j = some m → f ∉ m.openFds := by
    intro j m hm hf
    obtain ⟨y, hy, hj⟩ := hs.open_fd j m f hm hf
    cases hx.symm.trans hy
    rw [hi] at hj
    cases hj
  refine ⟨fun g y hy => ?_, fun j m hm => ?_, hs.device_lt, fun g y j hy hj => ?_,
    fun j m g hm hg => ?_, fun j m hm => ?_, fun e z j hz hj => ?_⟩ <;>
    simp only [State.join, State.record, State.setFd, State.setInode] at *
  · rcases eq_or_ne g f with rfl | hne
    · exact hs.fd_lt g x hx
    · rw [Function.update_of_ne hne] at hy
      exact hs.fd_lt g y hy
  · rcases eq_or_ne j i with rfl | hne
    · exact hs.inode_lt _ n hn
    · rw [Function.update_of_ne hne] at hm
      exact hs.inode_lt j m hm
  · rcases eq_or_ne g f with rfl | hne
    · rw [Function.update_self, Option.some.injEq] at hy
      subst hy
      cases hj
      exact ⟨_, Function.update_self .., List.mem_cons_self⟩
    · rw [Function.update_of_ne hne] at hy
      obtain ⟨m, hm, hg⟩ := hs.fd_inode g y j hy hj
      rcases eq_or_ne j i with rfl | hji
      · cases hn.symm.trans hm
        exact ⟨_, Function.update_self .., List.mem_cons_of_mem _ hg⟩
      · exact ⟨m, by rw [Function.update_of_ne hji, hm], hg⟩
  · rcases eq_or_ne g f with rfl | hne
    · refine ⟨_, Function.update_self .., ?_⟩
      rcases eq_or_ne j i with rfl | hji
      · rfl
      · rw [Function.update_of_ne hji] at hm
        exact absurd hg (hnot j m hm)
    · rw [Function.update_of_ne hne]
      rcases eq_or_ne j i with rfl | hji
      · rw [Function.update_self, Option.some.injEq] at hm
        subst hm
        exact hs.open_fd _ n g hn ((List.mem_cons.mp hg).resolve_left hne)
      · rw [Function.update_of_ne hji] at hm
        exact hs.open_fd j m g hm hg
  · rcases eq_or_ne j i with rfl | hne
    · rw [Function.update_self, Option.some.injEq] at hm
      subst hm
      exact List.nodup_cons.mpr ⟨hnot _ n hn, hs.open_nodup _ n hn⟩
    · rw [Function.update_of_ne hne] at hm
      exact hs.open_nodup j m hm
  · obtain ⟨m, hm, hd⟩ := hs.device_inode e z j hz hj
    rcases eq_or_ne j i with rfl | hne
    · cases hn.symm.trans hm
      exact ⟨_, Function.update_self .., hd⟩
    · exact ⟨m, by rw [Function.update_of_ne hne, hm], hd⟩

theorem Effect.linked {s s' : State} (h : Effect s s') (hs : Linked s) : Linked s' := by
  cases h with
  | quiet h => exact hs.of_same (.of_eq h.fd h.inode h.device h.nextFd h.nextInode h.nextDevice)
  | fsLocks b hx => exact hs.of_same (.setFd hx rfl)
  | @freeLock l x i n p hx hi hn =>
    refine hs.of_same ((SameLinks.setFd (y := { x with locks := x.locks.erase l }) hx rfl).trans
      ((SameLinks.setInode (i := i) (n := n) (m := { n with locks := n.locks.erase l })
        ?_ rfl rfl).trans (.of_eq rfl rfl rfl rfl rfl rfl)))
    exact hn
  | closePending hn _ => exact hs.of_same (.closePending hn true)
  | deviceRefcount r hy => exact hs.of_same (.setDevice hy rfl)
  | destroyDevice hy he =>
    exact hs.setDevice rfl rfl rfl rfl rfl le_rfl fun z hz => (by cases hz)
  | createDevice dev =>
    refine hs.setDevice rfl rfl rfl rfl rfl (Nat.le_succ _) fun z hz => ?_
    cases hz
    exact ⟨Nat.lt_succ_self _, fun i hi => (by cases hi)⟩
  | unhashDevice d _ => exact hs.of_same (.of_eq rfl rfl rfl rfl rfl rfl)
  | inodeRefcount r hn => exact hs.of_same (.setInode hn rfl rfl)
  | createInode ino hy => exact hs.createInode hy ino
  | destroyInode hn ho _ hy => exact hs.dropInode hn ho hy
  | @leave f x i n hx hi hn =>
    refine (hs.dropFd hx hi hn).of_same (.addClosed ?_ x.closed)
    exact Function.update_self ..
  | @closeFd f x hx hi =>
    have h := hs.closeFd hx hi
    unfold State.closeFd
    split
    · exact h.of_same (.of_eq rfl rfl rfl rfl rfl rfl)
    · exact h
  | @unmountFd f x i n d y hx _ _ _ _ _ =>
    refine hs.of_same ((SameLinks.closeUnixFd s i true x.unixFd).trans (.setFd (x := x) ?_ rfl))
    rw [closeUnixFd_eq]
    exact hx
  | unmountPending hn _ _ _ => exact hs.of_same (.closePending hn false)

theorem Change.linked {s s' : State} (h : Change s s') (hs : Linked s) : Linked s' := by
  cases h with
  | effect h => exact h.linked hs
  | allocFd => exact hs.allocFd
  | @giveUnixFd f x hx _ _ =>
    exact hs.of_same ((SameLinks.setFd (y := { x with unixFd := some s.nextUnix }) hx rfl).trans
      (.of_eq rfl rfl rfl rfl rfl rfl))
  | openedSpecial u => exact hs.of_same (.of_eq rfl rfl rfl rfl rfl rfl)
  | join hx hi _ _ hn => exact hs.join hx hi hn _
  | share access sharing hx => exact hs.of_same (.setFd hx rfl)
  | @pendUnlink f x i name hx _ _ =>
    refine hs.of_same ((SameLinks.of_eq rfl rfl rfl rfl rfl rfl : SameLinks s (s.record
      (.pendUnlink i name))).trans (.setFd (x := x) ?_ rfl))
    exact hx
  | truncate u => exact hs.of_same (.of_eq rfl rfl rfl rfl rfl rfl)
  | @addLock f x i n p shared start end_ hx hi hn _ _ =>
    refine hs.of_same ((SameLinks.setFd (y := { x with locks := s.nextLock :: x.locks })
      hx rfl).trans ((SameLinks.setInode (i := i) (n := n)
        (m := { n with locks := s.nextLock :: n.locks }) ?_ rfl rfl).trans
          (.of_eq rfl rfl rfl rfl rfl rfl)))
    exact hn

/-! ## Locks -/

theorem Effect.lock_eq {s s' : State} (h : Effect s s') : s'.lock = s.lock ∨
    ∃ l x, s'.lock = Function.update s.lock l { s.lock l with process := none } ∧
      s.fd (s.lock l).fd = some x ∧
      s'.fd = Function.update s.fd (s.lock l).fd (some { x with locks := x.locks.erase l }) := by
  cases h with
  | quiet h => exact .inl h.lock
  | @freeLock l x i n p hx _ _ => exact .inr ⟨l, x, rfl, hx, rfl⟩
  | closePending _ _ | unmountPending _ _ _ _ => rw [closePending_eq]; exact .inl rfl
  | destroyInode _ _ _ _ => rw [State.dropInode, closeAndUnlink_eq]; exact .inl rfl
  | leave _ _ _ =>
    unfold addClosed
    simp only [closeUnixFd_eq]
    split
    · exact .inl rfl
    · split <;> exact .inl rfl
  | closeFd _ _ => unfold State.closeFd; split <;> exact .inl rfl
  | unmountFd _ _ _ _ _ _ => rw [State.unmountFd, closeUnixFd_eq]; exact .inl rfl
  | _ => exact .inl rfl

theorem Effect.locksLinked {s s' : State} (h : Effect s s') (hs : LocksLinked s) :
    LocksLinked s' := by
  have hk := h.keeps
  have hnodup : ∀ f x, s'.fd f = some x → x.locks.Nodup := by
    intro f x' hx'
    obtain ⟨x, hx, hsame⟩ := hk.fd f x' hx'
    exact hsame.locks_sub.nodup (hs.nodup f x hx)
  refine ⟨fun f x' l hx' hl => ?_, hnodup⟩
  obtain ⟨x, hx, hsame⟩ := hk.fd f x' hx'
  obtain ⟨hf, hlt, hp, hi⟩ := hs.fd_lock f x l hx (hsame.locks_sub.subset hl)
  have hp' : (s'.lock l).process = (s.lock l).process := by
    rcases h.lock_eq with he | ⟨k, y, he, hy, hfd⟩
    · rw [he]
    · rw [he, Function.update_of_ne]
      rintro rfl
      -- the lock that is freed leaves the list of its fd
      rw [hfd, hf, Function.update_self, Option.some.injEq] at hx'
      rw [hf] at hy
      subst hx'
      exact (hs.nodup f y hy).not_mem_erase hl
  rw [hk.lock_eq l, hp', hk.nextLock_eq, hsame.inode_eq]
  exact ⟨hf, hlt, hp, hi⟩

theorem LocksLinked.setFd {s s' : State} {f : FdId} {x x' : Fd} (hs : LocksLinked s)
    (hx : s.fd f = some x) (hfd : s'.fd = Function.update s.fd f (some x'))
    (hlock : s'.lock = s.lock) (hnext : s'.nextLock = s.nextLock) (hl : x'.locks = x.locks)
    (hi : x.inode.isSome → x'.inode.isSome) : LocksLinked s' := by
  have hof : ∀ g y, s'.fd g = some y → ∃ z, s.fd g = some z ∧ y.locks = z.locks ∧
      (z.inode.isSome → y.inode.isSome) := by
    intro g y hy
    rw [hfd] at hy
    rcases eq_or_ne g f with rfl | hne
    · rw [Function.update_self, Option.some.injEq] at hy
      exact ⟨x, hx, hy ▸ hl, hy ▸ hi⟩
    · rw [Function.update_of_ne hne] at hy
      exact ⟨y, hy, rfl, id⟩
  refine ⟨fun g y l hy hl => ?_, fun g y hy => ?_⟩
  · obtain ⟨z, hz, hlz, hiz⟩ := hof g y hy
    obtain ⟨h₁, h₂, h₃, h₄⟩ := hs.fd_lock g z l hz (hlz ▸ hl)
    rw [hlock, hnext]
    exact ⟨h₁, h₂, h₃, hiz h₄⟩
  · obtain ⟨z, hz, hlz, -⟩ := hof g y hy
    exact hlz ▸ hs.nodup g z hz

theorem Change.locksLinked {s s' : State} (h : Change s s') (hs : LocksLinked s) :
    LocksLinked s' := by
  cases h with
  | effect h => exact h.locksLinked hs
  | allocFd =>
    refine ⟨fun g y l hy hl => ?_, fun g y hy => ?_⟩ <;>
      simp only [State.allocFd, State.setFd] at * <;> rcases eq_or_ne g s.nextFd with rfl | hne
    · rw [Function.update_self, Option.some.injEq] at hy
      subst hy
      cases hl
    · rw [Function.update_of_ne hne] at hy
      exact hs.fd_lock g y l hy hl
    · rw [Function.update_self, Option.some.injEq] at hy
      subst hy
      exact List.nodup_nil
    · rw [Function.update_of_ne hne] at hy
      exact hs.nodup g y hy
  | giveUnixFd hx _ _ => exact hs.setFd hx rfl rfl rfl rfl id
  | openedSpecial u => exact ⟨hs.fd_lock, hs.nodup⟩
  | join hx _ _ _ _ => exact hs.setFd hx rfl rfl rfl rfl fun _ => rfl
  | share access sharing hx => exact hs.setFd hx rfl rfl rfl rfl id
  | pendUnlink name hx _ _ => exact hs.setFd hx rfl rfl rfl rfl id
  | truncate u => exact ⟨hs.fd_lock, hs.nodup⟩
  | @addLock f x i n p shared start end_ hx hi hn _ _ =>
    have hold : ∀ g y l, s.fd g = some y → l ∈ y.locks →
        Function.update s.lock s.nextLock ⟨f, shared, start, end_, some p⟩ l = s.lock l := by
      intro g y l hy hl
      rw [Function.update_of_ne (hs.fd_lock g y l hy hl).2.1.ne]
    refine ⟨fun g y l hy hl => ?_, fun g y hy => ?_⟩ <;>
      simp only [State.addLock, State.linkLock, State.setProcessLocks, State.setInode, State.setFd,
        State.setLock] at * <;> rcases eq_or_ne g f with rfl | hne
    · rw [Function.update_self, Option.some.injEq] at hy
      subst hy
      rcases List.mem_cons.mp hl with rfl | hl
      · rw [Function.update_self]
        exact ⟨rfl, Nat.lt_succ_self _, rfl, by rw [hi]; rfl⟩
      · obtain ⟨h₁, h₂, h₃, h₄⟩ := hs.fd_lock g x l hx hl
        rw [hold g x l hx hl]
        exact ⟨h₁, h₂.trans (Nat.lt_succ_self _), h₃, h₄⟩
    · rw [Function.update_of_ne hne] at hy
      obtain ⟨h₁, h₂, h₃, h₄⟩ := hs.fd_lock g y l hy hl
      rw [hold g y l hy hl]
      exact ⟨h₁, h₂.trans (Nat.lt_succ_self _), h₃, h₄⟩
    · rw [Function.update_self, Option.some.injEq] at hy
      subst hy
      refine List.nodup_cons.mpr ⟨fun hl => ?_, hs.nodup g x hx⟩
      exact lt_irrefl _ (hs.fd_lock g x _ hx hl).2.1
    · rw [Function.update_of_ne hne] at hy
      exact hs.nodup g y hy

/-! ## Runs -/

theorem linked_initial : Linked .initial :=
  ⟨fun _ _ h => (by cases h), fun _ _ h => (by cases h), fun _ _ h => (by cases h),
    fun _ _ _ h => (by cases h), fun _ _ _ h => (by cases h), fun _ _ h => (by cases h),
    fun _ _ _ h => (by cases h)⟩

theorem locksLinked_initial : LocksLinked .initial :=
  ⟨fun _ _ _ h => (by cases h), fun _ _ h => (by cases h)⟩

variable {fcntl : ℕ → FcntlResult} {ok : State → Action → Prop}

theorem linked_run {as : List Action} {s : State} (hr : Run (step fcntl) ok .initial as s) :
    Linked s :=
  run_invariant_of_changes hr linked_initial fun _ _ h => h.linked

theorem locksLinked_run {as : List Action} {s : State} (hr : Run (step fcntl) ok .initial as s) :
    LocksLinked s :=
  run_invariant_of_changes hr locksLinked_initial fun _ _ h => h.locksLinked

end Wine.FileDesc
