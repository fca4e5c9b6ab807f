import Wine.FileDesc.Linked

/-!
# Ranges of locks

Live locks of an inode with a byte in common are both shared. The test of `lock_fd` is exact for
locks that are not empty; an empty lock conflicts with those around its position, although it covers
nothing.
-/

namespace Wine.FileDesc
open Wine.Lib
open Wine.Server (Status Access)

/-- The byte `b` is one of the `count` bytes from `start` on. -/
def InRange (start count b : FilePos) : Prop :=
  start ≤ b ∧ b.toNat < start.toNat + count.toNat

def FileLock.Covers (k : FileLock) (b : FilePos) : Prop := InRange k.start (k.end_ - k.start) b

section
variable {start end_ b : FilePos}

theorem inRange_iff (h : NoWrap start end_) :
    InRange start (end_ - start) b ↔ start ≠ end_ ∧ start ≤ b ∧ (end_ = 0 ∨ b < end_) := by
  have hzero : (0 : FilePos).toNat = 0 := rfl
  unfold InRange NoWrap at *
  simp only [ne_eq, BitVec.le_def, BitVec.lt_def, BitVec.toNat_sub, ← BitVec.toNat_inj,
    hzero] at *
  have hs := start.isLt
  have he := end_.isLt
  have hb := b.isLt
  omega

theorem not_covers_of_empty {k : FileLock} (h : k.start = k.end_) : ¬ k.Covers b := by
  unfold FileLock.Covers InRange
  rw [h, BitVec.sub_self]
  rintro ⟨hle, hlt⟩
  exact absurd (BitVec.le_def.mp hle) (Nat.not_le.mpr hlt)

/-- No byte is in two ranges that do not overlap. -/
theorem not_covers_of_not_overlaps {k : FileLock} (hk : NoWrap k.start k.end_)
    (hr : NoWrap start end_) (h : lockOverlaps k start end_ = false) (hc : k.Covers b)
    (hb : InRange start (end_ - start) b) : False := by
  obtain ⟨-, hks, hke⟩ := (inRange_iff hk).mp hc
  obtain ⟨-, hs, he⟩ := (inRange_iff hr).mp hb
  unfold lockOverlaps at h
  split at h
  · next hle => exact absurd (hke.resolve_left hle.1) (BitVec.not_lt.mpr (BitVec.le_trans hle.2 hs))
  · split at h
    · next hle => exact absurd (he.resolve_left hle.1) (BitVec.not_lt.mpr (BitVec.le_trans hle.2 hks))
    · cases h

/-- Two ranges that overlap have a byte in common, the later of their first ones, unless one is
empty. -/
theorem covers_of_overlaps {k : FileLock} (hk : NoWrap k.start k.end_) (hr : NoWrap start end_)
    (h : lockOverlaps k start end_ = true) (hke : k.start ≠ k.end_) (hre : start ≠ end_) :
    ∃ b, k.Covers b ∧ InRange start (end_ - start) b := by
  have hcov : ∀ b, k.start ≤ b → (k.end_ = 0 ∨ b < k.end_) → k.Covers b := fun b h₁ h₂ =>
    (inRange_iff hk).mpr ⟨hke, h₁, h₂⟩
  have hin : ∀ b, start ≤ b → (end_ = 0 ∨ b < end_) → InRange start (end_ - start) b :=
    fun b h₁ h₂ => (inRange_iff hr).mpr ⟨hre, h₁, h₂⟩
  have hfirst : ∀ {s e : FilePos}, NoWrap s e → s ≠ e → e = 0 ∨ s < e := by
    intro s e hw hne
    by_contra hnot
    rw [not_or] at hnot
    exact hw ⟨hnot.1, BitVec.lt_of_le_ne (BitVec.not_lt.mp hnot.2) (Ne.symm hne)⟩
  unfold lockOverlaps at h
  split at h
  · cases h
  · split at h
    · cases h
    · next h₁ h₂ =>
      have hs : k.end_ = 0 ∨ start < k.end_ := by
        by_contra hnot
        rw [not_or] at hnot
        exact h₁ ⟨hnot.1, BitVec.not_lt.mp hnot.2⟩
      have hks : end_ = 0 ∨ k.start < end_ := by
        by_contra hnot
        rw [not_or] at hnot
        exact h₂ ⟨hnot.1, BitVec.not_lt.mp hnot.2⟩
      by_cases hle : k.start ≤ start
      · exact ⟨start, hcov start hle hs, hin start (BitVec.le_refl _) (hfirst hr hre)⟩
      · have hle' : start ≤ k.start := BitVec.le_of_lt (BitVec.not_le.mp hle)
        exact ⟨k.start, hcov k.start (BitVec.le_refl _) (hfirst hk hke), hin k.start hle' hks⟩

end

/-! ## Exclusion -/

/-- The locks on the list of an inode exclude each other. -/
structure Exclusive (s : State) : Prop where
  lt : ∀ i n l, s.inode i = some n → l ∈ n.locks → l < s.nextLock
  noWrap : ∀ l < s.nextLock, NoWrap (s.lock l).start (s.lock l).end_
  shared : ∀ i n l l' b, s.inode i = some n → l ∈ n.locks → l' ∈ n.locks → l ≠ l' →
    (s.lock l).Covers b → (s.lock l').Covers b →
    (s.lock l).shared = true ∧ (s.lock l').shared = true

variable {s s' : State}

theorem Exclusive.of_keeps (he : Exclusive s) (h : Keeps s s') : Exclusive s' := by
  have hold : ∀ i n' l, s'.inode i = some n' → l ∈ n'.locks →
      ∃ n, s.inode i = some n ∧ n'.locks ⊆ n.locks := by
    intro i n' l hn' hl
    rcases h.inode i n' hn' with ⟨-, hnil⟩ | ⟨n, hn, hsame⟩
    · rw [hnil] at hl
      cases hl
    · exact ⟨n, hn, hsame.locks_sub.subset⟩
  refine ⟨fun i n' l hn' hl => ?_, fun l hl => ?_, fun i n' l l' b hn' hl hl' hne hc hc' => ?_⟩
  · obtain ⟨n, hn, hsub⟩ := hold i n' l hn' hl
    exact h.nextLock_eq ▸ he.lt i n l hn (hsub hl)
  · rw [h.lock_eq l]
    exact he.noWrap l (h.nextLock_eq ▸ hl)
  · obtain ⟨n, hn, hsub⟩ := hold i n' l hn' hl
    rw [h.lock_eq l] at hc ⊢
    rw [h.lock_eq l'] at hc' ⊢
    exact he.shared i n l l' b hn (hsub hl) (hsub hl') hne hc hc'

/-- The new lock shares a byte only with shared locks, and then is shared itself. -/
theorem Exclusive.addLock (he : Exclusive s) {f : FdId} {x : Fd} {i : InodeId} {n : Inode}
    (hn : s.inode i = some n) (p : ProcessId) {shared : Bool} {start end_ : FilePos}
    (hwrap : NoWrap start end_)
    (hfree : ∀ l ∈ n.locks, (s.lock l).conflicts shared start end_ = false) :
    Exclusive (s.addLock f x i n p shared start end_) := by
  set t := s.addLock f x i n p shared start end_ with ht
  have hnew : t.lock s.nextLock = ⟨f, shared, start, end_, some p⟩ := Function.update_self ..
  have hold : ∀ l, l < s.nextLock → t.lock l = s.lock l := fun l hl =>
    Function.update_of_ne hl.ne ..
  have hmem : ∀ j m l, t.inode j = some m → l ∈ m.locks →
      (l = s.nextLock ∧ j = i) ∨ (l < s.nextLock ∧ ∃ m', s.inode j = some m' ∧ l ∈ m'.locks) := by
    intro j m l hm hl
    have hm' : Function.update s.inode i (some { n with locks := s.nextLock :: n.locks }) j =
      some m := hm
    rcases eq_or_ne j i with rfl | hne
    · rw [Function.update_self, Option.some.injEq] at hm'
      subst hm'
      rcases List.mem_cons.mp hl with rfl | hl
      · exact .inl ⟨rfl, rfl⟩
      · exact .inr ⟨he.lt _ n l hn hl, n, hn, hl⟩
    · rw [Function.update_of_ne hne] at hm'
      exact .inr ⟨he.lt j m l hm' hl, m, hm', hl⟩
  have hboth : ∀ l ∈ n.locks, ∀ b, (s.lock l).Covers b → InRange start (end_ - start) b →
      (s.lock l).shared = true ∧ shared = true := by
    intro l hl b hc hb
    have hov : lockOverlaps (s.lock l) start end_ = true := by
      by_contra hno
      exact not_covers_of_not_overlaps (he.noWrap l (he.lt i n l hn hl)) hwrap
        (by simpa using hno) hc hb
    simpa [FileLock.conflicts, hov] using hfree l hl
  refine ⟨fun j m l hm hl => ?_, fun l hl => ?_, fun j m l l' b hm hl hl' hne hc hc' => ?_⟩
  · rcases hmem j m l hm hl with ⟨rfl, -⟩ | ⟨hlt, -⟩
    · exact Nat.lt_succ_self _
    · exact hlt.trans (Nat.lt_succ_self _)
  · rcases Nat.lt_succ_iff_lt_or_eq.mp hl with hlt | rfl
    · rw [hold l hlt]
      exact he.noWrap l hlt
    · rwa [hnew]
  · rcases hmem j m l hm hl with ⟨rfl, hji⟩ | ⟨hlt, m₁, hm₁, hl₁⟩ <;>
      rcases hmem j m l' hm hl' with ⟨rfl, hji⟩ | ⟨hlt', m₂, hm₂, hl₂⟩
    · exact absurd rfl hne
    · subst hji
      cases hn.symm.trans hm₂
      rw [hnew] at hc ⊢
      rw [hold l' hlt'] at hc' ⊢
      exact (hboth l' hl₂ b hc' hc).symm
    · subst hji
      cases hn.symm.trans hm₁
      rw [hnew] at hc' ⊢
      rw [hold l hlt] at hc ⊢
      exact hboth l hl₁ b hc hc'
    · cases hm₁.symm.trans hm₂
      rw [hold l hlt] at hc ⊢
      rw [hold l' hlt'] at hc' ⊢
      exact he.shared j m₁ l l' b hm₁ hl₁ hl₂ hne hc hc'

/-- A change of one fd, or of the events. -/
theorem Exclusive.congr (he : Exclusive s) (hlock : s'.lock = s.lock)
    (hnext : s'.nextLock = s.nextLock)
    (hin : ∀ i n', s'.inode i = some n' → ∃ n, s.inode i = some n ∧ n'.locks = n.locks) :
    Exclusive s' := by
  refine ⟨fun i n' l hn' hl => ?_, fun l hl => ?_, fun i n' l l' b hn' hl hl' => ?_⟩
  · obtain ⟨n, hn, heq⟩ := hin i n' hn'
    exact hnext ▸ he.lt i n l hn (heq ▸ hl)
  · exact hlock ▸ he.noWrap l (hnext ▸ hl)
  · obtain ⟨n, hn, heq⟩ := hin i n' hn'
    exact hlock ▸ he.shared i n l l' b hn (heq ▸ hl) (heq ▸ hl')

theorem Change.exclusive (h : Change s s') (he : Exclusive s) : Exclusive s' := by
  have hsame : s'.lock = s.lock → s'.nextLock = s.nextLock → s'.inode = s.inode → Exclusive s' :=
    fun hl hn hi => he.congr hl hn fun i n hn => ⟨n, hi ▸ hn, rfl⟩
  cases h with
  | effect h => exact he.of_keeps h.keeps
  | @join f x i n u _ _ _ _ hn =>
    refine he.congr rfl rfl fun j m hm => ?_
    simp only [State.join, State.setInode] at hm
    rcases eq_or_ne j i with rfl | hne
    · rw [Function.update_self, Option.some.injEq] at hm
      subst hm
      exact ⟨n, hn, rfl⟩
    · rw [Function.update_of_ne hne] at hm
      exact ⟨m, hm, rfl⟩
  | addLock p shared start end_ _ _ hn hwrap hfree => exact he.addLock hn p hwrap hfree
  | _ => exact hsame rfl rfl rfl

/-! ## Refusal -/

theorem wp_setUnixLock_ok (f : FdId) (start end_ : FilePos) (type : LockType) (s : State) :
    wp (setUnixLock (fun _ => .ok) f start end_ type) (fun r t => r = true ∧ t.error = s.error)
      anyFault s := by
  simp only [setUnixLock, wp_bind, wp_getFd]
  intro x _
  rw [wp_ite]
  refine ⟨fun _ => ⟨rfl, rfl⟩, fun _ => ?_⟩
  simp only [trySetUnixLock, wp_bind, wp_getFd, wp_get, wp_set, wp_ite, wp_pure]
  exact fun y _ => ⟨fun _ => ⟨trivial, trivial⟩, fun _ => ⟨fun _ => ⟨trivial, trivial⟩, fun _ =>
    ⟨trivial, rfl⟩⟩⟩

/-- Without a failure of the system, only a lock that the test finds in the way is a reason to refuse
a range, or to have the caller wait. -/
theorem wp_lockFd_ok (p : ProcessId) (f : FdId) (start count : FilePos) (shared wait mem : Bool)
    (h0 : s.error = 0) :
    wp (lockFd (fun _ => .ok) p f start count shared wait mem) (fun _ t => t.error ≠ 0 →
      ¬ NoWrap start (start + count) ∨ mem = false ∨ ∃ x i n l, s.fd f = some x ∧
        x.inode = some i ∧ s.inode i = some n ∧ l ∈ n.locks ∧
        (s.lock l).conflicts shared start (start + count) = true) anyFault s := by
  unfold lockFd
  simp only
  rw [wp_ite]
  refine ⟨fun hwrap => wp_setError_pure _ _ fun _ _ _ => .inl fun h => h hwrap, fun _ => ?_⟩
  simp only [wp_bind, wp_fdInode, wp_getInode, wp_get]
  intro x i hx hi n hn
  split
  · next l hfind =>
    have hl : (s.lock l).conflicts shared start (start + count) = true := by
      have hsome := List.find?_some hfind
      exact hsome
    have hmem := List.mem_of_find?_eq_some hfind
    rw [wp_ite]
    exact ⟨fun _ => wp_setError_pure _ _ fun _ _ _ => .inr (.inr ⟨x, i, n, l, hx, hi, hn, hmem, hl⟩),
      fun _ => wp_setError_pure _ _ fun _ _ _ => .inr (.inr ⟨x, i, n, l, hx, hi, hn, hmem, hl⟩)⟩
  · simp only [addLock, wp_bind, wp_getFd]
    intro y hy
    cases hx.symm.trans hy
    simp only [hi]
    rw [wp_ite]
    refine ⟨fun hmem => ?_, fun _ => ?_⟩
    · have hmem' : mem = false := by simpa using hmem
      simp only [wp_bind, wp_pure, setError, wp_modify, wp_ite, wp_get]
      exact ⟨fun h => (by cases h), fun _ => ⟨fun _ _ => .inr (.inl hmem'), fun _ _ => .inr (.inl hmem')⟩⟩
    · rw [wp_bind]
      refine wp_mono (wp_setUnixLock_ok f start _ _ s) fun r t hpost => ?_
      obtain ⟨hr, ht⟩ := hpost
      subst hr
      simp only [if_true, wp_bind, wp_get, wp_getFd, wp_getInode, wp_set, wp_pure, wp_ite]
      refine fun y _ m _ => ⟨fun _ hne => absurd (ht.trans h0) hne, fun h => absurd trivial h⟩

/-! ## Runs -/

variable {fcntl : ℕ → FcntlResult} {ok : State → Action → Prop}

theorem exclusive_initial : Exclusive .initial :=
  ⟨fun _ _ _ h => (by cases h), fun _ h => (by cases h), fun _ _ _ _ _ h => (by cases h)⟩

theorem exclusive_of_run {as : List Action} (hr : Run (step fcntl) ok .initial as s) :
    Exclusive s :=
  run_invariant_of_changes hr exclusive_initial fun _ _ h => h.exclusive

/-- A file is opened, and locked by two processes, in ranges that share the bytes 5 to 9. -/
def lockedRun : List Action :=
  [.openFd ⟨"file", false, false, false, fileReadData, 7, false, false, false⟩
      ⟨true, true, .ok, some ⟨1, 7, true, false⟩, 0, true, true⟩,
    .lockFd 3 0 0 10 true false true, .lockFd 4 0 5 10 true false true]

/-- The only lock is an empty one. -/
def emptyLockRun : List Action :=
  [.openFd ⟨"file", false, false, false, fileReadData, 7, false, false, false⟩
      ⟨true, true, .ok, some ⟨1, 7, true, false⟩, 0, true, true⟩,
    .lockFd 3 0 100 0 false false true]

end Wine.FileDesc
