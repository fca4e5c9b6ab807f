import Wine.FileDesc.Ranges

/-!
# Unix locks left behind by a closed descriptor

When an fd goes away, the Unix locks are removed in one interval around all its locks. The interval
is right but for a single byte, which is taken for an empty interval.
-/

namespace Wine.FileDesc
open Wine.Lib
open Wine.Server (Status Access)

/-! ## The interval -/

/-- The last byte of a lock that is not empty. -/
def FileLock.last (k : FileLock) : FilePos := k.end_ - 1

def unionStart (ks : List FileLock) (start : FilePos) : FilePos :=
  ks.foldl (fun a k => widenStart k a) start

def unionEnd (ks : List FileLock) (end_ : FilePos) : FilePos :=
  ks.foldl (fun a k => widenEnd k a) end_

theorem widenStart_le (k : FileLock) (a : FilePos) : widenStart k a ≤ k.start ∧ widenStart k a ≤ a := by
  unfold widenStart
  split
  · next h => exact ⟨BitVec.le_refl _, BitVec.le_of_lt h⟩
  · next h => exact ⟨BitVec.not_lt.mp h, BitVec.le_refl _⟩

theorem le_widenEnd (k : FileLock) (a : FilePos) : k.last ≤ widenEnd k a ∧ a ≤ widenEnd k a := by
  have hzero : (0 : FilePos).toNat = 0 := rfl
  have hone : (1 : FilePos).toNat = 1 := rfl
  have hk := k.end_.isLt
  have ha := a.isLt
  unfold widenEnd FileLock.last
  simp only [BitVec.lt_def, BitVec.le_def, ← BitVec.toNat_inj, hzero]
  split <;> simp only [BitVec.toNat_sub, hone] <;> omega

theorem unionStart_le (ks : List FileLock) (a : FilePos) :
    unionStart ks a ≤ a ∧ ∀ k ∈ ks, unionStart ks a ≤ k.start := by
  induction ks generalizing a with
  | nil => exact ⟨BitVec.le_refl _, fun _ h => (by cases h)⟩
  | cons k ks ih =>
    obtain ⟨h₁, h₂⟩ := ih (widenStart k a)
    obtain ⟨hk, ha⟩ := widenStart_le k a
    refine ⟨BitVec.le_trans h₁ ha, fun k' hk' => ?_⟩
    rcases List.mem_cons.mp hk' with rfl | hk'
    · exact BitVec.le_trans h₁ hk
    · exact h₂ k' hk'

theorem le_unionEnd (ks : List FileLock) (a : FilePos) :
    a ≤ unionEnd ks a ∧ ∀ k ∈ ks, k.last ≤ unionEnd ks a := by
  induction ks generalizing a with
  | nil => exact ⟨BitVec.le_refl _, fun _ h => (by cases h)⟩
  | cons k ks ih =>
    obtain ⟨h₁, h₂⟩ := ih (widenEnd k a)
    obtain ⟨hk, ha⟩ := le_widenEnd k a
    refine ⟨BitVec.le_trans ha h₁, fun k' hk' => ?_⟩
    rcases List.mem_cons.mp hk' with rfl | hk'
    · exact BitVec.le_trans hk h₁
    · exact h₂ k' hk'

/-- The interval is no larger than needed. -/
theorem le_unionStart {ks : List FileLock} {a m : FilePos} (ha : m ≤ a)
    (h : ∀ k ∈ ks, m ≤ k.start) : m ≤ unionStart ks a := by
  induction ks generalizing a with
  | nil => exact ha
  | cons k ks ih =>
    refine ih (a := widenStart k a) ?_ fun k' hk' => h k' (List.mem_cons_of_mem _ hk')
    unfold widenStart
    split
    · exact h k List.mem_cons_self
    · exact ha

theorem unionEnd_le {ks : List FileLock} {a m : FilePos} (ha : a ≤ m) (h : ∀ k ∈ ks, k.last ≤ m) :
    unionEnd ks a ≤ m := by
  induction ks generalizing a with
  | nil => exact ha
  | cons k ks ih =>
    refine ih (a := widenEnd k a) ?_ fun k' hk' => h k' (List.mem_cons_of_mem _ hk')
    unfold widenEnd
    split
    · exact h k List.mem_cons_self
    · exact ha

theorem covers_bounds {k : FileLock} {b : FilePos} (hw : NoWrap k.start k.end_) (hc : k.Covers b) :
    k.start ≤ b ∧ b ≤ k.last := by
  obtain ⟨-, hs, he⟩ := (inRange_iff hw).mp hc
  have hzero : (0 : FilePos).toNat = 0 := rfl
  have hone : (1 : FilePos).toNat = 1 := rfl
  have hk := k.end_.isLt
  have hb := b.isLt
  refine ⟨hs, ?_⟩
  unfold FileLock.last
  simp only [BitVec.lt_def, BitVec.le_def, ← BitVec.toNat_inj, hzero, BitVec.toNat_sub, hone] at *
  omega

theorem covers_of_bounds {k : FileLock} (hw : NoWrap k.start k.end_) (h : k.last = k.start) :
    k.Covers k.start := by
  have hzero : (0 : FilePos).toNat = 0 := rfl
  have hone : (1 : FilePos).toNat = 1 := rfl
  have hk := k.end_.isLt
  have hs := k.start.isLt
  unfold FileLock.last at h
  refine (inRange_iff hw).mpr ?_
  simp only [ne_eq, BitVec.lt_def, BitVec.le_def, ← BitVec.toNat_inj, hzero, BitVec.toNat_sub,
    hone] at *
  omega

/-! ## The loop -/

def noFault (_ : Fault) : Prop := False

/-- Only Unix descriptors have been closed since. -/
def OnlyCloses (s t : State) : Prop :=
  ∃ es, t.events = es ++ s.events ∧ ∀ e ∈ es, ∃ u locked b, e = .close u locked b

theorem OnlyCloses.trans {s t t' : State} (h : OnlyCloses s t) (h' : OnlyCloses t t') :
    OnlyCloses s t' := by
  obtain ⟨es, he, hes⟩ := h
  obtain ⟨es', he', hes'⟩ := h'
  refine ⟨es' ++ es, by rw [he', he, List.append_assoc], fun e hm => ?_⟩
  exact (List.mem_append.mp hm).elim (hes' e) (hes e)

variable {s t : State}

theorem wp_getFd_of {f : FdId} {x : Fd} (hx : s.fd f = some x) (Q : Fd → State → Prop)
    (E : Fault → Prop) : wp (getFd f) Q E s ↔ Q x s := by
  simp [getFd, hx]

theorem wp_fdInode_of {f : FdId} {x : Fd} {i : InodeId} (hx : s.fd f = some x)
    (hi : x.inode = some i) (Q : InodeId → State → Prop) (E : Fault → Prop) :
    wp (fdInode f) Q E s ↔ Q i s := by
  simp [fdInode, wp_getFd_of hx, hi]

theorem wp_getInode_of {i : InodeId} {n : Inode} (hn : s.inode i = some n)
    (Q : Inode → State → Prop) (E : Fault → Prop) : wp (getInode i) Q E s ↔ Q n s := by
  simp [getInode, hn]

/-- A lock on the list of an fd can be removed, and nothing is done to the Unix locks. -/
theorem wp_removeLock_false (hl : Linked s) (hk : LocksLinked s) {f : FdId} {x : Fd} {l : LockId}
    (hx : s.fd f = some x) (hmem : l ∈ x.locks) :
    wp (removeLock l false) (fun _ t =>
      t.fd f = some { x with locks := x.locks.erase l } ∧ OnlyCloses s t) noFault s := by
  obtain ⟨hf, -, hp, hi⟩ := hk.fd_lock f x l hx hmem
  obtain ⟨i, hi⟩ := Option.isSome_iff_exists.mp hi
  obtain ⟨p, hp⟩ := Option.isSome_iff_exists.mp hp
  obtain ⟨n, hn, -⟩ := hl.fd_inode f x i hx hi
  simp only [removeLock, wp_bind, wp_get, hf, wp_getFd_of hx, wp_fdInode_of hx hi,
    wp_getInode_of hn, hp, wp_set]
  rw [wp_dropLock (n := { n with locks := n.locks.erase l }) (Function.update_self ..)]
  have hfd : (s.unlinkLock l f x i n p).fd f = some { x with locks := x.locks.erase l } :=
    Function.update_self ..
  simp only [Bool.false_eq_true, if_false]
  split
  · rw [closePending_eq]
    refine ⟨hfd, _, rfl, fun e he => ?_⟩
    obtain ⟨u, -, rfl⟩ := List.mem_map.mp he
    exact ⟨u, _, _, rfl⟩
  · exact ⟨hfd, [], rfl, fun _ h => (by cases h)⟩

/-- The loop removes all locks of the fd and finds the interval around them. -/
theorem wp_removeFdLocksLoop (hl : Linked s) (hk : LocksLinked s) {f : FdId} {x : Fd} {n : ℕ}
    (hx : s.fd f = some x) (hn : x.locks.length = n) (start end_ : FilePos) :
    wp (removeFdLocksLoop f n start end_) (fun r t =>
      r = (unionStart (x.locks.map s.lock) start, unionEnd (x.locks.map s.lock) end_) ∧
        OnlyCloses s t) noFault s := by
  induction n generalizing s x start end_ with
  | zero =>
    have hnil := List.length_eq_zero_iff.mp hn
    simp only [removeFdLocksLoop, wp_bind, wp_getFd_of hx, hnil, List.isEmpty_nil, if_true, wp_pure]
    exact ⟨rfl, [], rfl, fun _ h => (by cases h)⟩
  | succ n ih =>
    obtain ⟨l, ls, hls⟩ := List.exists_cons_of_length_eq_add_one hn
    simp only [removeFdLocksLoop, wp_bind, wp_getFd_of hx, wp_get, hls]
    refine wp_mono (wp_and (wp_removeLock_false hl hk hx (hls ▸ List.mem_cons_self))
      (does_removeLock l false s)) fun _ t hpost => ?_
    obtain ⟨⟨hfd, hcloses⟩, he⟩ := hpost
    have hl' : Linked t := he.invariant hl fun _ _ => Effect.linked
    have hk' : LocksLinked t := he.invariant hk fun _ _ => Effect.locksLinked
    rw [hls, List.erase_cons_head] at hfd
    have hlen : ls.length = n := by
      rw [hls, List.length_cons] at hn
      exact Nat.succ.inj hn
    refine wp_mono (ih hl' hk' hfd hlen _ _) fun r t' hpost => ?_
    obtain ⟨hr, hc⟩ := hpost
    refine ⟨?_, hcloses.trans hc⟩
    -- the locks keep their ranges, and nothing else of them matters
    have hstart : unionStart (ls.map t.lock) (widenStart (s.lock l) start) =
        unionStart (ls.map s.lock) (widenStart (s.lock l) start) := by
      simp only [unionStart, List.foldl_map]
      congr 1
      funext a k
      rw [he.keeps.lock_eq k]
      rfl
    have hend : unionEnd (ls.map t.lock) (widenEnd (s.lock l) end_) =
        unionEnd (ls.map s.lock) (widenEnd (s.lock l) end_) := by
      simp only [unionEnd, List.foldl_map]
      congr 1
      funext a k
      rw [he.keeps.lock_eq k]
      rfl
    rw [hr]
    simp only [List.map_cons, unionStart, unionEnd, List.foldl_cons] at hstart hend ⊢
    rw [hstart, hend]

/-- The interval around the locks of an fd, both ends included. -/
def unionOf (s : State) (x : Fd) : FilePos × FilePos :=
  (unionStart (x.locks.map s.lock) filePosMax, unionEnd (x.locks.map s.lock) 0)

theorem wp_removeFdLocks (hl : Linked s) (hk : LocksLinked s) {f : FdId} {x : Fd}
    (hx : s.fd f = some x) :
    wp (removeFdLocks f) (fun _ t => ∃ es, t.events = es ++ s.events ∧
      ∀ g a z, .removeUnixLocks g a z ∈ es ↔ (unionOf s x).1 < (unionOf s x).2 ∧
        g = f ∧ a = (unionOf s x).1 ∧ z = (unionOf s x).2 + 1) noFault s := by
  simp only [removeFdLocks, wp_bind, wp_getFd_of hx]
  refine wp_mono (wp_removeFdLocksLoop hl hk hx rfl filePosMax 0) fun r t hpost => ?_
  obtain ⟨hr, es, he, hes⟩ := hpost
  have hnot : ∀ g a z, .removeUnixLocks g a z ∉ es := by
    intro g a z hm
    obtain ⟨u, locked, b, h⟩ := hes _ hm
    cases h
  subst hr
  rw [wp_ite]
  simp only [removeUnixLocks, wp_modify, wp_pure]
  refine ⟨fun hlt => ⟨.removeUnixLocks f (unionOf s x).1 ((unionOf s x).2 + 1) :: es, ?_, ?_⟩,
    fun hle => ⟨es, he, fun g a z => ?_⟩⟩
  · simp only [State.record, he]
    rfl
  · intro g a z
    simp only [List.mem_cons, Event.removeUnixLocks.injEq, hnot, or_false]
    exact ⟨fun h => ⟨hlt, h⟩, fun h => h.2⟩
  · exact ⟨fun h => absurd h (hnot g a z), fun h => absurd h.1 hle⟩

/-! ## Bytes that stay locked -/

/-- Since `s`, the Unix locks were removed in an interval that has the byte `b`. -/
def Unlocks (s t : State) (f : FdId) (b : FilePos) : Prop :=
  ∃ es a z, t.events = es ++ s.events ∧ .removeUnixLocks f a z ∈ es ∧ a ≤ b ∧ (z = 0 ∨ b < z)

/-- The lock has just one byte, not too far for Unix, and the other locks of the fd have no more. -/
def LoneByte (s : State) (x : Fd) (l : LockId) : Prop :=
  (s.lock l).last = (s.lock l).start ∧ (s.lock l).start ≤ s.maxUnixOffset ∧
    ∀ l' ∈ x.locks, (s.lock l).start ≤ (s.lock l').start ∧ (s.lock l').last ≤ (s.lock l).start

theorem lt_succ_iff_le (b e : FilePos) : (e + 1 = 0 ∨ b < e + 1) ↔ b ≤ e := by
  have hzero : (0 : FilePos).toNat = 0 := rfl
  have hone : (1 : FilePos).toNat = 1 := rfl
  have he := e.isLt
  have hb := b.isLt
  simp only [BitVec.lt_def, BitVec.le_def, ← BitVec.toNat_inj, hzero, BitVec.toNat_add, hone]
  omega

theorem wp_removeFdLocks_unlocks (hl : Linked s) (hk : LocksLinked s) {f : FdId} {x : Fd}
    (hx : s.fd f = some x) :
    wp (removeFdLocks f) (fun _ t => ∀ b, Unlocks s t f b ↔ (unionOf s x).1 < (unionOf s x).2 ∧
      (unionOf s x).1 ≤ b ∧ b ≤ (unionOf s x).2) noFault s := by
  refine wp_mono (wp_removeFdLocks hl hk hx) fun _ t hpost b => ?_
  obtain ⟨es, he, hes⟩ := hpost
  constructor
  · rintro ⟨es', a, z, he', hmem, ha, hz⟩
    rw [List.append_cancel_right (he'.symm.trans he)] at hmem
    obtain ⟨hlt, -, rfl, rfl⟩ := (hes f a z).mp hmem
    exact ⟨hlt, ha, (lt_succ_iff_le _ _).mp hz⟩
  · rintro ⟨hlt, ha, hz⟩
    exact ⟨es, _, _, he, (hes f _ _).mpr ⟨hlt, rfl, rfl, rfl⟩, ha, (lt_succ_iff_le _ _).mpr hz⟩

theorem covered_in_union {x : Fd} {l : LockId} {b : FilePos} (hl : l ∈ x.locks)
    (hw : NoWrap (s.lock l).start (s.lock l).end_) (hc : (s.lock l).Covers b) :
    (unionOf s x).1 ≤ b ∧ b ≤ (unionOf s x).2 := by
  have hmem := List.mem_map_of_mem (f := s.lock) hl
  obtain ⟨hs, he⟩ := covers_bounds hw hc
  exact ⟨BitVec.le_trans ((unionStart_le _ _).2 _ hmem) hs,
    BitVec.le_trans he ((le_unionEnd _ _).2 _ hmem)⟩

theorem LoneByte.not_lt {x : Fd} {l : LockId} (h : LoneByte s x l) :
    ¬ (unionOf s x).1 < (unionOf s x).2 := by
  obtain ⟨-, -, hall⟩ := h
  have hstart : (s.lock l).start ≤ (unionOf s x).1 := by
    refine le_unionStart (BitVec.le_def.mpr ?_) fun k hk => ?_
    · exact Nat.le_of_lt_succ (s.lock l).start.isLt
    · obtain ⟨l', hl', rfl⟩ := List.mem_map.mp hk
      exact (hall l' hl').1
  have hend : (unionOf s x).2 ≤ (s.lock l).start := by
    refine unionEnd_le (BitVec.le_def.mpr (Nat.zero_le _)) fun k hk => ?_
    obtain ⟨l', hl', rfl⟩ := List.mem_map.mp hk
    exact (hall l' hl').2
  exact BitVec.not_lt.mpr (BitVec.le_trans hend hstart)

/-- If no Unix lock is removed, all that the fd had locked is one byte. -/
theorem loneByte_of_not_lt {x : Fd} {l : LockId} {b : FilePos} (hl : l ∈ x.locks)
    (hw : NoWrap (s.lock l).start (s.lock l).end_) (hc : (s.lock l).Covers b)
    (hb : b ≤ s.maxUnixOffset) (h : ¬ (unionOf s x).1 < (unionOf s x).2) :
    LoneByte s x l ∧ (s.lock l).start = b := by
  obtain ⟨h₁, h₂⟩ := covered_in_union hl hw hc
  obtain ⟨hs, he⟩ := covers_bounds hw hc
  have hmem := List.mem_map_of_mem (f := s.lock) hl
  have hle := BitVec.not_lt.mp h
  have h₁b : b ≤ (unionOf s x).1 := BitVec.le_trans h₂ hle
  have h₂b : (unionOf s x).2 ≤ b := BitVec.le_trans hle h₁
  have hsb : (s.lock l).start = b :=
    BitVec.le_antisymm hs (BitVec.le_trans h₁b ((unionStart_le _ _).2 _ hmem))
  have heb : (s.lock l).last = b :=
    BitVec.le_antisymm (BitVec.le_trans ((le_unionEnd _ _).2 _ hmem) h₂b) he
  refine ⟨⟨heb.trans hsb.symm, hsb ▸ hb, fun l' hl' => ?_⟩, hsb⟩
  have hmem' := List.mem_map_of_mem (f := s.lock) hl'
  rw [hsb]
  exact ⟨BitVec.le_trans h₁b ((unionStart_le _ _).2 _ hmem'),
    BitVec.le_trans ((le_unionEnd _ _).2 _ hmem') h₂b⟩

/-- All bytes that satisfy `P` and were locked for the fd are unlocked, if it is not that a lock of a
single byte is left that satisfies it. -/
theorem unlocks_all_iff {x : Fd} {f : FdId} (P : FilePos → Prop)
    (hw : ∀ l ∈ x.locks, NoWrap (s.lock l).start (s.lock l).end_)
    (h : ∀ b, Unlocks s t f b ↔ (unionOf s x).1 < (unionOf s x).2 ∧ (unionOf s x).1 ≤ b ∧
      b ≤ (unionOf s x).2) :
    (∀ b, b ≤ s.maxUnixOffset → (∃ l ∈ x.locks, (s.lock l).Covers b) → P b → Unlocks s t f b) ↔
      ¬ ∃ l ∈ x.locks, LoneByte s x l ∧ P (s.lock l).start := by
  constructor
  · rintro hall ⟨l, hl, hlone, hP⟩
    have hc := covers_of_bounds (hw l hl) hlone.1
    exact hlone.not_lt ((h _).mp (hall _ hlone.2.1 ⟨l, hl, hc⟩ hP)).1
  · rintro hnone b hb ⟨l, hl, hc⟩ hP
    rw [h]
    refine ⟨?_, covered_in_union hl (hw l hl) hc⟩
    by_contra hlt
    obtain ⟨hlone, rfl⟩ := loneByte_of_not_lt hl (hw l hl) hc hb hlt
    exact hnone ⟨l, hl, hlone, hP⟩

/-! ## Runs -/

variable {fcntl : ℕ → FcntlResult} {ok : State → Action → Prop}

/-- In every reachable state, `remove_fd_locks` returns, and it unlocks all bytes that only the fd had
locked, unless all of its locks together have just one byte. The same goes for all bytes of its
locks, whoever else has locked them. -/
theorem unlocked_run {as : List Action} (hr : Run (step fcntl) ok .initial as s) {f : FdId} {x : Fd}
    (hx : s.fd f = some x) :
    ∃ t, removeFdLocks f s = .ok (⟨⟩, t) ∧
      (∀ i n, x.inode = some i → s.inode i = some n →
        ((∀ b, b ≤ s.maxUnixOffset → (∃ l ∈ x.locks, (s.lock l).Covers b) →
            (∀ l ∈ n.locks, (s.lock l).Covers b → l ∈ x.locks) → Unlocks s t f b) ↔
          ¬ ∃ l ∈ x.locks, LoneByte s x l ∧
            ∀ l' ∈ n.locks, (s.lock l').Covers (s.lock l).start → l' ∈ x.locks)) ∧
      ((∀ b, b ≤ s.maxUnixOffset → (∃ l ∈ x.locks, (s.lock l).Covers b) → Unlocks s t f b) ↔
        ¬ ∃ l ∈ x.locks, LoneByte s x l) := by
  have hl := linked_run hr
  have hk := locksLinked_run hr
  have he := exclusive_of_run hr
  have hw : ∀ l ∈ x.locks, NoWrap (s.lock l).start (s.lock l).end_ := fun l hmem =>
    he.noWrap l (hk.fd_lock f x l hx hmem).2.1
  have h := wp_removeFdLocks_unlocks hl hk hx
  cases hm : removeFdLocks f s with
  | error e => exact (wp_of_error h hm).elim
  | ok r =>
    refine ⟨r.2, rfl, fun i n _ _ => unlocks_all_iff _ hw (wp_of_ok h hm), ?_⟩
    simpa using unlocks_all_iff (fun _ => True) hw (wp_of_ok h hm)

/-- A file is opened, and some bytes from 7 on are locked. -/
def lockFrom7 (count : FilePos) : List Action :=
  [.openFd ⟨"file", false, false, false, fileWriteData, 7, false, false, false⟩
      ⟨true, true, .ok, some ⟨1, 7, true, false⟩, 0, true, true⟩,
    .lockFd 3 0 7 count false false true]

theorem unlocked_lockFrom7 : ∃ s t, Run (step fun _ => .ok) (fun _ _ => True) .initial (lockFrom7 2) s ∧
    removeFdLocks 0 s = .ok (⟨⟩, t) ∧ Unlocks s t 0 7 ∧ Unlocks s t 0 8 := by
  obtain ⟨s, hr, hp⟩ := run_of_execTo (f := step fun _ => .ok) (s := .initial)
    (q := fun _ _ => True) (g := fun _ _ => true) (l := lockFrom7 2)
    (p := fun s => decide ((s.fd 0).map (·.locks) = some [0] ∧
      s.lock 0 = ⟨0, false, 7, 9, some 3⟩ ∧ s.maxUnixOffset = offTMax))
    (fun _ _ _ => trivial) (by decide +kernel)
  obtain ⟨hlocks, hlock, hmax⟩ := of_decide_eq_true hp
  obtain ⟨x, hx, hxl⟩ := Option.map_eq_some_iff.mp hlocks
  obtain ⟨t, ht, -, hall⟩ := unlocked_run hr hx
  have hunlock := hall.mpr (by
    rintro ⟨l, hl, hlone⟩
    rw [hxl, List.mem_singleton] at hl
    subst hl
    have hlast := hlone.1
    rw [hlock] at hlast
    exact absurd hlast (by decide))
  have hcovers : ∀ b, 7 ≤ b → b ≤ 8 → ∃ l ∈ x.locks, (s.lock l).Covers b := by
    intro b h₁ h₂
    refine ⟨0, by rw [hxl]; exact List.mem_singleton_self 0, ?_⟩
    rw [hlock]
    exact ⟨h₁, Nat.lt_succ_of_le (BitVec.le_def.mp h₂)⟩
  exact ⟨s, t, hr, ht, hunlock 7 (by rw [hmax]; decide +kernel) (hcovers 7 (by decide) (by decide)),
    hunlock 8 (by rw [hmax]; decide +kernel) (hcovers 8 (by decide) (by decide))⟩

/-- The byte 7 stays locked for Unix although its only lock is gone. -/
theorem stale_lockFrom7 :
    ∃ s x n t, Run (step fun _ => .ok) (fun _ _ => True) .initial (lockFrom7 1) s ∧
      s.fd 0 = some x ∧ x.inode = some 0 ∧ s.inode 0 = some n ∧ n.locks = [0] ∧ x.locks = [0] ∧
      (s.lock 0).Covers 7 ∧ 7 ≤ s.maxUnixOffset ∧ removeFdLocks 0 s = .ok (⟨⟩, t) ∧
      ¬ Unlocks s t 0 7 := by
  obtain ⟨s, hr, hp⟩ := run_of_execTo (f := step fun _ => .ok) (s := .initial)
    (q := fun _ _ => True) (g := fun _ _ => true) (l := lockFrom7 1)
    (p := fun s => decide ((s.fd 0).map (fun x => (x.locks, x.inode)) = some ([0], some 0) ∧
      (s.inode 0).map (·.locks) = some [0] ∧ s.lock 0 = ⟨0, false, 7, 8, some 3⟩ ∧
      s.maxUnixOffset = offTMax) &&
      decide ((removeFdLocks 0 s).toOption.map (·.2.events) = some s.events))
    (fun _ _ _ => trivial) (by decide +kernel)
  simp only [Bool.and_eq_true, decide_eq_true_eq] at hp
  obtain ⟨⟨hfd, hinode, hlock, hmax⟩, hremoved⟩ := hp
  obtain ⟨x, hx, hxl⟩ := Option.map_eq_some_iff.mp hfd
  obtain ⟨n, hn, hnl⟩ := Option.map_eq_some_iff.mp hinode
  cases hrun : removeFdLocks 0 s with
  | error e =>
    rw [hrun] at hremoved
    cases hremoved
  | ok r =>
    rw [hrun] at hremoved
    refine ⟨s, x, n, r.2, hr, hx, congrArg Prod.snd hxl, hn, hnl, congrArg Prod.fst hxl, ?_,
      by rw [hmax]; decide +kernel, hrun, ?_⟩
    · rw [hlock]
      exact ⟨by decide, by decide⟩
    · rintro ⟨es, a, z, he, hmem, -⟩
      have hevents : r.2.events = s.events := Option.some.inj hremoved
      rw [hevents] at he
      rw [List.self_eq_append_left.mp he] at hmem
      cases hmem

end Wine.FileDesc
