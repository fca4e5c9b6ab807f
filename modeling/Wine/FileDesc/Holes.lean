import Wine.FileDesc.Gaps

/-!
# Unix locks that are no longer needed

`remove_unix_locks` unlocks an area but for the bytes that the other locks of the inode still cover.
It keeps the rest of the area in a doubly linked list of holes, which it builds in a buffer with a
record for each lock and one more.
-/

namespace Wine.FileDesc

/-- `struct hole`; a pointer is the position of a record in the buffer. -/
structure Hole where
  next : Option ℕ
  prev : Option ℕ
  start : FilePos
  end_ : FilePos
  deriving DecidableEq, Repr

/-- The buffer with the first hole of the list and the first free record. -/
structure HoleList where
  buffer : ℕ → Hole
  first : Option ℕ
  next : ℕ

def HoleList.setHole (s : HoleList) (i : ℕ) (x : Hole) : HoleList :=
  { s with buffer := Function.update s.buffer i x }

/-- What ends the function early: an assertion, a write behind the buffer, or a list that goes round
in circles. -/
inductive HoleFault
  | assertion
  | overrun
  | endless
  deriving DecidableEq, Repr

/-- What one pass through the loop over the holes leads to: the next hole, the next lock, or the
label `done`. -/
inductive Visit
  | next (s : HoleList)
  | stop (s : HoleList)
  | done

/-- The hole `cur` is empty and leaves the list. -/
def unlinkHole (s : HoleList) (cur : Hole) : Visit :=
  let s := match cur.next with
    | some n => s.setHole n { s.buffer n with prev := cur.prev }
    | none => s
  match cur.prev with
  | some p => .next (s.setHole p { s.buffer p with next := cur.next })
  | none => if cur.next.isSome then .next { s with first := cur.next } else .done

/-- The hole `i` ends before the lock, and a new one starts behind the lock. -/
def splitHole (s : HoleList) (i : ℕ) (lock : FileLock) : HoleList :=
  let cur := s.buffer i
  let s' := s.setHole s.next ⟨cur.next, some i, lock.end_, cur.end_⟩
  { s'.setHole i { cur with next := some s.next, end_ := lock.start } with next := s.next + 1 }

/-- The body of the loop over the holes, for the hole `i`; there are `size` records. -/
def visitHole (size : ℕ) (lock : FileLock) (s : HoleList) (i : ℕ) : Except HoleFault Visit :=
  let cur := s.buffer i
  if cur.end_ ≤ lock.start then .ok (.next s)
  else if lock.end_ ≠ 0 ∧ lock.end_ ≤ cur.start then .ok (.stop s)
  else if lock.start ≤ cur.start then
    let s := s.setHole i { cur with start := lock.end_ }
    if lock.end_ ≠ 0 ∧ lock.end_ < cur.end_ then .ok (.stop s)
    else .ok (unlinkHole s { cur with start := lock.end_ })
  else if lock.end_ = 0 ∨ cur.end_ ≤ lock.end_ then
    if cur.start < lock.start then
      .ok (.next (s.setHole i { cur with end_ := lock.start }))
    else .error .assertion
  else if size ≤ s.next then .error .overrun
  else if lock.end_ < cur.end_ ∧ lock.start < lock.end_ then .ok (.stop (splitHole s i lock))
  else .error .assertion

/-- The loop over the holes; there is no list any more after `done`. -/
def walkHoles (size : ℕ) (lock : FileLock) :
    ℕ → HoleList → Option ℕ → Except HoleFault (Option HoleList)
  | _, s, none => .ok (some s)
  | 0, _, some _ => .error .endless
  | fuel + 1, s, some i => do
    match ← visitHole size lock s i with
    | .next s => walkHoles size lock fuel s (s.buffer i).next
    | .stop s => .ok (some s)
    | .done => .ok none

def touches (start end_ : FilePos) (lock : FileLock) : Bool :=
  lock.start ≠ lock.end_ && lockOverlaps lock start end_

/-- The loop over the locks. A walk meets every record at most once. -/
def carveHoles (size : ℕ) (start end_ : FilePos) :
    List FileLock → HoleList → Except HoleFault (Option HoleList)
  | [], s => .ok (some s)
  | lock :: locks, s =>
    if touches start end_ lock then do
      match ← walkHoles size lock size s s.first with
      | some s => carveHoles size start end_ locks s
      | none => .ok none
    else carveHoles size start end_ locks s

/-- The holes of the list. -/
def listHoles (s : HoleList) : ℕ → Option ℕ → Except HoleFault (List (FilePos × FilePos))
  | _, none => .ok []
  | 0, some _ => .error .endless
  | fuel + 1, some i => do
    let cur := s.buffer i
    return (cur.start, cur.end_) :: (← listHoles s fuel cur.next)

/-- `remove_unix_locks` for an fd with the given locks on its inode; the result lists the calls
`set_unix_lock( fd, start, end, F_UNLCK )`. `mem` is the outcome of `malloc`. -/
def clearUnixLocks (maxUnixOffset : FilePos) (fsLocks mem : Bool) (inode : Option (List FileLock))
    (start end_ : FilePos) : Except HoleFault (List (FilePos × FilePos)) :=
  match inode with
  | none => .ok []
  | some locks =>
    if !fsLocks then .ok []
    else if start = end_ ∨ maxUnixOffset < start then .ok []
    else
      let end_ := if end_ = 0 ∨ maxUnixOffset < end_ then maxUnixOffset + 1 else end_
      let count := locks.countP (touches start end_)
      if count = 0 then .ok [(start, end_)]
      else if !mem then .ok []
      else do
        let first : HoleList := ⟨fun _ => ⟨none, none, start, end_⟩, some 0, 1⟩
        match ← carveHoles (count + 1) start end_ locks first with
        | some s => listHoles s (count + 1) s.first
        | none => .ok []

end Wine.FileDesc

/-!
## The hole list holds the gaps

A walk over the list does to the holes what `cut` does to the gaps, as long as no stale gap has to
be removed: only then is a back pointer of use that is out of date.
-/

namespace Wine.FileDesc
open Wine.Lib

/-- Record `i` holds the gap `g`, and points back to `p` unless it is stale. -/
structure Holds (s : HoleList) (p : Option ℕ) (i : ℕ) (g : Gap) : Prop where
  start : (s.buffer i).start.toNat = g.lo
  stop : (s.buffer i).end_.toNat = g.hi
  prev : g.stale = false → (s.buffer i).prev = p

/-- From `cur` on, up to `q`, the list has the records `is`, which hold the gaps; `p` is the record
before them. -/
def Seg (s : HoleList) : Option ℕ → Option ℕ → List ℕ → List Gap → Option ℕ → Prop
  | _, cur, [], [], q => cur = q
  | p, cur, i :: is, g :: gs, q =>
    cur = some i ∧ Holds s p i g ∧ Seg s (some i) (s.buffer i).next is gs q
  | _, _, [], _ :: _, _ => False
  | _, _, _ :: _, [], _ => False

def lastOf : Option ℕ → List ℕ → Option ℕ
  | p, [] => p
  | _, i :: is => lastOf (some i) is

variable {s s' : HoleList} {p q cur m : Option ℕ} {i j n size fuel : ℕ} {is js : List ℕ} {g : Gap}
  {gs hs : List Gap} {lock : FileLock}

theorem Seg.congr (h : Seg s p cur is gs q) (heq : ∀ i ∈ is, s'.buffer i = s.buffer i) :
    Seg s' p cur is gs q := by
  induction is generalizing p cur gs with
  | nil =>
    cases gs with
    | nil => exact h
    | cons g gs => exact h
  | cons i is ih =>
    cases gs with
    | nil => exact h
    | cons g gs =>
      obtain ⟨hcur, hi, hrest⟩ := h
      have hbuf := heq i List.mem_cons_self
      refine ⟨hcur, ⟨hbuf ▸ hi.start, hbuf ▸ hi.stop, hbuf ▸ hi.prev⟩, ?_⟩
      rw [hbuf]
      exact ih hrest fun j hj => heq j (List.mem_cons_of_mem i hj)

theorem Seg.append (h : Seg s p cur is gs m) (h' : Seg s (lastOf p is) m js hs q) :
    Seg s p cur (is ++ js) (gs ++ hs) q := by
  induction is generalizing p cur gs with
  | nil =>
    cases gs with
    | nil =>
      cases h
      exact h'
    | cons g gs => cases h
  | cons i is ih =>
    cases gs with
    | nil => cases h
    | cons g gs =>
      obtain ⟨hcur, hi, hrest⟩ := h
      exact ⟨hcur, hi, ih hrest h'⟩

theorem Seg.snoc (h : Seg s p cur is gs (some i)) (hi : Holds s (lastOf p is) i g) :
    Seg s p cur (is ++ [i]) (gs ++ [g]) (s.buffer i).next :=
  h.append ⟨rfl, hi, rfl⟩

theorem lastOf_snoc : lastOf p (is ++ [i]) = some i := by
  induction is generalizing p with
  | nil => rfl
  | cons j is ih => exact ih

/-- The last record gets another successor. -/
theorem Seg.relink (h : Seg s p cur (is ++ [i]) gs m) (hn : (is ++ [i]).Nodup) :
    Seg (s.setHole i { s.buffer i with next := q }) p cur (is ++ [i]) gs q := by
  induction is generalizing p cur gs with
  | nil =>
    cases gs with
    | nil => cases h
    | cons g gs =>
      obtain ⟨hcur, hi, hrest⟩ := h
      cases gs with
      | nil =>
        refine ⟨hcur, ⟨?_, ?_, ?_⟩, ?_⟩
        all_goals simp only [HoleList.setHole, Function.update_self]
        · exact hi.start
        · exact hi.stop
        · exact hi.prev
        · rfl
      | cons g' gs => cases hrest
  | cons j is ih =>
    cases gs with
    | nil => cases h
    | cons g gs =>
      obtain ⟨hcur, hj, hrest⟩ := h
      obtain ⟨hnot, hn⟩ := List.nodup_cons.mp hn
      have hne : j ≠ i := fun hji => hnot (hji ▸ List.mem_append_right _ List.mem_cons_self)
      have hbuf : (s.setHole i { s.buffer i with next := q }).buffer j = s.buffer j :=
        Function.update_of_ne hne ..
      refine ⟨hcur, ⟨?_, ?_, ?_⟩, ?_⟩
      · rw [hbuf]
        exact hj.start
      · rw [hbuf]
        exact hj.stop
      · rw [hbuf]
        exact hj.prev
      · rw [hbuf]
        exact ih hrest hn

/-! ## The tests of the walk -/

theorem stopOf_le {e x : FilePos} : stopOf e ≤ x.toNat ↔ e ≠ 0 ∧ e ≤ x := by
  have hzero : (0 : FilePos).toNat = 0 := rfl
  have hx := x.isLt
  unfold stopOf
  split
  · next h => exact ⟨fun hle => by omega, fun hne => absurd h hne.1⟩
  · next h => exact (and_iff_right h).symm

theorem stopOf_lt {e x : FilePos} : stopOf e < x.toNat ↔ e ≠ 0 ∧ e < x := by
  have hx := x.isLt
  unfold stopOf
  split
  · next h => exact ⟨fun hle => by omega, fun hne => absurd h hne.1⟩
  · next h => exact (and_iff_right h).symm

theorem stopOf_eq {e x : FilePos} (h : stopOf e < x.toNat) : stopOf e = e.toNat :=
  if_neg (stopOf_lt.mp h).1

theorem le_stopOf {e x : FilePos} : x.toNat ≤ stopOf e ↔ e = 0 ∨ x ≤ e := by
  have hx := x.isLt
  unfold stopOf
  split
  · next h => exact ⟨fun _ => .inl h, fun _ => by omega⟩
  · next h => exact (or_iff_right h).symm

/-! ## Steps of a walk -/

/-- The first gap counts as fresh when the one before it has been removed. -/
def renew (fresh : Bool) : List Gap → List Gap
  | [] => []
  | g :: gs => ⟨g.lo, g.hi, g.stale && !fresh⟩ :: gs

/-- Within a walk: the records `D` are done, and `R` are still to come. -/
structure Walking (s : HoleList) (D R : List ℕ) (dG rG : List Gap) (cur : Option ℕ) : Prop where
  done : Seg s none s.first D dG cur
  rest : Seg s (lastOf none D) cur R rG none
  nodup : (D ++ R).Nodup
  used : ∀ i ∈ D ++ R, i < s.next

def Lists (s : HoleList) (gs : List Gap) : Prop := ∃ is, Walking s [] is [] gs s.first

variable {D R : List ℕ} {dG rG : List Gap} {a b : FilePos}

namespace Walking

theorem lists (h : Walking s D R dG rG cur) : Lists s (dG ++ rG) :=
  ⟨D ++ R, rfl, h.done.append h.rest, h.nodup, h.used⟩

theorem not_mem (h : Walking s D (i :: is) dG rG cur) : i ∉ D ∧ i ∉ is := by
  obtain ⟨-, hR, hdisj⟩ := List.nodup_append.mp h.nodup
  exact ⟨fun hi => hdisj i hi i List.mem_cons_self rfl, (List.nodup_cons.mp hR).1⟩

/-- The gap of the current record gets other ends. -/
theorem shift (h : Walking s D (i :: is) dG (g :: gs) (some i)) :
    Walking (s.setHole i { s.buffer i with start := a, end_ := b }) D (i :: is) dG
      (⟨a.toNat, b.toNat, g.stale⟩ :: gs) (some i) := by
  obtain ⟨hD, hR⟩ := h.not_mem
  obtain ⟨-, hg, hseg⟩ := h.rest
  have hbuf : ∀ j, j ≠ i → (s.setHole i { s.buffer i with start := a, end_ := b }).buffer j =
      s.buffer j := fun j hj => Function.update_of_ne hj ..
  refine ⟨h.done.congr fun j hj => hbuf j fun hji => hD (hji ▸ hj), ⟨rfl, ⟨?_, ?_, ?_⟩, ?_⟩,
    h.nodup, h.used⟩
  all_goals simp only [HoleList.setHole, Function.update_self]
  · exact hg.prev
  · exact hseg.congr fun j hj => hbuf j fun hji => hR (hji ▸ hj)

/-- The walk goes on to the next record. -/
theorem advance (h : Walking s D (i :: is) dG (g :: gs) (some i)) :
    Walking s (D ++ [i]) is (dG ++ [g]) gs (s.buffer i).next := by
  obtain ⟨-, hg, hseg⟩ := h.rest
  refine ⟨h.done.snoc hg, ?_, ?_, fun j hj => h.used j ?_⟩
  · rwa [lastOf_snoc]
  · rw [List.append_assoc]
    exact h.nodup
  · rwa [List.append_assoc] at hj

end Walking

theorem Walking.shrinkStart (h : Walking s D (i :: is) dG (g :: gs) (some i)) :
    Walking (s.setHole i { s.buffer i with start := a }) D (i :: is) dG
      (⟨a.toNat, g.hi, g.stale⟩ :: gs) (some i) := by
  obtain ⟨-, hg, -⟩ := h.rest
  have hshift := h.shift (a := a) (b := (s.buffer i).end_)
  rwa [hg.stop] at hshift

theorem Walking.shrinkEnd (h : Walking s D (i :: is) dG (g :: gs) (some i)) :
    Walking (s.setHole i { s.buffer i with end_ := b }) D (i :: is) dG
      (⟨g.lo, b.toNat, g.stale⟩ :: gs) (some i) := by
  obtain ⟨-, hg, -⟩ := h.rest
  have hshift := h.shift (a := (s.buffer i).start) (b := b)
  rwa [hg.start] at hshift

theorem renew_false : renew false gs = gs := by
  cases gs with
  | nil => rfl
  | cons g gs => simp only [renew, Bool.not_false, Bool.and_true]

theorem Walking.keep (h : Walking s D R dG rG cur) : Walking s D R dG (renew false rG) cur := by
  rwa [renew_false]

/-- `next->prev = prev`, where there is a next record. -/
def backTo (s : HoleList) (next prev : Option ℕ) : HoleList :=
  match next with
  | some n => s.setHole n { s.buffer n with prev := prev }
  | none => s

theorem backTo_buffer (hi : cur ≠ some i) : (backTo s cur p).buffer i = s.buffer i := by
  cases cur with
  | none => rfl
  | some n => exact Function.update_of_ne (fun h => hi (congrArg some h.symm)) ..

theorem backTo_first : (backTo s cur p).first = s.first := by
  cases cur <;> rfl

theorem backTo_next : (backTo s cur p).next = s.next := by
  cases cur <;> rfl

/-- What comes behind a record that leaves the list. -/
theorem Seg.backTo (h : Seg s m cur is gs none) (hn : is.Nodup) :
    Seg (backTo s cur p) p cur is (renew true gs) none := by
  cases is with
  | nil =>
    cases gs with
    | nil => exact h
    | cons g gs => cases h
  | cons i is =>
    cases gs with
    | nil => cases h
    | cons g gs =>
      obtain ⟨rfl, hg, hseg⟩ := h
      refine ⟨rfl, ⟨?_, ?_, fun _ => ?_⟩, ?_⟩
      all_goals simp only [FileDesc.backTo, HoleList.setHole, Function.update_self]
      · exact hg.start
      · exact hg.stop
      · refine hseg.congr fun j hj => Function.update_of_ne (fun hji => ?_) ..
        exact (List.nodup_cons.mp hn).1 (hji ▸ hj)

theorem Seg.not_mem_of_ne (h : Seg s p cur is gs q) (hi : i ∉ is) (hq : q ≠ some i) :
    cur ≠ some i := by
  cases is with
  | nil =>
    cases gs with
    | nil =>
      cases h
      exact hq
    | cons g gs => cases h
  | cons j is =>
    cases gs with
    | nil => cases h
    | cons g gs =>
      obtain ⟨rfl, -⟩ := h
      exact fun heq => hi (Option.some.inj heq ▸ List.mem_cons_self)

theorem unlinkHole_eq (x : Hole) : unlinkHole s x = match x.prev with
    | some p => .next ((backTo s x.next x.prev).setHole p
        { (backTo s x.next x.prev).buffer p with next := x.next })
    | none => if x.next.isSome then .next { backTo s x.next x.prev with first := x.next }
      else .done := by
  unfold unlinkHole backTo
  cases x.next <;> rfl

/-- The current record leaves the list. -/
theorem Walking.unlink (h : Walking s D (i :: is) dG (g :: gs) (some i)) (hs : g.stale = false) :
    (unlinkHole s (s.buffer i) = .done ∧ dG = [] ∧ gs = []) ∨
    ∃ s', unlinkHole s (s.buffer i) = .next s' ∧ s'.next = s.next ∧ s'.buffer i = s.buffer i ∧
      Walking s' D is dG (renew true gs) (s.buffer i).next := by
  obtain ⟨hiD, his⟩ := h.not_mem
  obtain ⟨-, hg, hseg⟩ := h.rest
  have hprev := hg.prev hs
  obtain ⟨hD, hR, hdisj⟩ := List.nodup_append.mp h.nodup
  have hnis := (List.nodup_cons.mp hR).2
  have hnext : (s.buffer i).next ≠ some i := hseg.not_mem_of_ne his (Option.some_ne_none i).symm
  have hnodup : (D ++ is).Nodup :=
    List.nodup_append.mpr ⟨hD, hnis, fun j hj k hk => hdisj j hj k (List.mem_cons_of_mem i hk)⟩
  have hback : Seg (backTo s (s.buffer i).next (s.buffer i).prev) (lastOf none D)
      (s.buffer i).next is (renew true gs) none := by
    rw [hprev]
    exact hseg.backTo hnis
  have hused : ∀ j ∈ D ++ is, j < s.next := by
    intro j hj
    refine h.used j (List.mem_append.mpr ?_)
    exact (List.mem_append.mp hj).imp_right (List.mem_cons_of_mem i)
  rw [unlinkHole_eq, hprev]
  rw [hprev] at hback
  obtain rfl | ⟨D, j, rfl⟩ := D.eq_nil_or_concat'
  · have hdone := h.done
    cases dG with
    | cons g' dG => cases hdone
    | nil =>
      dsimp only [lastOf]
      split
      · refine .inr ⟨_, rfl, backTo_next, backTo_buffer hnext, rfl, ?_, hnodup, ?_⟩
        · exact hback.congr fun _ _ => rfl
        · intro j hj
          exact (hused j hj).trans_eq backTo_next.symm
      · next hnone =>
        refine .inl ⟨rfl, rfl, ?_⟩
        rw [Option.not_isSome_iff_eq_none.mp hnone] at hseg
        cases is with
        | nil =>
          cases gs with
          | nil => rfl
          | cons g gs => cases hseg
        | cons k is =>
          cases gs with
          | nil => cases hseg
          | cons g gs => cases hseg.1
  · rw [lastOf_snoc] at hback ⊢
    have hji : j ≠ i := fun h => hiD (h ▸ List.mem_append_right D List.mem_cons_self)
    have hout : ∀ k ∈ D ++ [j], k ∉ is := fun k hk hki => hdisj k hk k (List.mem_cons_of_mem i hki) rfl
    have hbuf : ∀ k ∈ D ++ [j], (backTo s (s.buffer i).next (some j)).buffer k = s.buffer k :=
      fun k hk => backTo_buffer (hseg.not_mem_of_ne (hout k hk) (Option.some_ne_none k).symm)
    have hdone := h.done.congr hbuf
    refine .inr ⟨_, rfl, backTo_next, ?_, ?_, ?_, hnodup, ?_⟩
    · exact (Function.update_of_ne hji.symm ..).trans (backTo_buffer hnext)
    · have hrelink := hdone.relink hD (q := (s.buffer i).next)
      rwa [← @backTo_first s (some j) (s.buffer i).next] at hrelink
    · rw [lastOf_snoc]
      refine hback.congr fun k hk => Function.update_of_ne (fun hkj => ?_) ..
      exact hout j (List.mem_append_right D List.mem_cons_self) (hkj ▸ hk)
    · intro k hk
      exact (hused k hk).trans_eq backTo_next.symm

/-- What comes behind a record that has been split. -/
theorem Seg.spoil (h : Seg s m cur is gs q) : Seg s p cur is (spoil gs) q := by
  cases is with
  | nil =>
    cases gs with
    | nil => exact h
    | cons g gs => cases h
  | cons i is =>
    cases gs with
    | nil => cases h
    | cons g gs =>
      obtain ⟨hcur, hg, hseg⟩ := h
      exact ⟨hcur, ⟨hg.start, hg.stop, fun hs => by cases hs⟩, hseg⟩

/-- The current record is split. -/
theorem Walking.split (h : Walking s D (i :: is) dG (g :: gs) (some i)) :
    Walking (splitHole s i lock) D (i :: s.next :: is) dG
      (⟨g.lo, lock.start.toNat, g.stale⟩ :: ⟨lock.end_.toNat, g.hi, false⟩ :: spoil gs)
      (some i) := by
  obtain ⟨hiD, his⟩ := h.not_mem
  obtain ⟨-, hg, hseg⟩ := h.rest
  have hnew : ∀ k ∈ D ++ i :: is, k ≠ s.next := fun k hk => (h.used k hk).ne
  have hi : i ≠ s.next := hnew i (List.mem_append_right D List.mem_cons_self)
  have hbuf : ∀ k ∈ D ++ i :: is, k ≠ i → (splitHole s i lock).buffer k = s.buffer k := by
    intro k hk hki
    exact (Function.update_of_ne hki ..).trans (Function.update_of_ne (hnew k hk) ..)
  have hbufi : (splitHole s i lock).buffer i =
      { s.buffer i with next := some s.next, end_ := lock.start } := Function.update_self ..
  have hbufn : (splitHole s i lock).buffer s.next =
      ⟨(s.buffer i).next, some i, lock.end_, (s.buffer i).end_⟩ :=
    (Function.update_of_ne hi.symm ..).trans (Function.update_self ..)
  refine ⟨h.done.congr fun k hk => hbuf k (List.mem_append_left _ hk) fun hki => hiD (hki ▸ hk),
    ⟨rfl, ⟨?_, ?_, ?_⟩, ?_⟩, ?_, fun k hk => ?_⟩
  · rw [hbufi]
    exact hg.start
  · rw [hbufi]
  · rw [hbufi]
    exact hg.prev
  · rw [hbufi]
    refine ⟨rfl, ⟨?_, ?_, ?_⟩, ?_⟩
    · rw [hbufn]
    · rw [hbufn]
      exact hg.stop
    · rw [hbufn]
      exact fun _ => rfl
    · rw [hbufn]
      refine hseg.spoil.congr fun k hk => ?_
      exact hbuf k (List.mem_append_right D (List.mem_cons_of_mem i hk)) fun hki => his (hki ▸ hk)
  · have hperm : (D ++ i :: s.next :: is).Perm (s.next :: (D ++ i :: is)) := by
      rw [List.append_cons D i (s.next :: is), List.append_cons D i is]
      exact List.perm_middle
    exact hperm.nodup_iff.mpr (List.nodup_cons.mpr ⟨fun hmem => hnew _ hmem rfl, h.nodup⟩)
  · have hlt := h.used k
    simp only [List.mem_append, List.mem_cons] at hk hlt
    obtain hk | hk | rfl | hk := hk
    · exact Nat.lt_succ_of_lt (hlt (.inl hk))
    · exact Nat.lt_succ_of_lt (hlt (.inr (.inl hk)))
    · exact Nat.lt_succ_self _
    · exact Nat.lt_succ_of_lt (hlt (.inr (.inr hk)))

/-! ## A walk -/

/-- What is left of the list after a walk. -/
def Left (n : ℕ) (gs : List Gap) : Option HoleList → Prop
  | some s => Lists s gs ∧ s.next ≤ n
  | none => gs = []

theorem visitHole_eq (hlt : lock.start.toNat < stopOf lock.end_) (hg : Holds s p i g) :
    visitHole size lock s i =
      if g.hi ≤ lock.start.toNat then .ok (.next s)
      else if stopOf lock.end_ ≤ g.lo then .ok (.stop s)
      else if lock.start.toNat ≤ g.lo then
        let s := s.setHole i { s.buffer i with start := lock.end_ }
        if stopOf lock.end_ < g.hi then .ok (.stop s) else .ok (unlinkHole s (s.buffer i))
      else if g.hi ≤ stopOf lock.end_ then
        .ok (.next (s.setHole i { s.buffer i with end_ := lock.start }))
      else if size ≤ s.next then .error .overrun
      else .ok (.stop (splitHole s i lock)) := by
  have hself : ∀ x, (s.setHole i x).buffer i = x := fun x => Function.update_self ..
  simp only [← hg.start, ← hg.stop, ← BitVec.le_def, stopOf_le, stopOf_lt, le_stopOf, hself]
  unfold visitHole
  dsimp only
  refine ite_congr rfl (fun _ => rfl) fun _ => ite_congr rfl (fun _ => rfl) fun _ =>
    ite_congr rfl (fun _ => rfl) fun hstart => ite_congr rfl (fun _ => ?_) fun hend =>
    ite_congr rfl (fun _ => rfl) fun _ => ?_
  · exact if_pos (BitVec.not_le.mp hstart)
  · obtain ⟨hne, hend⟩ := not_or.mp hend
    unfold stopOf at hlt
    rw [if_neg hne] at hlt
    exact if_pos ⟨BitVec.not_le.mp hend, BitVec.lt_def.mpr hlt⟩

theorem walk_next {s' : HoleList} (h : visitHole size lock s i = .ok (.next s')) :
    walkHoles size lock (fuel + 1) s (some i) = walkHoles size lock fuel s' (s'.buffer i).next := by
  rw [walkHoles, h]
  rfl

theorem walk_stop {s' : HoleList} (h : visitHole size lock s i = .ok (.stop s')) :
    walkHoles size lock (fuel + 1) s (some i) = .ok (some s') := by
  rw [walkHoles, h]
  rfl

theorem walk_done (h : visitHole size lock s i = .ok .done) :
    walkHoles size lock (fuel + 1) s (some i) = .ok none := by
  rw [walkHoles, h]
  rfl

theorem walk_spec {f : Bool} {gs' : List Gap} (hlt : lock.start.toNat < stopOf lock.end_)
    (hsize : s.next < size) (hw : Walking s D R dG (renew f rG) cur) (hfuel : R.length ≤ fuel)
    (hc : cut lock.start.toNat (stopOf lock.end_) f rG = some gs') :
    ∃ r, walkHoles size lock fuel s cur = .ok r ∧ Left (s.next + 1) (dG ++ gs') r := by
  induction rG generalizing s D R dG f cur fuel gs' with
  | nil =>
    cases hc
    have hrest := hw.rest
    cases R with
    | cons i is => cases hrest
    | nil =>
      cases hrest
      refine ⟨some s, ?_, hw.lists, Nat.le_succ _⟩
      cases fuel <;> rfl
  | cons g gs ih =>
    have hrest := hw.rest
    cases R with
    | nil => cases hrest
    | cons i is =>
      obtain ⟨rfl, hg, -⟩ := hrest
      cases fuel with
      | zero => cases hfuel
      | succ fuel =>
        have hlen : is.length ≤ fuel := Nat.le_of_succ_le_succ hfuel
        have hvisit := @visitHole_eq _ _ _ size _ _ hlt hg
        have hhi : (s.buffer i).end_.toNat = g.hi := hg.stop
        dsimp only at hvisit
        unfold cut at hc
        split at hc
        · next hbefore =>
          obtain ⟨rest, hrest, rfl⟩ := Option.map_eq_some_iff.mp hc
          rw [if_pos hbefore] at hvisit
          rw [walk_next hvisit, List.append_cons]
          exact ih (f := false) hsize hw.advance.keep hlen hrest
        next hnot =>
        rw [if_neg hnot] at hvisit
        split at hc
        · next hbehind =>
          cases hc
          rw [if_pos hbehind] at hvisit
          exact ⟨_, walk_stop hvisit, hw.lists, Nat.le_succ _⟩
        next hnot =>
        rw [if_neg hnot] at hvisit
        split at hc
        · next hfirst =>
          rw [if_pos hfirst] at hvisit
          have hshrunk := hw.shrinkStart (a := lock.end_)
          split at hc
          · next hshort =>
            cases hc
            rw [if_pos hshort] at hvisit
            rw [stopOf_eq (hhi ▸ hshort)]
            exact ⟨_, walk_stop hvisit, hshrunk.lists, Nat.le_succ _⟩
          next hnot =>
          rw [if_neg hnot] at hvisit
          split at hc
          · cases hc
          next hstale =>
          obtain ⟨hdone, rfl, rfl⟩ | ⟨s', hnext, hfree, hbuf, hw'⟩ :=
            hshrunk.unlink (Bool.not_eq_true _ ▸ hstale)
          · cases hc
            rw [hdone] at hvisit
            exact ⟨none, walk_done hvisit, rfl⟩
          · rw [hnext] at hvisit
            rw [walk_next hvisit, hbuf]
            obtain ⟨r, hr, hleft⟩ := ih (f := true) (hfree.trans_lt hsize) hw' hlen hc
            rw [hfree] at hleft
            exact ⟨r, hr, hleft⟩
        next hnot =>
        rw [if_neg hnot] at hvisit
        split at hc
        · next hlast =>
          obtain ⟨rest, hrest, rfl⟩ := Option.map_eq_some_iff.mp hc
          rw [if_pos hlast] at hvisit
          rw [walk_next hvisit, List.append_cons]
          have hshrunk := hw.shrinkEnd (b := lock.start)
          exact ih (f := false) (s := s.setHole i _) hsize hshrunk.advance.keep hlen hrest
        · next hnot =>
          rw [if_neg hnot, if_neg (Nat.not_le.mpr hsize)] at hvisit
          cases hc
          rw [stopOf_eq (hhi ▸ Nat.lt_of_not_le hnot)]
          exact ⟨_, walk_stop hvisit, hw.split.lists, le_rfl⟩

end Wine.FileDesc
