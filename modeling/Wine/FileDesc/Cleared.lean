import Wine.FileDesc.Holes
import Wine.Lib.Links

/-!
# What is unlocked

`remove_unix_locks` unlocks exactly the bytes of its area that no lock covers, unless it follows a
back pointer that is out of date, or takes the whole file for an empty area.
-/

namespace Wine.FileDesc
open Wine.Lib

/-- A lock swallows a gap whose left neighbour has been split while next to it, and is still
there. -/
def FollowsStale (area : Set ℕ) (locks : List FileLock) : Prop :=
  ∃ seen k rest c x, locks = seen ++ k :: rest ∧ SplitOff area seen c x ∧ c ∉ k.bytes ∧
    ∀ y, Joined (unlocked area seen) x y → y ∈ k.bytes

/-- The bytes of `[start, end_)` up to the limit. -/
def lockable (maxUnixOffset start end_ : FilePos) : Set ℕ :=
  {x | start.toNat ≤ x ∧ x < stopOf end_ ∧ x ≤ maxUnixOffset.toNat}

def region (c : FilePos × FilePos) : Set ℕ := Set.Ico c.1.toNat c.2.toNat

/-- The calls unlock the bytes that are in none of the locks, and none of them twice. -/
structure ClearsFree (maxUnixOffset start end_ : FilePos) (locks : List FileLock)
    (calls : List (FilePos × FilePos)) : Prop where
  lt : ∀ c ∈ calls, c.1 < c.2
  disjoint : calls.Pairwise fun c d => Disjoint (region c) (region d)
  bytes : ∀ x, (∃ c ∈ calls, x ∈ region c) ↔ x ∈ unlocked (lockable maxUnixOffset start end_) locks

variable {s s' : HoleList} {size fuel : ℕ} {p cur : Option ℕ} {is D R : List ℕ}
  {gs dG rG : List Gap} {start end_ maxUnixOffset : FilePos} {lock : FileLock}
  {locks seen rest : List FileLock} {area : Set ℕ}

theorem Walking.length_le (h : Walking s D R dG rG cur) : (D ++ R).length ≤ s.next :=
  length_le_of_nodup h.nodup h.used

/-! ## The locks -/

theorem bytes_of_not_touches (h : touches start end_ lock = false) :
    ∀ y ∈ Set.Ico start.toNat end_.toNat, y ∉ lock.bytes := by
  rintro y ⟨hs, he⟩ ⟨hne, hks, hke⟩
  have hover : lockOverlaps lock start end_ = false := by
    simpa [touches, hne] using h
  unfold lockOverlaps at hover
  split at hover
  · next hbefore =>
    have hle := BitVec.le_def.mp hbefore.2
    rw [stopOf, if_neg hbefore.1] at hke
    omega
  split at hover
  · next hbehind =>
    have hle := BitVec.le_def.mp hbehind.2
    omega
  · cases hover

theorem ne_of_touches (h : touches start end_ lock = true) : lock.start ≠ lock.end_ := by
  unfold touches at h
  exact of_decide_eq_true (Bool.and_eq_true_iff.mp h).1

theorem lt_stopOf (hw : NoWrap start end_) (hne : start ≠ end_) : start.toNat < stopOf end_ := by
  have hlt := start.isLt
  unfold stopOf
  split
  · exact hlt
  · next hend =>
    by_contra hle
    refine hw ⟨hend, BitVec.lt_of_le_ne (BitVec.le_def.mpr (Nat.not_lt.mp hle)) hne.symm⟩

theorem mem_bytes (hne : lock.start ≠ lock.end_) (y : ℕ) :
    y ∈ lock.bytes ↔ lock.start.toNat ≤ y ∧ y < stopOf lock.end_ :=
  and_iff_right hne

theorem GapsOf.nil (h : GapsOf area seen []) (rest : List FileLock) :
    GapsOf area (seen ++ rest) [] := by
  refine ⟨h.proper, fun y => ⟨fun hy => ?_, fun hy => ?_⟩, trivial⟩
  · rw [gapBytes, cover_nil] at hy
    exact absurd hy (Set.notMem_empty y)
  · exact (h.bytes y).mpr ⟨hy.1, fun k hk => hy.2 k (List.mem_append_left rest hk)⟩

theorem carve_spec (hlocks : ∀ k ∈ locks, NoWrap k.start k.end_)
    (hgaps : GapsOf (Set.Ico start.toNat end_.toNat) seen gs) (hl : Lists s gs)
    (hsize : s.next + locks.countP (touches start end_) ≤ size)
    (hstale : ¬ FollowsStale (Set.Ico start.toNat end_.toNat) (seen ++ locks)) :
    ∃ r gs', carveHoles size start end_ locks s = .ok r ∧
      GapsOf (Set.Ico start.toNat end_.toNat) (seen ++ locks) gs' ∧ Left size gs' r := by
  induction locks generalizing seen gs s with
  | nil =>
    rw [List.append_nil]
    exact ⟨some s, gs, rfl, hgaps, hl, hsize⟩
  | cons lock locks ih =>
    have hrest := fun k hk => hlocks k (List.mem_cons_of_mem lock hk)
    rw [List.append_cons] at hstale ⊢
    unfold carveHoles
    split
    · next htouch =>
      have hne := ne_of_touches htouch
      have hbytes : ∀ y ∈ Set.Ico start.toNat end_.toNat, y ∈ lock.bytes ↔
          lock.start.toNat ≤ y ∧ y < stopOf lock.end_ := fun y _ => mem_bytes hne y
      have hlt := lt_stopOf (hlocks lock List.mem_cons_self) hne
      rw [List.countP_cons_of_pos htouch] at hsize
      cases hc : cut lock.start.toNat (stopOf lock.end_) false gs with
      | none =>
        obtain ⟨c, x, hsplit, hc, hx⟩ := hgaps.cut_none hbytes hc
        exact absurd ⟨seen, lock, locks, c, x, List.append_assoc .., hsplit, hc, hx⟩ hstale
      | some gs' =>
        have hgaps' := hgaps.cut hlt hbytes hc
        obtain ⟨is, hw⟩ := hl
        have hlen : is.length ≤ size := hw.length_le.trans (by omega)
        obtain ⟨r, hr, hleft⟩ := walk_spec hlt (show s.next < size by omega) hw.keep hlen hc
        rw [hr]
        cases r with
        | none =>
          cases hleft
          exact ⟨none, [], rfl, hgaps'.nil locks, rfl⟩
        | some s' =>
          obtain ⟨hl', hnext⟩ := hleft
          exact ih hrest hgaps' hl' (by omega) hstale
    · next htouch =>
      rw [List.countP_cons_of_neg htouch] at hsize
      refine ih hrest (hgaps.skip (bytes_of_not_touches ?_)) hl hsize hstale
      exact Bool.not_eq_true _ ▸ htouch

/-! ## Records and assertions

Whatever the back pointers are, the assertions hold, and a lock takes one more record at most. -/

/-! ## The calls -/

theorem listHoles_spec (h : Seg s p cur is gs none) (hfuel : is.length ≤ fuel) :
    ∃ calls, listHoles s fuel cur = .ok calls ∧
      calls.map (fun c => (c.1.toNat, c.2.toNat)) = gs.map fun g => (g.lo, g.hi) := by
  induction is generalizing p cur gs fuel with
  | nil =>
    cases gs with
    | cons g gs => cases h
    | nil =>
      cases h
      refine ⟨[], ?_, rfl⟩
      cases fuel <;> rfl
  | cons i is ih =>
    cases gs with
    | nil => cases h
    | cons g gs =>
      obtain ⟨rfl, hg, hseg⟩ := h
      cases fuel with
      | zero => cases hfuel
      | succ fuel =>
        obtain ⟨calls, hcalls, hmap⟩ := ih hseg (Nat.le_of_succ_le_succ hfuel)
        refine ⟨((s.buffer i).start, (s.buffer i).end_) :: calls, ?_, ?_⟩
        · unfold listHoles
          dsimp only
          rw [hcalls]
          rfl
        · rw [List.map_cons, List.map_cons, hmap, hg.start, hg.stop]

theorem clearsFree_of_gaps {calls : List (FilePos × FilePos)}
    (h : GapsOf (lockable maxUnixOffset start end_) locks gs)
    (hmap : calls.map (fun c => (c.1.toNat, c.2.toNat)) = gs.map fun g => (g.lo, g.hi)) :
    ClearsFree maxUnixOffset start end_ locks calls := by
  have hends : ∀ q : ℕ × ℕ, (∃ c ∈ calls, (c.1.toNat, c.2.toNat) = q) ↔
      ∃ g ∈ gs, (g.lo, g.hi) = q := by
    intro q
    rw [← List.mem_map, hmap, List.mem_map]
  have hlt : ∀ c ∈ calls, c.1.toNat < c.2.toNat := by
    intro c hc
    obtain ⟨g, hg, hq⟩ := (hends (c.1.toNat, c.2.toNat)).mp ⟨c, hc, rfl⟩
    obtain ⟨hlo, hhi⟩ := Prod.mk.inj hq
    rw [← hlo, ← hhi]
    exact h.proper.lt g hg
  refine ⟨fun c hc => BitVec.lt_def.mpr (hlt c hc), ?_, fun x => ?_⟩
  · have hpair : (gs.map fun g => (g.lo, g.hi)).Pairwise fun q r => q.2 < r.1 :=
      List.pairwise_map.mpr h.proper.apart.apart
    rw [← hmap, List.pairwise_map] at hpair
    refine hpair.imp fun {c d} hcd => Set.disjoint_left.mpr fun x hx hx' => ?_
    exact absurd (hx.2.trans hcd) (not_lt.mpr hx'.1)
  · rw [← h.bytes]
    constructor
    · rintro ⟨c, hc, hx⟩
      obtain ⟨g, hg, hq⟩ := (hends (c.1.toNat, c.2.toNat)).mp ⟨c, hc, rfl⟩
      obtain ⟨hlo, hhi⟩ := Prod.mk.inj hq
      exact ⟨g, hg, hlo ▸ hx.1, hhi ▸ hx.2⟩
    · rintro ⟨g, hg, hx⟩
      obtain ⟨c, hc, hq⟩ := (hends (g.lo, g.hi)).mpr ⟨g, hg, rfl⟩
      obtain ⟨hlo, hhi⟩ := Prod.mk.inj hq
      exact ⟨c, hc, hlo ▸ hx.1, hhi ▸ hx.2⟩

/-- The area as one gap. -/
theorem gapsOf_area (h : start < end_) :
    GapsOf (Set.Ico start.toNat end_.toNat) [] [⟨start.toNat, end_.toNat, false⟩] := by
  have hlt := BitVec.lt_def.mp h
  refine ⟨Proper.cons_iff.mpr ⟨hlt, ?_, ?_, ?_⟩, fun y => ?_,
    fun hs => absurd hs Bool.false_ne_true, trivial⟩
  · exact fun g hg => absurd hg List.not_mem_nil
  · exact fun g hg => absurd hg List.not_mem_nil
  · exact Separated.nil
  · rw [mem_gapBytes_cons, gapBytes, cover_nil, or_iff_left (Set.notMem_empty y)]
    exact (and_iff_left fun k hk => absurd hk List.not_mem_nil).symm

theorem GapsOf.skip_all (h : GapsOf area seen gs)
    (hrest : ∀ k ∈ rest, ∀ y ∈ area, y ∉ k.bytes) : GapsOf area (seen ++ rest) gs := by
  induction rest generalizing seen with
  | nil => rwa [List.append_nil]
  | cons k rest ih =>
    obtain ⟨hk, hrest⟩ := List.forall_mem_cons.mp hrest
    rw [List.append_cons]
    exact ih (h.skip hk) hrest

/-! ## The area -/

theorem toNat_succ (hmax : maxUnixOffset ≠ filePosMax) :
    (maxUnixOffset + 1).toNat = maxUnixOffset.toNat + 1 := by
  have hlt := maxUnixOffset.isLt
  have hne : maxUnixOffset.toNat ≠ 2 ^ 64 - 1 := fun h => hmax (BitVec.eq_of_toNat_eq h)
  rw [BitVec.toNat_add]
  exact Nat.mod_eq_of_lt (show maxUnixOffset.toNat + 1 < 2 ^ 64 by omega)

/-- The end that the code works with. -/
theorem lockable_eq {e : FilePos} (hmax : maxUnixOffset ≠ filePosMax)
    (he : e = if end_ = 0 ∨ maxUnixOffset < end_ then maxUnixOffset + 1 else end_) :
    lockable maxUnixOffset start end_ = Set.Ico start.toNat e.toNat := by
  have hlimit := maxUnixOffset.isLt
  have hsucc := toNat_succ hmax
  ext x
  have hmem : x ∈ lockable maxUnixOffset start end_ ↔
      start.toNat ≤ x ∧ x < stopOf end_ ∧ x ≤ maxUnixOffset.toNat := Iff.rfl
  rw [hmem, Set.mem_Ico]
  refine and_congr_right fun _ => ?_
  subst he
  unfold stopOf
  split
  · next h =>
    rw [if_pos (.inl h), hsucc]
    omega
  · next h =>
    split
    · next hlt =>
      have hlt := BitVec.lt_def.mp (hlt.resolve_left h)
      omega
    · next hle =>
      have hle := BitVec.le_def.mp (BitVec.not_lt.mp (not_or.mp hle).2)
      omega

theorem carve_clears (hlocks : ∀ k ∈ locks, NoWrap k.start k.end_) (hlt : start < end_)
    (hstale : ¬ FollowsStale (Set.Ico start.toNat end_.toNat) locks) {count : ℕ}
    (hcount : locks.countP (touches start end_) = count) :
    ∃ r gs, carveHoles (count + 1) start end_ locks ⟨fun _ => ⟨none, none, start, end_⟩, some 0, 1⟩
      = .ok r ∧ GapsOf (Set.Ico start.toNat end_.toNat) locks gs ∧ Left (count + 1) gs r := by
  refine carve_spec hlocks (gapsOf_area hlt) ⟨[0], rfl, ?_, ?_, ?_⟩ ?_ hstale
  · exact ⟨rfl, ⟨rfl, rfl, fun _ => rfl⟩, rfl⟩
  · exact List.nodup_singleton 0
  · exact fun i hi => by simp_all
  · rw [hcount, Nat.add_comm]

theorem clearUnixLocks_clears (hmax : maxUnixOffset ≠ filePosMax) (hw : NoWrap start end_)
    (hlocks : ∀ k ∈ locks, NoWrap k.start k.end_) (hall : ¬ (start = 0 ∧ end_ = 0))
    (hstale : ¬ FollowsStale (lockable maxUnixOffset start end_) locks) :
    ∃ calls, clearUnixLocks maxUnixOffset true true (some locks) start end_ = .ok calls ∧
      ClearsFree maxUnixOffset start end_ locks calls := by
  unfold clearUnixLocks
  dsimp only
  rw [if_neg (by decide)]
  split
  · next hnone =>
    refine ⟨[], rfl, fun c hc => absurd hc List.not_mem_nil, List.Pairwise.nil, fun x => ?_⟩
    refine iff_of_false (fun hx => ?_) fun hx => ?_
    · obtain ⟨c, hc, -⟩ := hx
      exact absurd hc List.not_mem_nil
    · obtain ⟨⟨hs, he, hm⟩, -⟩ := hx
      obtain rfl | hlt := hnone
      · rw [stopOf, if_neg fun h => hall ⟨h, h⟩] at he
        omega
      · have hlt := BitVec.lt_def.mp hlt
        omega
  next hsome =>
  obtain ⟨hne, hle⟩ := not_or.mp hsome
  generalize he : (if end_ = 0 ∨ maxUnixOffset < end_ then maxUnixOffset + 1 else end_) = e
  have harea : lockable maxUnixOffset start end_ = _ := lockable_eq hmax he.symm
  have hlt : start < e := by
    subst he
    have hle := BitVec.le_def.mp (BitVec.not_lt.mp hle)
    split
    · rw [BitVec.lt_def, toNat_succ hmax]
      omega
    · next hend =>
      have hstop := lt_stopOf hw hne
      rwa [stopOf, if_neg (not_or.mp hend).1] at hstop
  rw [harea] at hstale
  split
  · next hcount =>
    have hgaps := (gapsOf_area hlt).skip_all fun k hk =>
      bytes_of_not_touches (Bool.not_eq_true _ ▸ List.countP_eq_zero.mp hcount k hk)
    rw [← harea] at hgaps
    exact ⟨_, rfl, clearsFree_of_gaps hgaps rfl⟩
  · obtain ⟨r, gs, hr, hgaps, hleft⟩ := carve_clears hlocks hlt hstale rfl
    rw [if_neg (by decide), hr]
    rw [← harea] at hgaps
    cases r with
    | none =>
      cases hleft
      exact ⟨[], rfl, clearsFree_of_gaps hgaps rfl⟩
    | some s =>
      obtain ⟨⟨is, hwalk⟩, hnext⟩ := hleft
      obtain ⟨calls, hcalls, hmap⟩ := listHoles_spec hwalk.rest (hwalk.length_le.trans hnext)
      exact ⟨calls, hcalls, clearsFree_of_gaps hgaps hmap⟩

def clearLock (start end_ : FilePos) : FileLock := ⟨0, false, start, end_, none⟩

theorem clearUnixLocks_clears_split :
    ∃ calls, clearUnixLocks 1000 true true (some [clearLock 20 30]) 0 100 = .ok calls ∧
      ClearsFree 1000 0 100 [clearLock 20 30] calls := by
  refine clearUnixLocks_clears (by decide) (by unfold NoWrap; decide) ?_ (by decide) ?_
  · intro k hk
    cases List.mem_singleton.mp hk
    unfold NoWrap
    decide
  · rintro ⟨seen, k, rest, c, x, heq, ⟨pre, l, post, rfl, -⟩, -⟩
    have hlen := congrArg List.length heq
    simp only [List.length_append, List.length_cons, List.length_nil] at hlen
    omega

/-- The second lock splits the hole in front of the third one, which then goes with its stale back
pointer; `[30, 50)` drops out of the list. -/
theorem clearUnixLocks_drops : ¬ ∃ calls,
    clearUnixLocks 1000 true true (some [clearLock 50 60, clearLock 20 30, clearLock 60 100]) 0 100
      = .ok calls ∧
    ClearsFree 1000 0 100 [clearLock 50 60, clearLock 20 30, clearLock 60 100] calls := by
  have hrun : clearUnixLocks 1000 true true
      (some [clearLock 50 60, clearLock 20 30, clearLock 60 100]) 0 100 = .ok [(0, 20)] := by
    decide
  rintro ⟨calls, hcalls, hclears⟩
  rw [hrun] at hcalls
  cases hcalls
  have hfree : 30 ∈ unlocked (lockable 1000 0 100)
      [clearLock 50 60, clearLock 20 30, clearLock 60 100] := by
    refine ⟨⟨by decide, by decide, by decide⟩, fun k hk hmem => ?_⟩
    have hmem := hmem.2
    simp only [List.mem_cons, List.not_mem_nil, or_false] at hk
    obtain rfl | rfl | rfl := hk
    · exact absurd hmem.1 (by decide)
    · exact absurd hmem.2 (by decide)
    · exact absurd hmem.1 (by decide)
  obtain ⟨c, hc, hlo, hhi⟩ := (hclears.bytes 30).mpr hfree
  cases List.mem_singleton.mp hc
  exact absurd hhi (by decide)

end Wine.FileDesc
