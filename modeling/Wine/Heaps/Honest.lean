import Wine.Heaps.ReAlloc

/-!
# Honest answers

A request is honest when it fails in a heap that stays consistent, or returns a block that is as large
as it was asked to be. The sums of 32-bit sizes wrap for requests close to the limit; there a heap is
honest only where it refuses before it looks at a block.
-/

namespace Wine.Heaps
open Wine.Lib Reading

variable {h h' : Heap} {ts ts' ts₁ ts₂ : List Tile} {s : SubHeap}
  {cs xs ys zs : List Piece} {c c' : Piece} {m : Memory} {before : Before} {e : Outcomes}
  {flags : CallFlags} {a p q n k size : ℕ}

/-- The request fails and the heap is consistent, or it returns a block with room for `size` bytes. -/
def Honest (r : Answer × Heap) (size : ℕ) : Prop :=
  r.1.Failed ∧ Consistent r.2 ∨
    ∃ p n ts, r.1 = .block (p + 8) ∧ Serves r.2 ts p n size

/-- A search for `size` bytes gives up: the free block that it comes to first needs memory that cannot
be committed, or there is none and no new sub-heap either. -/
def Heap.Refuses (h : Heap) (e : Outcomes) (size : ℕ) : Prop :=
  (∃ p ∈ h.searchFreeList size, ∃ s ∈ h.findSubHeap p,
      s.commitSize < s.commitEnd p size ∧ e.commit = false) ∨
    h.searchFreeList size = none ∧
      ¬ (h.flags.growable = true ∧ e.reserve.isSome = true ∧ e.commitNew = true)

/-- The block behind the one at `p` is not the last one of its sub-heap. -/
def Heap.GoesOn (h : Heap) (p : ℕ) : Prop :=
  ∃ s ∈ h.findSubHeap p,
    p + 8 + sizeOf (word h.mem p) + 16 + sizeOf (word h.mem (p + 8 + sizeOf (word h.mem p))) < s.limit

/-! ### Sizes that no block can have -/

theorem TileAt.totalOf_le {t : Tile} (H : TileAt m t) : totalOf t.2 ≤ 0xfffe0000 := by
  have hwf := H.wellFormed
  have hfilled := H.filled
  have hlimit := hwf.limit_lt
  have hbase := hwf.base_ge
  have haligned := hwf.size_aligned
  rw [SubHeap.first, SubHeap.limit] at hfilled
  rw [SubHeap.limit, sizeLimit] at hlimit
  omega

namespace Arranged

theorem used_le (H : Arranged h ts) (hused : UsedIn ts p n) : n ≤ 0xfffe0000 := by
  obtain ⟨ts₁, s, xs, ys, ts₂, rfl, hp⟩ := hused.split
  have hle := H.middle.totalOf_le
  simp only [totalOf_append, totalOf_cons, Piece.total] at hle
  omega

end Arranged

theorem Serves.le_maxRequest (H : Serves h ts p n size) : size ≤ maxRequest := by
  have hle := H.tiled.used_le H.used
  have hroom := H.room
  have hmax : maxRequest = 0xfffeffd0 := rfl
  omega

/-- Where the request is too large, honest answers are refusals. -/
theorem honest_iff_failed {r : Answer × Heap} (hsize : maxRequest < size)
    (hsame : r.1.Failed → r.2 = h) (hcons : Consistent h) : Honest r size ↔ r.1.Failed := by
  constructor
  · rintro (⟨hf, -⟩ | ⟨p, n, ts, -, hserves⟩)
    · exact hf
    · have hle := hserves.le_maxRequest
      omega
  · intro hf
    refine .inl ⟨hf, ?_⟩
    rw [hsame hf]
    exact hcons

theorem roundedSize_of_lt (hsize : maxRequest < size) (hle : size ≤ 0xfffffff8) :
    maxRequest < roundedSize size := by
  have h16 : heapMinDataSize = 16 := rfl
  have hmax : maxRequest = 0xfffeffd0 := rfl
  have hmod : (size + 7) % sizeLimit = size + 7 :=
    Nat.mod_eq_of_lt (show size + 7 < 0x100000000 by omega)
  rw [roundedSize, roundSize, hmod, h16]
  omega

/-- The rounding wraps for the last seven sizes. -/
theorem roundedSize_of_gt (hsize : 0xfffffff8 < size) (hlt : size < sizeLimit) :
    roundedSize size = 16 := by
  have h16 : heapMinDataSize = 16 := rfl
  have hlimit : sizeLimit = 0x100000000 := rfl
  rw [roundedSize, roundSize, h16, hlimit]
  omega

/-! ### Refusals -/

theorem Tiled.findFreeBlock_eq_none_iff (H : Tiled h ts) (hsize : 16 ≤ size) :
    h.findFreeBlock e size = none ↔ h.Refuses e size := by
  rw [Heap.Refuses]
  cases hsearch : h.searchFreeList size with
  | some p =>
    obtain ⟨ts₁, s, xs, n, ys, ts₂, -, -, -, hsub⟩ := H.split_of_search hsize hsearch
    simp [Heap.findFreeBlock, hsearch, hsub, commit_eq_none_iff]
  | none =>
    cases hgrow : h.flags.growable <;> cases hreserve : e.reserve <;> cases hnew : e.commitNew <;>
      simp [Heap.findFreeBlock, Heap.createSubHeap, hsearch, hgrow, hreserve, hnew]

theorem failed_rtlAllocateHeap_iff : (h.rtlAllocateHeap e flags size).1.Failed ↔
    h.findFreeBlock e (roundedSize size) = none := by
  simp only [Heap.rtlAllocateHeap]
  split
  · next hno => simp only [hno, failed_noMemory]
  · next hfound =>
    rw [hfound]
    simp only [reduceCtorEq, iff_false]
    split <;> rintro (hf | hf) <;> cases hf

theorem failed_moveBlock_iff : (h.moveBlock e flags s p size).1.Failed ↔
    (flags.reallocInPlaceOnly || h.flags.reallocInPlaceOnly) = true ∨
      h.findFreeBlock e (roundedSize size) = none := by
  constructor
  · intro hf
    by_cases hin : (flags.reallocInPlaceOnly || h.flags.reallocInPlaceOnly) = true
    · exact .inl hin
    · right
      cases hfound : h.findFreeBlock e (roundedSize size) with
      | none => rfl
      | some r =>
        simp only [Heap.moveBlock, if_neg hin, hfound] at hf
        split at hf
        · rcases hf with hf | hf <;> cases hf
        · exact absurd hf not_failed_finishReAlloc
  · intro hno
    simp only [Heap.moveBlock]
    split
    · exact failed_noMemory _
    · next hin =>
      rw [hno.resolve_left hin]
      exact failed_noMemory _

theorem rtlAllocateHeap_of_failed (hf : (h.rtlAllocateHeap e flags size).1.Failed) :
    (h.rtlAllocateHeap e flags size).2 = h := by
  rw [failed_rtlAllocateHeap_iff] at hf
  simp only [Heap.rtlAllocateHeap, hf]

theorem Tiled.honest_rtlAllocateHeap_iff (H : Tiled h ts) (hwhole : ∀ t ∈ ts, Whole t.2)
    (hfresh : ∀ a, e.reserve = some a → Fresh h a (newTotalSize (roundedSize size)))
    (flags : CallFlags) :
    Honest (h.rtlAllocateHeap e flags size) size ↔
      size ≤ maxRequest ∨ h.Refuses e (roundedSize size) := by
  by_cases hsize : size ≤ maxRequest
  · simp only [hsize, true_or, iff_true]
    rcases H.rtlAllocateHeap hwhole hsize hfresh flags with ⟨hf, heq⟩ | ⟨p, n, ts', h⟩
    · rw [← heq] at H
      exact .inl ⟨hf, _, H, hwhole⟩
    · exact .inr ⟨p, n, ts', h.1, h.2.1⟩
  · rw [honest_iff_failed (Nat.lt_of_not_le hsize) rtlAllocateHeap_of_failed ⟨ts, H, hwhole⟩,
      failed_rtlAllocateHeap_iff,
      H.findFreeBlock_eq_none_iff (heapMinDataSize_le_roundedSize size)]
    simp only [hsize, false_or]

/-! ### A block that has counted in the next one -/

/-- What is no gap is told by the memory. -/
theorem PieceAt.unique (hc : PieceAt m before a c) (hc' : PieceAt m before a c')
    (hgap : ∀ k, c ≠ .gap k) (hgap' : ∀ k, c' ≠ .gap k) : c = c' := by
  cases c with
  | gap k => exact absurd rfl (hgap k)
  | free n =>
    cases c' with
    | gap k => exact absurd rfl (hgap' k)
    | used k => exact absurd (isFree_of_freeAt hc) hc'.inuse
    | free k =>
      have hsize := sizeOf_of_freeAt hc
      have hsize' := sizeOf_of_freeAt hc'
      have hn := hc.le
      have hk := hc'.le
      rw [show n = k by omega]
  | used n =>
    cases c' with
    | gap k => exact absurd rfl (hgap' k)
    | free k => exact absurd (isFree_of_freeAt hc') hc.inuse
    | used k =>
      have hsize := hc.size
      have hsize' := hc'.size
      have hn := hc.le
      have hk := hc'.le
      rw [show n = k by omega]

/-- Pieces that are no gaps start every layout that is long enough. -/
theorem Layout.prefix_unique (h : Layout m before a xs) (hxs : Whole xs)
    (h' : Layout m before a cs) (hcs : Whole cs) (hle : totalOf xs ≤ totalOf cs) :
    ∃ zs, cs = xs ++ zs := by
  induction xs generalizing before a cs with
  | nil => exact ⟨cs, rfl⟩
  | cons c xs ih =>
    have hc : 24 ≤ c.total := by
      cases c with
      | gap k => exact absurd List.mem_cons_self (hxs k)
      | free k => exact h.1.le
      | used k => exact h.1.le
    cases cs with
    | nil =>
      rw [totalOf_cons, totalOf_nil] at hle
      omega
    | cons c' cs =>
      have heq : c = c' := h.1.unique h'.1 (fun k hk => hxs k (hk ▸ List.mem_cons_self))
        (fun k hk => hcs k (hk ▸ List.mem_cons_self))
      subst heq
      rw [totalOf_cons, totalOf_cons] at hle
      obtain ⟨zs, rfl⟩ := ih h.2 (Whole.tail hxs) h'.2 (Whole.tail hcs) (by omega)
      exact ⟨zs, rfl⟩

namespace Tiled

/-- At the end of a sub-heap the larger block is one of a consistent heap. -/
theorem takeNext_last (H : Tiled h (ts₁ ++ (s, xs ++ .used n :: .free k :: []) :: ts₂))
    (hwhole : ∀ t ∈ ts₁ ++ (s, xs ++ .used n :: .free k :: []) :: ts₂, Whole t.2)
    (hp : p = s.first + totalOf xs) :
    Tiled (h.takeNext p) (ts₁ ++ (s, xs ++ .used (n + k) :: []) :: ts₂) ∧
      ∀ t ∈ ts₁ ++ (s, xs ++ .used (n + k) :: []) :: ts₂, Whole t.2 := by
  obtain ⟨hT, hused, -, -⟩ := H.takeNext hp
  obtain ⟨hmiddle, hrest⟩ := forall_middle.mp hwhole
  exact ⟨hT.putBack hp hused trivial fun i _ => rfl, forall_middle.mpr
    ⟨Whole.replace hmiddle (fun j hj => by cases hj) (fun j hj => by cases hj), hrest⟩⟩

/-- Behind a free block there is one in use, and it says that the one before it is free. -/
theorem behind_next (H : Arranged h (ts₁ ++ (s, xs ++ .used n :: .free k :: c :: zs) :: ts₂))
    (hwhole : ∀ t ∈ ts₁ ++ (s, xs ++ .used n :: .free k :: c :: zs) :: ts₂, Whole t.2)
    (hp : p = s.first + totalOf xs) : 24 ≤ c.total ∧ 24 ≤ n ∧
      IsPrevFree (word h.mem (p + n + k)) ∧ ¬ IsFree (word h.mem (p + n + k)) := by
  obtain ⟨-, -, -, -, hused, -, hc, -⟩ := H.used_middle hp
  cases c with
  | gap j =>
    have hmem : Piece.gap j ∈ Piece.used n :: .free k :: .gap j :: zs :=
      List.mem_cons_of_mem _ (List.mem_cons_of_mem _ List.mem_cons_self)
    exact absurd (List.mem_append_right xs hmem) ((forall_middle.mp hwhole).1 j)
  | free j => exact absurd rfl (hc.merged (p + n))
  | used j => exact ⟨hc.le, hused.le, hc.flagged.1, hc.inuse⟩

/-- Elsewhere the block behind still says that the one before it is free. -/
theorem not_consistent_takeNext (H : Tiled h (ts₁ ++ (s, xs ++ .used n :: .free k :: c :: zs) :: ts₂))
    (hwhole : ∀ t ∈ ts₁ ++ (s, xs ++ .used n :: .free k :: c :: zs) :: ts₂, Whole t.2)
    (hp : p = s.first + totalOf xs) : ¬ Consistent (h.takeNext p) := by
  rintro ⟨ts', H', hwhole'⟩
  obtain ⟨hT, hused, -, hout⟩ := H.takeNext hp
  obtain ⟨hc, hn, hflag, hinuse⟩ := behind_next H.toArranged hwhole hp
  have hmiddle := (forall_middle.mp hwhole).1
  have hs : s ∈ (h.takeNext p).subheaps := hT.subheap_mem Arranged.tile_mem
  rw [H'.subheaps] at hs
  obtain ⟨⟨s', cs⟩, ht, hs'⟩ := List.mem_map.mp hs
  simp only at hs'
  subst hs'
  have htile := H'.tile _ ht
  have hfilled : p + n + (k + (c.total + totalOf zs)) = s'.limit := (H.used_middle hp).1
  have hfilled' : s'.first + totalOf cs = s'.limit := htile.filled
  have hlayout : Layout (h.takeNext p).mem .used s'.first (xs ++ [.used (n + k)]) := by
    refine Layout.append_iff.mpr ⟨(Layout.append_iff.mp hT.middle.layout).1, ?_, trivial⟩
    rw [← hp]
    exact hused
  have hwholes : Whole (xs ++ [.used (n + k)]) := by
    refine Whole.replace hmiddle (fun i hi => ?_) (fun i hi => ?_)
    · cases hi
    · cases hi
  obtain ⟨ys, rfl⟩ := hlayout.prefix_unique hwholes htile.layout (hwhole' _ ht) (by
    simp only [totalOf_append, totalOf_cons, totalOf_nil, Piece.total]
    omega)
  have hrest := (Layout.append_iff.mp htile.layout).2
  rw [lastBefore_append, totalOf_append, totalOf_cons, totalOf_nil, Nat.add_zero, ← Nat.add_assoc,
    ← hp] at hrest
  have hword : word (h.takeNext p).mem (p + (n + k)) = word h.mem (p + n + k) := by
    rw [← Nat.add_assoc]
    exact word_congr fun i hi _ => hout i (by omega)
  cases ys with
  | nil =>
    simp only [totalOf_append, totalOf_cons, totalOf_nil, Piece.total] at hfilled'
    omega
  | cons c' ys =>
    cases c' with
    | gap i =>
      exact absurd (List.mem_append_right _ List.mem_cons_self) (hwhole' _ ht i)
    | free i =>
      have hfree := isFree_of_freeAt hrest.1
      rw [Piece.total, hword] at hfree
      exact hinuse hfree
    | used i =>
      have hflag' := hrest.1.flagged
      change ¬ IsPrevFree (word (h.takeNext p).mem (p + (n + k))) at hflag'
      rw [hword] at hflag'
      exact hflag' hflag

end Tiled

/-! ### Reallocations -/

theorem honest_noMemory_iff {b : Bool} : Honest (noMemory b, h) size ↔ Consistent h := by
  constructor
  · rintro (⟨-, hcons⟩ | ⟨p, n, ts, heq, -⟩)
    · exact hcons
    · have hfailed := failed_noMemory b
      simp only at heq
      rw [heq] at hfailed
      rcases hfailed with hf | hf <;> cases hf
  · exact fun hcons => .inl ⟨failed_noMemory b, hcons⟩

namespace Tiled

theorem goesOn_iff (H : Arranged h (ts₁ ++ (s, xs ++ .used n :: .free k :: zs) :: ts₂))
    (hp : p = s.first + totalOf xs) : h.GoesOn p ↔ 0 < totalOf zs := by
  obtain ⟨hfilled, -, -, -, hused, hfree, -⟩ := H.used_middle hp
  have hn := hused.le
  have hk := hfree.le
  have hdata := hused.size
  have hnext := sizeOf_of_freeAt hfree
  rw [totalOf_cons] at hfilled
  simp only [Piece.total] at hfilled
  have heq : p + 8 + (n - 8) = p + n := by omega
  simp only [Heap.GoesOn, (H.findSubHeap_used hp).1, Option.mem_def, Option.some.injEq,
    exists_eq_left', hdata, heq]
  rw [arenaFreeSize] at hnext
  omega

/-- A growth in place that fails is honest at the end of a sub-heap. -/
theorem honest_growthFails_iff (H : Tiled h ts) (hwhole : ∀ t ∈ ts, Whole t.2)
    (hused : UsedIn ts p n) (hfails : h.GrowthFails e p (roundedSize size)) (flags : CallFlags) :
    Honest (h.rtlReAllocateHeap e flags (p + 8) size) size ↔ ¬ h.GoesOn p := by
  obtain ⟨ts₁, s, xs, k, zs, ts₂, rfl, hp, hcall⟩ :=
    H.rtlReAllocateHeap_of_growthFails flags hwhole hused hfails
  rw [hcall, honest_noMemory_iff, goesOn_iff H.toArranged hp]
  cases zs with
  | nil =>
    have hcons : Consistent (h.takeNext p) := ⟨_, H.takeNext_last hwhole hp⟩
    rw [totalOf_nil]
    simp only [hcons, Nat.lt_irrefl, not_false_eq_true]
  | cons c zs =>
    have hno := H.not_consistent_takeNext hwhole hp
    have hc := (behind_next H.toArranged hwhole hp).1
    rw [totalOf_cons]
    simp only [hno, false_iff, not_not]
    omega

/-- A size beyond every block asks for the block to move. -/
theorem rtlReAllocateHeap_eq_moveBlock (H : Tiled h ts) (hwhole : ∀ t ∈ ts, Whole t.2)
    (hused : UsedIn ts p n) (hsize : maxRequest < size) (hle : size ≤ 0xfffffff8) (e : Outcomes)
    (flags : CallFlags) :
    ∃ s, h.rtlReAllocateHeap e flags (p + 8) size = h.moveBlock e flags s p size := by
  have hround := roundedSize_of_lt hsize hle
  have hmax : maxRequest = 0xfffeffd0 := rfl
  have hn := H.used_le hused
  obtain ⟨ts₁, s, xs, ys, ts₂, rfl, hp⟩ := hused.split
  have hwhole' := hwhole _ Arranged.tile_mem
  have hs := H.blockSubHeap hp hwhole'
  have hdata := (H.used_middle hp).2.2.2.2.1.size
  have hgrown : sizeOf (word h.mem p) < roundedSize size := by omega
  have hnot : ¬ h.GrowsInPlace s p (roundedSize size) := by
    rw [H.growsInPlace_iff hp (Whole.tail hwhole'.right)]
    rintro ⟨k, zs, rfl, hfits⟩
    have htotal := H.middle.totalOf_le
    simp only [totalOf_append, totalOf_cons, Piece.total] at htotal
    omega
  have hzero : p + 8 ≠ 0 := Nat.succ_ne_zero _
  refine ⟨s, ?_⟩
  simp only [Heap.rtlReAllocateHeap, arenaInuseSize, Nat.add_sub_cancel, if_neg hzero, hs,
    if_pos hgrown, if_neg hnot]

/-- Such a request is honest when the block may not move or there is no room. -/
theorem honest_moveBlock_iff (H : Tiled h ts) (hwhole : ∀ t ∈ ts, Whole t.2) (hused : UsedIn ts p n)
    (hsize : maxRequest < size) (hle : size ≤ 0xfffffff8) (flags : CallFlags) :
    Honest (h.rtlReAllocateHeap e flags (p + 8) size) size ↔
      flags.reallocInPlaceOnly = true ∨ h.flags.reallocInPlaceOnly = true ∨
        h.Refuses e (roundedSize size) := by
  rw [← H.findFreeBlock_eq_none_iff (heapMinDataSize_le_roundedSize size)]
  obtain ⟨s, hcall⟩ := H.rtlReAllocateHeap_eq_moveBlock hwhole hused hsize hle e flags
  rw [hcall, honest_iff_failed hsize failed_moveBlock ⟨ts, H, hwhole⟩, failed_moveBlock_iff,
    Bool.or_eq_true, or_assoc]

/-- A block that is large enough is shrunk in place. -/
theorem not_failed_of_le (H : Tiled h ts) (hwhole : ∀ t ∈ ts, Whole t.2) (hused : UsedIn ts p n)
    (hle : roundedSize size + 8 ≤ n) (e : Outcomes) (flags : CallFlags) :
    ¬ (h.rtlReAllocateHeap e flags (p + 8) size).1.Failed := by
  obtain ⟨hdata, hn⟩ := H.sizeOf_used hused
  obtain ⟨ts₁, s, xs, ys, ts₂, rfl, hp⟩ := hused.split
  have hs := H.blockSubHeap hp (hwhole _ Arranged.tile_mem)
  have hnot : ¬ sizeOf (word h.mem p) < roundedSize size := by omega
  have hzero : p + 8 ≠ 0 := Nat.succ_ne_zero _
  simp only [Heap.rtlReAllocateHeap, arenaInuseSize, Nat.add_sub_cancel, if_neg hzero, hs,
    if_neg hnot]
  split
  · rintro (hf | hf) <;> cases hf
  · exact not_failed_finishReAlloc

/-- A size that rounds to zero shrinks the block. -/
theorem not_honest_shrink (H : Tiled h ts) (hwhole : ∀ t ∈ ts, Whole t.2) (hused : UsedIn ts p n)
    (hsize : 0xfffffff8 < size) (hlt : size < sizeLimit) (e : Outcomes) (flags : CallFlags) :
    ¬ Honest (h.rtlReAllocateHeap e flags (p + 8) size) size := by
  have hmax : maxRequest = 0xfffeffd0 := rfl
  have hn := (H.sizeOf_used hused).2
  have hround := roundedSize_of_gt hsize hlt
  rintro (⟨hf, -⟩ | ⟨q, k, ts', -, hserves⟩)
  · exact H.not_failed_of_le hwhole hused (by omega) e flags hf
  · have hle := hserves.le_maxRequest
    omega

theorem honest_rtlReAllocateHeap_iff (H : Tiled h ts) (hwhole : ∀ t ∈ ts, Whole t.2)
    (hlt : size < sizeLimit)
    (hfresh : ∀ a, e.reserve = some a → Fresh h a (newTotalSize (roundedSize size)))
    (hused : UsedIn ts p n) (flags : CallFlags) :
    Honest (h.rtlReAllocateHeap e flags (p + 8) size) size ↔
      size ≤ maxRequest ∧ ¬ (h.GrowthFails e p (roundedSize size) ∧ h.GoesOn p) ∨
        maxRequest < size ∧ size ≤ 0xfffffff8 ∧ (flags.reallocInPlaceOnly = true ∨
          h.flags.reallocInPlaceOnly = true ∨ h.Refuses e (roundedSize size)) := by
  by_cases hsize : size ≤ maxRequest
  · simp only [hsize, true_and, Nat.not_lt_of_le hsize, false_and, or_false]
    by_cases hfails : h.GrowthFails e p (roundedSize size)
    · rw [H.honest_growthFails_iff hwhole hused hfails flags]
      simp only [hfails, true_and]
    · simp only [hfails, false_and, not_false_eq_true, iff_true]
      rcases H.rtlReAllocateHeap hwhole hused hsize hfresh flags with
        ⟨hf, hsame | hfails'⟩ | ⟨q, k, h', ts', heq, hR⟩
      · refine .inl ⟨hf, ?_⟩
        rw [hsame]
        exact ⟨ts, H, hwhole⟩
      · exact absurd hfails' hfails
      · rw [heq]
        exact .inr ⟨q, k, ts', rfl, hR.toServes⟩
  · have hlarge := Nat.lt_of_not_le hsize
    simp only [hsize, false_and, false_or, hlarge, true_and]
    by_cases hle : size ≤ 0xfffffff8
    · simp only [hle, true_and]
      exact H.honest_moveBlock_iff hwhole hused hlarge hle flags
    · have hno := H.not_honest_shrink hwhole hused (Nat.lt_of_not_le hle) hlt e flags
      simp only [hno, hle, false_and]

end Tiled

/-- A pointer that is not accepted. -/
theorem honest_refusedPtr {ptr : ℕ} (hcons : Consistent h)
    (hptr : ptr = 0 ∨ h.blockSubHeap (ptr - arenaInuseSize) = none) (e : Outcomes)
    (flags : CallFlags) (size : ℕ) : Honest (h.rtlReAllocateHeap e flags ptr size) size := by
  have hcall : h.rtlReAllocateHeap e flags ptr size = (.null, h) := by
    simp only [Heap.rtlReAllocateHeap]
    split
    · rfl
    · next hne => rw [hptr.resolve_left hne]
  rw [hcall]
  exact .inl ⟨.inl rfl, hcons⟩

/-- For every 32-bit size and every consistent heap: an allocation is honest exactly when the size can
be rounded up for a new sub-heap or the search gives up, and a reallocation of a live block exactly
when the size can be rounded up and no growth in place fails before a further block, or when the block
would have to move and cannot. Other pointers are refused. -/
theorem honest_iff (flags : CallFlags) (H : Tiled h ts) (hwhole : ∀ t ∈ ts, Whole t.2)
    (hlt : size < sizeLimit)
    (hfresh : ∀ a, e.reserve = some a → Fresh h a (newTotalSize (roundedSize size))) :
    (Honest (h.rtlAllocateHeap e flags size) size ↔
        size ≤ maxRequest ∨ h.Refuses e (roundedSize size)) ∧
      (∀ p n, UsedIn ts p n → (Honest (h.rtlReAllocateHeap e flags (p + 8) size) size ↔
        size ≤ maxRequest ∧ ¬ (h.GrowthFails e p (roundedSize size) ∧ h.GoesOn p) ∨
          maxRequest < size ∧ size ≤ 0xfffffff8 ∧ (flags.reallocInPlaceOnly = true ∨
            h.flags.reallocInPlaceOnly = true ∨ h.Refuses e (roundedSize size)))) ∧
      ∀ ptr, (ptr = 0 ∨ h.blockSubHeap (ptr - arenaInuseSize) = none) →
        Honest (h.rtlReAllocateHeap e flags ptr size) size :=
  ⟨H.honest_rtlAllocateHeap_iff hwhole hfresh flags,
    fun _ _ hused => H.honest_rtlReAllocateHeap_iff hwhole hlt hfresh hused flags,
    fun _ hptr => honest_refusedPtr ⟨ts, H, hwhole⟩ hptr e flags size⟩

theorem whole_sampleHeap :
    ∀ t ∈ [(sampleSubHeap, [Piece.free (sampleSubHeap.size - heapSize)])], Whole t.2 := by
  intro t ht j hj
  rw [List.mem_singleton.mp ht] at hj
  simp at hj

theorem honest_sample :
    Honest (sampleHeap.rtlAllocateHeap ⟨true, none, false, false⟩ ⟨false, false, false⟩ 0x20000)
      0x20000 :=
  ((honest_iff (e := ⟨true, none, false, false⟩) ⟨false, false, false⟩ tiled_sampleHeap
    whole_sampleHeap (by decide) (fun _ ha => by cases ha)).1).mpr (.inl (by decide))

/-- The least blocks can be had from the sample heap. -/
theorem not_failed_sampleHeap (hround : roundedSize size = 16) (flags : CallFlags) :
    ¬ (sampleHeap.rtlAllocateHeap ⟨true, none, false, false⟩ flags size).1.Failed := by
  rw [failed_rtlAllocateHeap_iff, hround, tiled_sampleHeap.findFreeBlock_eq_none_iff (by decide)]
  rintro (⟨p, -, s, -, -, hcommit⟩ | ⟨hnone, -⟩)
  · cases hcommit
  · have hfound : (sampleHeap.searchFreeList 16).isSome :=
      tiled_sampleHeap.searchFreeList_isSome ⟨_, List.mem_cons_self, List.mem_cons_self⟩
        (by decide) (by decide)
    rw [hnone] at hfound
    cases hfound

/-- The greatest size, for which the rounding wraps to nothing. -/
theorem not_honest : ¬ ∀ (h : Heap) (ts : List Tile) (e : Outcomes) (flags : CallFlags) (size : ℕ),
    Tiled h ts → (∀ t ∈ ts, Whole t.2) → size < sizeLimit →
    (∀ a, e.reserve = some a → Fresh h a (newTotalSize (roundedSize size))) →
    Honest (h.rtlAllocateHeap e flags size) size := by
  intro hall
  have hhonest := hall sampleHeap _ ⟨true, none, false, false⟩ ⟨false, false, false⟩ 0xffffffff
    tiled_sampleHeap whole_sampleHeap (by decide) (fun _ ha => by cases ha)
  rcases hhonest with ⟨hf, -⟩ | ⟨p, n, ts, -, hserves⟩
  · exact not_failed_sampleHeap (by decide) _ hf
  · have hle := hserves.le_maxRequest
    revert hle
    decide

end Wine.Heaps
