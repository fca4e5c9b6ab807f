import Wine.Heaps.Calls

/-!
# Reallocations that fail

A reallocation that fails before it has touched an arena leaves everything as it was. The growth in
place takes the next block and counts it into the block before it asks for memory; when it does not
get this memory, the block stays larger than it was.
-/

namespace Wine.Heaps
open Wine.Lib Reading

variable {h h' : Heap} {ts ts₁ ts₂ : List Tile} {s : SubHeap} {xs ys : List Piece}
  {e : Outcomes} {flags : CallFlags} {p n size : ℕ} {zero : Bool} {oldSize : ℕ}

/-- No block is returned. -/
def Answer.Failed (a : Answer) : Prop := a = .null ∨ a = .raised

/-- The block whose arena is at `p` has the size and the contents that it had. -/
structure Heap.SameBlock (h h' : Heap) (p : ℕ) : Prop where
  size : sizeOf (word h'.mem p) = sizeOf (word h.mem p)
  data : ∀ i, p + 8 ≤ i → i < p + 8 + sizeOf (word h.mem p) → h'.mem i = h.mem i

/-- The block could grow in place, but needs memory that cannot be committed. -/
def Heap.GrowthFails (h : Heap) (e : Outcomes) (p size : ℕ) : Prop :=
  sizeOf (word h.mem p) < size ∧ ∃ s ∈ h.findSubHeap p,
    h.GrowsInPlace s p size ∧ s.commitSize < s.commitEnd p size ∧ e.commit = false

theorem failed_noMemory (b : Bool) : (noMemory b).Failed := by
  rw [noMemory]
  split
  · exact Or.inr rfl
  · exact Or.inl rfl

theorem not_failed_finishReAlloc : ¬ (h.finishReAlloc zero oldSize size p).1.Failed := by
  rintro (h | h) <;> cases h

theorem failed_moveBlock (hf : (h.moveBlock e flags s p size).1.Failed) :
    (h.moveBlock e flags s p size).2 = h := by
  simp only [Heap.moveBlock] at hf ⊢
  split
  · rfl
  · next hmove =>
    rw [if_neg hmove] at hf
    split
    · rfl
    · next hfound =>
      rw [hfound] at hf
      split
      · rcases hf with hf | hf <;> simp_all
      · next hshrunk =>
        simp only [hshrunk] at hf
        exact absurd hf not_failed_finishReAlloc

theorem commit_eq_none_iff : h.commit e s p n = none ↔
    s.commitSize < s.commitEnd p n ∧ e.commit = false := by
  simp only [Heap.commit]
  split
  · next hle => simp; omega
  · next hlt =>
    cases e.commit <;> simp
    omega

/-- Where growing in place cannot fail, a reallocation that fails has changed nothing. -/
theorem failed_reAlloc (hs : h.blockSubHeap p = some s) (hfind : h.findSubHeap p = some s)
    (hgrow : ¬ h.GrowthFails e p (roundedSize size))
    (hf : (h.rtlReAllocateHeap e flags (p + 8) size).1.Failed) :
    (h.rtlReAllocateHeap e flags (p + 8) size).2 = h := by
  have hp : p + 8 - arenaInuseSize = p := Nat.add_sub_cancel p 8
  simp only [Heap.rtlReAllocateHeap, hp, hs] at hf ⊢
  split
  · rfl
  · split
    · next hlt =>
      rw [if_neg (by omega), if_pos hlt] at hf
      split
      · next hin =>
        rw [if_pos hin] at hf
        split
        · next hcommit =>
          rw [commit_eq_none_iff] at hcommit
          exact absurd ⟨hlt, s, hfind, hin, hcommit.1, hcommit.2⟩ hgrow
        · next hcommit =>
          rw [hcommit] at hf
          split
          · next hshrunk =>
            simp only [hshrunk] at hf
            rcases hf with hf | hf <;> cases hf
          · next hshrunk =>
            simp only [hshrunk] at hf
            exact absurd hf not_failed_finishReAlloc
      · next hin =>
        rw [if_neg hin] at hf
        exact failed_moveBlock hf
    · next hge =>
      rw [if_neg (by omega), if_neg hge] at hf
      split
      · rfl
      · next hshrunk =>
        rw [hshrunk] at hf
        exact absurd hf not_failed_finishReAlloc

/-- A block grows in place when a free one is next and the two are large enough. -/
theorem Arranged.growsInPlace_iff (H : Arranged h (ts₁ ++ (s, xs ++ .used n :: ys) :: ts₂))
    (hp : p = s.first + totalOf xs) (hwhole : Whole ys) :
    h.GrowsInPlace s p size ↔ ∃ k zs, ys = .free k :: zs ∧ size + 8 ≤ n + k := by
  obtain ⟨hfilled, hlimit, hbase, -, hused, hys⟩ := H.used_middle hp
  have hn := hused.le
  have hb : s.base ≤ s.first := Nat.le_add_right _ _
  have hnext : p + 8 + (n - 8) = p + n := by omega
  simp only [Heap.GrowsInPlace, hused.size, arenaInuseSize, hnext]
  cases ys with
  | nil =>
    rw [totalOf_nil] at hfilled
    simp only [reduceCtorEq, false_and, exists_false, iff_false]
    omega
  | cons c ys =>
    cases c with
    | gap k => exact absurd List.mem_cons_self (hwhole k)
    | used k =>
      have hinuse := hys.1.inuse
      simp [hinuse]
    | free k =>
      have hfree := isFree_of_freeAt hys.1
      have hdata := sizeOf_of_freeAt hys.1
      have hk := hys.1.le
      rw [totalOf_cons] at hfilled
      simp only [Piece.total] at hfilled
      have hsum : n - 8 + sizeOf (word h.mem (p + n)) + arenaFreeSize = n - 8 + k := by omega
      have hmod : (n - 8 + k) % sizeLimit = n - 8 + k := Nat.mod_eq_of_lt (by omega)
      simp only [hfree, hsum, hmod, true_and, List.cons.injEq, Piece.free.injEq]
      constructor
      · rintro ⟨-, hle⟩
        exact ⟨k, ys, ⟨rfl, rfl⟩, by omega⟩
      · rintro ⟨k', zs, ⟨rfl, rfl⟩, hle⟩
        exact ⟨by omega, by omega⟩

/-- A block that has counted in the next one is larger by it. -/
theorem Arranged.word_takeNext {k : ℕ}
    (H : Arranged h (ts₁ ++ (s, xs ++ .used n :: .free k :: ys) :: ts₂))
    (hp : p = s.first + totalOf xs) :
    word (h.takeNext p).mem p = word h.mem p + k ∧ k % 8 = 0 ∧ 24 ≤ k := by
  obtain ⟨hfilled, hlimit, hbase, -, hused, hys⟩ := H.used_middle hp
  have hn := hused.le
  have hb : s.base ≤ s.first := Nat.le_add_right _ _
  have hnext : p + arenaInuseSize + sizeOf (word h.mem p) = p + n := by
    rw [hused.size, arenaInuseSize]
    omega
  have hdata := sizeOf_of_freeAt hys.1
  have hsize := hused.size
  rw [sizeOf] at hsize
  rw [totalOf_cons] at hfilled
  simp only [Piece.total] at hfilled
  refine ⟨?_, hys.1.aligned, hys.1.le⟩
  simp only [Heap.takeNext, hnext, hdata]
  exact word_setWord (by omega)

/-- A growth in place that fails leaves the next block counted in. -/
theorem Tiled.rtlReAllocateHeap_of_growthFails (flags : CallFlags) (H : Tiled h ts)
    (hwhole : ∀ t ∈ ts, Whole t.2) (hused : UsedIn ts p n)
    (hfails : h.GrowthFails e p (roundedSize size)) :
    ∃ ts₁ s xs k zs ts₂, ts = ts₁ ++ (s, xs ++ .used n :: .free k :: zs) :: ts₂ ∧
      p = s.first + totalOf xs ∧ h.rtlReAllocateHeap e flags (p + 8) size =
        (noMemory (flags.generateExceptions || h.flags.generateExceptions), h.takeNext p) := by
  obtain ⟨ts₁, s, xs, ys, ts₂, rfl, hp⟩ := hused.split
  have hwhole' := hwhole _ Arranged.tile_mem
  have hs := H.blockSubHeap hp hwhole'
  obtain ⟨hlt, s', hs', hin, hcommit⟩ := hfails
  rw [(H.findSubHeap_used hp).1, Option.mem_def, Option.some.injEq] at hs'
  subst hs'
  obtain ⟨k, zs, rfl, -⟩ := (H.growsInPlace_iff hp (Whole.tail hwhole'.right)).mp hin
  have hnone : (h.takeNext p).commit e s p (roundedSize size) = none :=
    commit_eq_none_iff.mpr hcommit
  have hzero : p + 8 ≠ 0 := Nat.succ_ne_zero _
  refine ⟨ts₁, s, xs, k, zs, ts₂, rfl, hp, ?_⟩
  simp only [Heap.rtlReAllocateHeap, arenaInuseSize, Nat.add_sub_cancel, if_neg hzero, hs,
    if_pos hlt, if_pos hin, hnone]
  rfl

/-- A growth in place that fails has changed the size of the block. -/
theorem Tiled.not_sameBlock_of_growthFails (flags : CallFlags) (H : Tiled h ts)
    (hwhole : ∀ t ∈ ts, Whole t.2) (hused : UsedIn ts p n)
    (hfails : h.GrowthFails e p (roundedSize size)) :
    (h.rtlReAllocateHeap e flags (p + 8) size).1.Failed ∧
      ¬ h.SameBlock (h.rtlReAllocateHeap e flags (p + 8) size).2 p := by
  obtain ⟨ts₁, s, xs, k, zs, ts₂, rfl, hp, hcall⟩ :=
    H.rtlReAllocateHeap_of_growthFails flags hwhole hused hfails
  rw [hcall]
  refine ⟨failed_noMemory _, fun hsame => ?_⟩
  have hsize := hsame.size
  obtain ⟨hw, hk8, hk⟩ := H.toArranged.word_takeNext hp
  rw [hw, sizeOf, sizeOf] at hsize
  omega

/-- For every consistent heap, live block, flags and size: a reallocation that fails leaves the heap
consistent and the block as it was exactly when it is not a growth in place whose memory cannot be
committed. -/
theorem failed_reAlloc_iff (e : Outcomes) (flags : CallFlags) (size : ℕ) (H : Tiled h ts)
    (hwhole : ∀ t ∈ ts, Whole t.2) (hused : UsedIn ts p n) :
    ((h.rtlReAllocateHeap e flags (p + 8) size).1.Failed →
        Consistent (h.rtlReAllocateHeap e flags (p + 8) size).2 ∧
          h.SameBlock (h.rtlReAllocateHeap e flags (p + 8) size).2 p) ↔
      ¬ h.GrowthFails e p (roundedSize size) := by
  constructor
  · intro hprop hfails
    obtain ⟨hfailed, hnot⟩ := H.not_sameBlock_of_growthFails flags hwhole hused hfails
    exact hnot (hprop hfailed).2
  · intro hgrow hf
    obtain ⟨ts₁, s, xs, ys, ts₂, rfl, hp⟩ := hused.split
    have hs := H.blockSubHeap hp (hwhole _ Arranged.tile_mem)
    rw [failed_reAlloc hs (H.findSubHeap_used hp).1 hgrow hf]
    exact ⟨⟨_, H, hwhole⟩, rfl, fun _ _ _ => rfl⟩

theorem whole_sampleUsed (n k : ℕ) :
    ∀ t ∈ [(sampleSubHeap, [Piece.used n, .free k])], Whole t.2 := by
  intro t ht j hj
  rw [List.mem_singleton.mp ht] at hj
  simp at hj

theorem failed_reAlloc_sample : ∃ (h : Heap) (n k : ℕ),
    Tiled h [(sampleSubHeap, [.used n, .free k])] ∧
    ((h.rtlReAllocateHeap ⟨true, none, false, false⟩ ⟨false, false, true⟩
        (sampleSubHeap.first + 8) 0x200000).1.Failed →
      Consistent (h.rtlReAllocateHeap ⟨true, none, false, false⟩ ⟨false, false, true⟩
          (sampleSubHeap.first + 8) 0x200000).2 ∧
        h.SameBlock (h.rtlReAllocateHeap ⟨true, none, false, false⟩ ⟨false, false, true⟩
          (sampleSubHeap.first + 8) 0x200000).2 sampleSubHeap.first) := by
  obtain ⟨h, n, k, H, -⟩ := exists_sampleUsed
  refine ⟨h, n, k, H, ?_⟩
  apply (failed_reAlloc_iff _ _ _ H (whole_sampleUsed n k)
    ⟨_, List.mem_cons_self, List.mem_cons_self⟩).mpr
  rintro ⟨-, s, -, -, -, hcommit⟩
  cases hcommit

/-- The growth of a small block past the committed memory, which cannot be committed. -/
theorem not_failed_reAlloc : ¬ ∀ (h : Heap) (ts : List Tile) (p n : ℕ) (e : Outcomes)
    (flags : CallFlags) (size : ℕ), Tiled h ts → (∀ t ∈ ts, Whole t.2) → UsedIn ts p n →
    (h.rtlReAllocateHeap e flags (p + 8) size).1.Failed →
      Consistent (h.rtlReAllocateHeap e flags (p + 8) size).2 ∧
        h.SameBlock (h.rtlReAllocateHeap e flags (p + 8) size).2 p := by
  intro hall
  obtain ⟨h, n, k, H, hn, hsum⟩ := exists_sampleUsed
  have hsize : sampleSubHeap.size - heapSize = 0x10ff10 := rfl
  have hround : roundedSize 0x20000 = 0x20000 := by decide
  have hwhole := whole_sampleUsed n k
  have hused : UsedIn [(sampleSubHeap, [Piece.used n, .free k])] sampleSubHeap.first n :=
    ⟨_, List.mem_cons_self, List.mem_cons_self⟩
  have H' : Arranged h ([] ++ (sampleSubHeap, [] ++ .used n :: [.free k]) :: []) := H.toArranged
  have hgrow : h.GrowsInPlace sampleSubHeap sampleSubHeap.first 0x20000 := by
    apply (H'.growsInPlace_iff rfl ?_).mpr
    · exact ⟨k, [], rfl, by omega⟩
    · intro j hj
      simp at hj
  have hfails : h.GrowthFails ⟨false, none, false, false⟩ sampleSubHeap.first
      (roundedSize 0x20000) := by
    rw [hround]
    have hdata : sizeOf (word h.mem sampleSubHeap.first) = n - 8 :=
      (H'.used_middle rfl).2.2.2.2.1.size
    refine ⟨by omega, sampleSubHeap, (H'.findSubHeap_used rfl).1, hgrow, by decide, rfl⟩
  obtain ⟨hfailed, hnot⟩ :=
    H.not_sameBlock_of_growthFails ⟨false, false, false⟩ hwhole hused hfails
  exact hnot (hall h _ _ _ _ _ _ H hwhole hused hfailed).2

end Wine.Heaps
