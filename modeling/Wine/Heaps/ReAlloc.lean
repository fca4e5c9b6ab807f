import Wine.Heaps.Failure
import Wine.Heaps.Freeing

/-!
# What the calls return

For sizes that can be rounded without wrapping, an allocation and a reallocation fail, or return an
in-use block that is large enough in a consistent heap. All other blocks keep their contents, and a
reallocated block keeps what the old one and the new one both have room for.
-/

namespace Wine.Heaps
open Wine.Lib Reading

variable {h h' h'' : Heap} {ts ts' ts'' ts₁ ts₂ : List Tile} {s : SubHeap}
  {cs cs' xs ys zs : List Piece} {c : Piece} {m : Memory} {e : Outcomes} {flags : CallFlags}
  {a p q n k n' size : ℕ}

/-- The greatest size for which a new sub-heap can be rounded up to 64 KB. -/
def maxRequest : ℕ := 0xfffeffd0

theorem roundedSize_spec (hsize : size ≤ maxRequest) :
    size ≤ roundedSize size ∧ roundedSize size % 8 = 0 ∧ 16 ≤ roundedSize size ∧
      roundedSize size ≤ maxRequest := by
  have h16 : heapMinDataSize = 16 := rfl
  have hmax : maxRequest = 0xfffeffd0 := rfl
  have hmod : (size + 7) % sizeLimit = size + 7 :=
    Nat.mod_eq_of_lt (show size + 7 < 0x100000000 by omega)
  rw [roundedSize, roundSize, hmod, h16]
  omega

theorem le_newTotalSize_of_le (hsize : size ≤ maxRequest) : size + 48 ≤ newTotalSize size := by
  have hmax : maxRequest = 0xfffeffd0 := rfl
  have hlimit : sizeLimit = 0x100000000 := rfl
  have hmask : commitMask = 0xffff := rfl
  have hdef : heapDefSize = 0x110000 := rfl
  have hmod : (size + subheapSize + arenaInuseSize + arenaFreeSize) % sizeLimit = size + 48 :=
    Nat.mod_eq_of_lt (show size + 24 + 8 + 16 < sizeLimit by omega)
  rw [newTotalSize, hmod]
  apply Nat.le_trans ?_ (Nat.le_max_left _ _)
  have hround := le_roundCommit (x := max heapDefSize (size + 48)) (by omega)
  omega

theorem Found.room_of_le (F : Found h ts e size h' ts₁ s xs n ys ts₂ p) (hsize : size ≤ maxRequest) :
    size + 8 ≤ n := by
  have h24 : subheapSize = 24 := rfl
  have hnew := le_newTotalSize_of_le hsize
  rcases F.room with hroom | ⟨-, hroom⟩
  · exact hroom
  · omega

theorem roundedSize_lt (hsize : size ≤ maxRequest) : roundedSize size < size + 17 := by
  have h16 : heapMinDataSize = 16 := rfl
  have hmax : maxRequest = 0xfffeffd0 := rfl
  have hmod : (size + 7) % sizeLimit = size + 7 :=
    Nat.mod_eq_of_lt (show size + 7 < 0x100000000 by omega)
  rw [roundedSize, roundSize, hmod, h16]
  omega

/-- The unused bytes of a block that is not much larger than what is asked for fit into their byte. -/
theorem unusedBytes_eq (hround : roundedSize size < size + 17) (hn : n < roundedSize size + 40)
    (hroom : size + 8 ≤ n) :
    load (setUnusedBytes m p (n - 8 + sizeLimit - size)) (p + 7) 1 = n - 8 - size := by
  have hlimit : sizeLimit = 0x100000000 := rfl
  rw [setUnusedBytes, load_store]
  omega

/-- A block in use at `p`, in a consistent heap, with room for `size` bytes. -/
structure Serves (h : Heap) (ts : List Tile) (p n size : ℕ) : Prop where
  tiled : Tiled h ts
  whole : ∀ t ∈ ts, Whole t.2
  used : UsedIn ts p n
  room : size + 8 ≤ n

theorem setUnusedBytes_of_ne {i v : ℕ} (hi : i ≠ p + 7) : setUnusedBytes m p v i = m i := by
  apply store_of_not_mem
  rw [length_littleEndian]
  omega

/-- What is written to the data of a block, or to the byte of its unused bytes, preserves the others.
-/
theorem Tiled.write_used_spec (H : Tiled h ts) (hused : UsedIn ts p n)
    (hm : ∀ i, i < p + 7 ∨ p + n ≤ i → m i = h.mem i) :
    Tiled { h with mem := m } ts ∧ PreservesBut p h ts { h with mem := m } ts := by
  obtain ⟨ts₁, s, xs, ys, ts₂, rfl, hp⟩ := hused.split
  have hn := (H.used_middle hp).2.2.2.2.1.le
  refine ⟨H.write_used hp hm, rfl, rfl, fun _ _ _ hq => hq, ?_⟩
  intro q k hne hq i hi hi'
  rcases H.used_apart hp hq with hlow | hhigh | ⟨heq, -⟩
  · exact hm i (by omega)
  · simp only [Piece.total] at hhigh
    exact hm i (by omega)
  · exact absurd heq hne

theorem Arranged.sizeOf_used (H : Arranged h ts) (hused : UsedIn ts p n) :
    sizeOf (word h.mem p) = n - 8 ∧ 24 ≤ n := by
  obtain ⟨ts₁, s, xs, ys, ts₂, rfl, hp⟩ := hused.split
  have hat := (H.used_middle hp).2.2.2.2.1
  exact ⟨hat.size, hat.le⟩

namespace Taken

theorem used (T : Taken h ts h' ts₁ s xs n ys ts₂ p) :
    UsedIn (ts₁ ++ (s, xs ++ .used n :: ys) :: ts₂) p n := usedIn_place T.place

theorem ne (T : Taken h ts h' ts₁ s xs n ys ts₂ p) (H : Arranged h ts) (hq : UsedIn ts q k) :
    q ≠ p := by
  rintro rfl
  have hk := (H.sizeOf_used hq).2
  have hn := (T.tiled.toArranged.sizeOf_used T.used).2
  rcases T.new q k hq with h | h <;> omega

/-- What is written to the new block leaves the others as they were. -/
theorem write (T : Taken h ts h' ts₁ s xs n ys ts₂ p) (H : Arranged h ts)
    (hm : ∀ i, i < p + 7 ∨ p + n ≤ i → m i = h'.mem i) :
    Tiled { h' with mem := m } (ts₁ ++ (s, xs ++ .used n :: ys) :: ts₂) ∧
      Preserves h ts { h' with mem := m } (ts₁ ++ (s, xs ++ .used n :: ys) :: ts₂) := by
  obtain ⟨hT, hbut⟩ := T.tiled.write_used_spec T.used hm
  have hpres := T.preserves
  refine ⟨hT, hpres.address, hpres.flags, hpres.used, ?_⟩
  intro q k hq i hi hi'
  rw [hbut.data q k (T.ne H hq) (hpres.used q k hq) i hi hi', hpres.data q k hq i hi hi']

end Taken

/-- `RtlAllocateHeap` fails and has changed nothing, or it returns a new block. -/
theorem Tiled.rtlAllocateHeap (H : Tiled h ts) (hwhole : ∀ t ∈ ts, Whole t.2)
    (hsize : size ≤ maxRequest)
    (hfresh : ∀ a, e.reserve = some a → Fresh h a (newTotalSize (roundedSize size)))
    (flags : CallFlags) :
    (h.rtlAllocateHeap e flags size).1.Failed ∧ (h.rtlAllocateHeap e flags size).2 = h ∨
      ∃ p n ts', (h.rtlAllocateHeap e flags size).1 = .block (p + 8) ∧
        Serves (h.rtlAllocateHeap e flags size).2 ts' p n size ∧
        Preserves h ts (h.rtlAllocateHeap e flags size).2 ts' ∧ (∀ q k, UsedIn ts q k → q ≠ p) ∧
        (Covered ts → Covered ts') ∧
        load (h.rtlAllocateHeap e flags size).2.mem (p + 7) 1 = n - 8 - size := by
  obtain ⟨hle, h8, h16, hmax⟩ := roundedSize_spec hsize
  rcases H.findFreeBlock hwhole h16 hfresh with hno | ⟨s, p, h₁, ts₁, xs, n, ys, ts₂, heq, F⟩
  · left
    simp only [Heap.rtlAllocateHeap, hno]
    exact ⟨failed_noMemory _, trivial⟩
  · obtain ⟨h₂, n', zs, hshrunk, T, hge, hlt⟩ := F.take h16 h8 (F.room_of_le hmax)
    obtain ⟨hdata, hn⟩ := T.tiled.toArranged.sizeOf_used T.used
    right
    simp only [Heap.rtlAllocateHeap, heq, hshrunk, hdata, arenaInuseSize]
    have hm : ∀ i, i < p + 7 ∨ p + n' ≤ i →
        (if (flags.zeroMemory || h₂.flags.zeroMemory) = true then
            clearBlock (setUnusedBytes h₂.mem p (n' - 8 + sizeLimit - size)) (p + 8) (n' - 8)
          else setUnusedBytes h₂.mem p (n' - 8 + sizeLimit - size)) i = h₂.mem i := by
      intro i hi
      split
      · rw [clearBlock, if_neg (by omega), setUnusedBytes_of_ne (by omega)]
      · exact setUnusedBytes_of_ne (by omega)
    obtain ⟨hT, hpres⟩ := T.write H.toArranged hm
    refine ⟨p, n', _, rfl, ⟨hT, T.whole, T.used, by omega⟩, hpres, fun q k hq => T.ne H.toArranged hq,
      T.covered, ?_⟩
    rw [← unusedBytes_eq (m := h₂.mem) (p := p) (roundedSize_lt hsize) (by omega) (by omega)]
    refine load_congr fun i hi hi' => ?_
    split
    · exact if_neg (by omega)
    · rfl

/-- The block that a reallocation to `size` bytes returns: what the old block of `n` bytes at `p` and
the new one both have room for is as it was, and what lies behind the old one is clear when the
caller has asked for that. -/
structure ReAllocated (h : Heap) (ts : List Tile) (p n : ℕ) (zero : Bool) (size : ℕ) (h' : Heap)
    (ts' : List Tile) (q k : ℕ) : Prop extends Serves h' ts' q k size where
  others : PreservesBut p h ts h' ts'
  new : ∀ r j, r ≠ p → UsedIn ts r j → r ≠ q
  kept : ∀ i < n - 8, i < k - 8 → h'.mem (q + 8 + i) = h.mem (p + 8 + i)
  cleared : zero = true → n - 8 < roundedSize size → ∀ i, n - 8 ≤ i → i < k - 8 →
    h'.mem (q + 8 + i) = 0
  covered : Covered ts → Covered ts'
  unused : load h'.mem (q + 7) 1 = k - 8 - size

/-- The end of a reallocation, for a block that has been shrunk in place. -/
theorem Tiled.finishReAlloc (H : Tiled h ts) (hwhole : ∀ t ∈ ts, Whole t.2)
    (hused : UsedIn ts q k) (hsize : size ≤ maxRequest) (hroom : size + 8 ≤ k)
    (hlt : k < roundedSize size + 40) (zero : Bool) (n : ℕ) :
    ∃ h', h.finishReAlloc zero (n - 8) size q = (.block (q + 8), h') ∧ Serves h' ts q k size ∧
      PreservesBut q h ts h' ts ∧ (∀ i < n - 8, i < k - 8 → h'.mem (q + 8 + i) = h.mem (q + 8 + i)) ∧
      (zero = true → n - 8 < roundedSize size → ∀ i, n - 8 ≤ i → i < k - 8 →
        h'.mem (q + 8 + i) = 0) ∧ load h'.mem (q + 7) 1 = k - 8 - size := by
  obtain ⟨hdata, hk⟩ := H.toArranged.sizeOf_used hused
  simp only [Heap.finishReAlloc, hdata, arenaInuseSize]
  refine ⟨_, rfl, ?_⟩
  have hm : ∀ i, i < q + 7 ∨ q + 8 ≤ i ∧ i < q + 8 + (n - 8) ∨ q + k ≤ i →
      (if n - 8 < roundedSize size ∧ zero = true then
          clearBlock (setUnusedBytes h.mem q (k - 8 + sizeLimit - size)) (q + 8 + (n - 8))
            (k - 8 - (n - 8))
        else setUnusedBytes h.mem q (k - 8 + sizeLimit - size)) i = h.mem i := by
    intro i hi
    split
    · rw [clearBlock, if_neg (by omega), setUnusedBytes_of_ne (by omega)]
    · exact setUnusedBytes_of_ne (by omega)
  obtain ⟨hT, hbut⟩ := H.write_used_spec hused fun i hi => hm i (by omega)
  refine ⟨⟨hT, hwhole, hused, hroom⟩, hbut, fun i hi hi' => hm _ (by omega), ?_, ?_⟩
  · intro hzero hgrown i hi hi'
    rw [if_pos ⟨hgrown, hzero⟩]
    exact if_pos ⟨by omega, by omega⟩
  · rw [← unusedBytes_eq (m := h.mem) (p := q) (roundedSize_lt hsize) hlt hroom]
    refine load_congr fun i hi hi' => ?_
    split
    · exact if_neg (by omega)
    · rfl

namespace Tiled

/-- A block that has been put back larger or smaller, where it was. -/
theorem finish_shrunk
    (hwhole : ∀ t ∈ ts₁ ++ (s, xs ++ .used n :: ys) :: ts₂, Whole t.2)
    (hp : p = s.first + totalOf xs) {s' : SubHeap}
    (hT : Tiled h' (ts₁ ++ (s', xs ++ .used k :: zs) :: ts₂)) (hs : s'.first = s.first)
    (hzs : Whole zs)
    (hbut : PreservesBut p h (ts₁ ++ (s, xs ++ .used n :: ys) :: ts₂) h'
      (ts₁ ++ (s', xs ++ .used k :: zs) :: ts₂))
    (hmem : ∀ i < n - 8, i < k - 8 → h'.mem (p + 8 + i) = h.mem (p + 8 + i))
    (hsize : size ≤ maxRequest) (hroom : size + 8 ≤ k) (hlt : k < roundedSize size + 40)
    (hcov : Covered (ts₁ ++ (s, xs ++ .used n :: ys) :: ts₂) →
      Covered (ts₁ ++ (s', xs ++ .used k :: zs) :: ts₂)) (zero : Bool) :
    ∃ h'', h'.finishReAlloc zero (n - 8) size p = (.block (p + 8), h'') ∧
      ReAllocated h (ts₁ ++ (s, xs ++ .used n :: ys) :: ts₂) p n zero size h''
        (ts₁ ++ (s', xs ++ .used k :: zs) :: ts₂) p k := by
  obtain ⟨hmiddle, hrest⟩ := forall_middle.mp hwhole
  have hwhole' : ∀ t ∈ ts₁ ++ (s', xs ++ .used k :: zs) :: ts₂, Whole t.2 :=
    forall_middle.mpr ⟨Whole.replace hmiddle (fun j hj => by cases hj) hzs, hrest⟩
  have hused : UsedIn (ts₁ ++ (s', xs ++ .used k :: zs) :: ts₂) p k :=
    usedIn_place (by rw [hs, hp])
  obtain ⟨h'', heq, hserves, hbut', hkept, hcleared, hunused⟩ :=
    hT.finishReAlloc hwhole' hused hsize hroom hlt zero n
  refine ⟨h'', heq, hserves,
    ⟨hbut'.address.trans hbut.address, hbut'.flags.trans hbut.flags, ?_, ?_⟩,
    fun r j hne _ => hne, ?_, hcleared, hcov, hunused⟩
  · exact fun r j hne hr => hbut'.used r j hne (hbut.used r j hne hr)
  · intro r j hne hr i hi hi'
    rw [hbut'.data r j hne (hbut.used r j hne hr) i hi hi', hbut.data r j hne hr i hi hi']
  · intro i hi hi'
    rw [hkept i hi hi', hmem i hi hi']

/-- Shrinking in place. -/
theorem reAlloc_shrink (H : Tiled h (ts₁ ++ (s, xs ++ .used n :: ys) :: ts₂))
    (hwhole : ∀ t ∈ ts₁ ++ (s, xs ++ .used n :: ys) :: ts₂, Whole t.2)
    (hp : p = s.first + totalOf xs) (hsize : size ≤ maxRequest) (hle : roundedSize size + 8 ≤ n)
    (zero : Bool) :
    ∃ h₁ h'' ts' j, h.shrinkBlock s p (roundedSize size) = some h₁ ∧
      h₁.finishReAlloc zero (n - 8) size p = (.block (p + 8), h'') ∧
      ReAllocated h (ts₁ ++ (s, xs ++ .used n :: ys) :: ts₂) p n zero size h'' ts' p j := by
  obtain ⟨hround, h8, h16, -⟩ := roundedSize_spec hsize
  have hys : Whole ys := Whole.tail (Whole.right (forall_middle.mp hwhole).1)
  have hused := (H.used_middle hp).2.2.2.2.1
  obtain ⟨h₁, j, zs, heq, hS, hge, hjn, hlt, -⟩ := H.release.shrinkBlock hp hused hys h16 h8 hle
  have hbut := (release_but (h := h) hp).trans (hS.preserves H.release.toArranged hp)
  have hcov : Covered (ts₁ ++ (s, xs ++ .used n :: ys) :: ts₂) →
      Covered (ts₁ ++ (s, xs ++ .used j :: zs) :: ts₂) := by
    intro hcov
    obtain ⟨hmiddle, hrest⟩ := forall_middle.mp hcov
    obtain ⟨hcxs, hcn, hcys⟩ := CoveredFrom.append_iff.mp hmiddle
    have hcn' : p + n ≤ s.committed := by
      rw [hp]
      exact hcn
    have hgap : CoveredFrom s.committed s.first (xs ++ .gap n :: ys) :=
      CoveredFrom.append_iff.mpr ⟨hcxs, hcys⟩
    have hshrunk : CoveredFrom s.committed s.first (xs ++ .used j :: zs) := by
      apply hS.covered hp hgap (by omega)
      intro hne
      rcases hS.cases with ⟨heq, -⟩ | ⟨hsmall, -⟩
      · exact absurd heq hne
      · omega
    exact forall_middle.mpr ⟨hshrunk, hrest⟩
  obtain ⟨h'', hfinish, hR⟩ := finish_shrunk hwhole hp hS.tiled rfl hS.whole hbut
    (fun i hi hi' => hS.mem _ (.inr ⟨by omega, by omega⟩) (by omega)) hsize
    (show size + 8 ≤ j by omega) hlt hcov zero
  exact ⟨h₁, h'', _, j, heq, hfinish, hR⟩

/-- The next block has been counted in: the two are in the hands, with the header of one. -/
theorem takeNext (H : Tiled h (ts₁ ++ (s, xs ++ .used n :: .free k :: ys) :: ts₂))
    (hp : p = s.first + totalOf xs) :
    Tiled (h.takeNext p) (ts₁ ++ (s, xs ++ .gap (n + k) :: ys) :: ts₂) ∧
      UsedAt (h.takeNext p).mem (lastBefore .used s.first xs) p (n + k) ∧
      PreservesBut p h (ts₁ ++ (s, xs ++ .used n :: .free k :: ys) :: ts₂) (h.takeNext p)
        (ts₁ ++ (s, xs ++ .gap (n + k) :: ys) :: ts₂) ∧
      ∀ i, i < p ∨ p + 4 ≤ i → (h.takeNext p).mem i = h.mem i := by
  obtain ⟨hfilled, hlimit, hbase, -, hused, hys⟩ := H.used_middle hp
  obtain ⟨hw, hk8, hk⟩ := H.toArranged.word_takeNext hp
  have hn := hused.le
  have hn8 := hused.aligned
  have hnext : p + arenaInuseSize + sizeOf (word h.mem p) = p + n := by
    rw [hused.size, arenaInuseSize]
    omega
  have hb : s.base ≤ s.first := Nat.le_add_right _ _
  have hout : ∀ i, i < p ∨ p + 4 ≤ i → (h.takeNext p).mem i = h.mem i :=
    fun i hi => setWord_of_not_mem hi
  have hrelease := H.release
  rw [List.append_cons xs (.gap n)] at hrelease
  have htake := hrelease.take (p := p + n) (by
    rw [totalOf_append, hp, totalOf_cons, totalOf_nil, Nat.add_zero, ← Nat.add_assoc]
    rfl)
  rw [← List.append_cons xs (.gap n)] at htake
  have hT := htake.merge_gaps.write_gap (m := (h.takeNext p).mem) hp fun i hi => hout i (by omega)
  have hlist : h.takeNext p = { h.listRemove (p + n) with mem := (h.takeNext p).mem } := by
    simp only [Heap.takeNext, hnext]
  rw [← hlist] at hT
  have hsize := hused.size
  rw [sizeOf] at hsize
  have hinuse := hused.inuse
  rw [IsFree] at hinuse
  refine ⟨hT, ⟨by omega, by omega, ?_, ?_, ?_, ?_⟩, ?_, hout⟩
  · rw [← hused.magic]
    exact load_congr fun i hi _ => hout i (by omega)
  · rw [hw, IsFree]
    omega
  · rw [hw, sizeOf]
    omega
  · refine hused.flagged.congr ?_ fun _ _ => word_congr fun i _ hi => hout i (by omega)
    rw [hw, IsPrevFree, IsPrevFree]
    omega
  · have hbut : PreservesBut p h (ts₁ ++ (s, xs ++ .used n :: .free k :: ys) :: ts₂) h
        (ts₁ ++ (s, xs ++ .gap n :: .free k :: ys) :: ts₂) := release_but hp
    refine hbut.trans (H.release.toArranged.preserves hp (fun j hj => by cases hj) ?_ ?_ ?_ ?_)
    · rfl
    · rfl
    · intro i hi
      simp only [Piece.total] at hi
      exact hout i (by omega)
    · intro q j hq
      rw [usedOf_append] at hq ⊢
      simp only [usedOf, Nat.add_assoc] at hq ⊢
      exact hq

/-- Growing in place, when the memory can be committed. -/
theorem reAlloc_grow (H : Tiled h (ts₁ ++ (s, xs ++ .used n :: .free k :: ys) :: ts₂))
    (hwhole : ∀ t ∈ ts₁ ++ (s, xs ++ .used n :: .free k :: ys) :: ts₂, Whole t.2)
    (hp : p = s.first + totalOf xs) (hsize : size ≤ maxRequest)
    (hle : roundedSize size + 8 ≤ n + k) (zero : Bool) {s' : SubHeap}
    (hcommit : (h.takeNext p).commit e s p (roundedSize size) = some (s', h')) :
    ∃ h₁ h'' ts' j, h'.shrinkBlock s' p (roundedSize size) = some h₁ ∧
      h₁.finishReAlloc zero (n - 8) size p = (.block (p + 8), h'') ∧
      ReAllocated h (ts₁ ++ (s, xs ++ .used n :: .free k :: ys) :: ts₂) p n zero size h'' ts' p
        j := by
  obtain ⟨hround, h8, h16, -⟩ := roundedSize_spec hsize
  have hys : Whole ys := Whole.tail (Whole.tail (Whole.right (forall_middle.mp hwhole).1))
  obtain ⟨hT, hused, hbut, hout⟩ := H.takeNext hp
  rcases hT.commit e p (roundedSize size) with hno | ⟨c, h₂, heq, hT', hpres, hmem⟩
  · rw [hno] at hcommit
    cases hcommit
  · rw [heq, Option.some.injEq, Prod.mk.injEq] at hcommit
    obtain ⟨rfl, rfl⟩ := hcommit
    obtain ⟨hc, hend⟩ := commitSize_of_commit heq
    rw [← hmem] at hused
    obtain ⟨h₁, j, zs, hshrink, hS, hge, hjn, hlt, hj⟩ := hT'.shrinkBlock hp hused hys h16 h8 hle
    have hbut' := (hbut.trans hpres).trans (hS.preserves hT'.toArranged hp)
    have hcov : Covered (ts₁ ++ (s, xs ++ .used n :: .free k :: ys) :: ts₂) →
        Covered (ts₁ ++ ({ s with commitSize := c }, xs ++ .used j :: zs) :: ts₂) := by
      intro hcov
      obtain ⟨hmiddle, hrest⟩ := forall_middle.mp (covered_setCommitSize hc hcov)
      obtain ⟨hcxs, -, -, hcys⟩ := CoveredFrom.append_iff.mp hmiddle
      rw [Nat.add_assoc] at hcys
      exact forall_middle.mpr ⟨hS.covered_of_commitEnd hT'.toArranged hp hys
        (CoveredFrom.append_iff.mpr ⟨hcxs, hcys⟩) hend h8 hle hlt hj, hrest⟩
    obtain ⟨h'', hfinish, hR⟩ := finish_shrunk hwhole hp hS.tiled rfl hS.whole hbut'
      (fun i hi hi' => by
        rw [hS.mem _ (.inr ⟨by omega, by omega⟩) (by omega), hmem, hout _ (by omega)])
      hsize (show size + 8 ≤ j by omega) hlt hcov zero
    exact ⟨h₁, h'', _, j, hshrink, hfinish, hR⟩

end Tiled

/-! ### Moving a block -/

theorem memcpy_apply {dst src i : ℕ} (hi : i < n) : memcpy m dst src n (dst + i) = m (src + i) := by
  rw [memcpy, store_of_mem (by rwa [length_bytesAt]), getD_bytesAt hi]

/-- The search for room removes no sub-heap and moves none. -/
theorem findFreeBlock_subheaps {h' : Heap} {s : SubHeap}
    (hfind : h.findFreeBlock e size = some (s, q, h')) {t : SubHeap} (ht : t ∈ h.subheaps) :
    ∃ t' ∈ h'.subheaps, t'.base = t.base ∧ t'.size = t.size := by
  rw [Heap.findFreeBlock] at hfind
  split at hfind
  · next p _ =>
    split at hfind
    · cases hfind
    · next s₀ _ =>
      rcases h.commit_cases e s₀ p size with ⟨hno, -⟩ | heq | ⟨c, -, heq⟩
      · rw [hno] at hfind
        cases hfind
      · rw [heq] at hfind
        obtain ⟨-, -, rfl⟩ := hfind
        exact ⟨t, ht, rfl, rfl⟩
      · rw [heq] at hfind
        obtain ⟨-, -, rfl⟩ := hfind
        refine ⟨_, List.mem_map_of_mem ht, ?_⟩
        split <;> exact ⟨rfl, rfl⟩
  · split at hfind
    · simp only [Heap.createSubHeap] at hfind
      split at hfind
      · cases hfind
      · split at hfind
        · obtain ⟨-, -, rfl⟩ := hfind
          refine ⟨t, ?_, rfl, rfl⟩
          rw [(createFreeBlock_beside _ _ _ _).subheaps, Heap.linkSubHeap]
          rw [← List.take_append_drop 1 h.subheaps] at ht
          rcases List.mem_append.mp ht with ht | ht
          · exact List.mem_append_left _ ht
          · exact List.mem_append_right _ (List.mem_cons_of_mem _ ht)
        · cases hfind
    · cases hfind

namespace Arranged

/-- The record of a sub-heap is found by its base. -/
theorem current {s' : SubHeap} (H : Arranged h (ts₁ ++ (s, cs) :: ts₂)) (hbase : s'.base = s.base) :
    h.current s' = s := by
  have hne : ∀ t ∈ ts₁.map Prod.fst, ¬ decide (t.base = s.base) = true := by
    intro t ht
    obtain ⟨t', ht', rfl⟩ := List.mem_map.mp ht
    simpa using H.base_ne (List.mem_append_left _ ht')
  rw [Heap.current, H.subheaps, List.map_append, List.map_cons, hbase, List.find?_append,
    List.find?_eq_none.mpr hne, Option.none_or, List.find?_cons_of_pos (by simp)]
  rfl

/-- The sub-heap of a block that is still where it was. -/
theorem findSubHeap_same {s' : SubHeap} (H : Arranged h (ts₁ ++ (s, xs ++ .used n :: ys) :: ts₂))
    (hp : p = s.first + totalOf xs) (H' : Arranged h' ts') (hs' : s' ∈ h'.subheaps)
    (hbase : s'.base = s.base) (hsize : s'.size = s.size) : h'.findSubHeap p = some s' := by
  obtain ⟨hfilled, -, -, -, hused, -⟩ := H.used_middle hp
  have hn := hused.le
  have hb : s.base ≤ s.first := Nat.le_add_right _ _
  have hl : s.limit = s.base + s.size := rfl
  have hl' : s'.limit = s'.base + s'.size := rfl
  rw [H'.subheaps] at hs'
  obtain ⟨t, ht, rfl⟩ := List.mem_map.mp hs'
  exact H'.findSubHeap ht (by omega) (by omega)

end Arranged

namespace Tiled

/-- The old block is freed through the record that the call has kept of its sub-heap. -/
theorem free_moved {s' : SubHeap} (H' : Tiled h' ts') (hwhole : ∀ t ∈ ts', Whole t.2)
    (hused : UsedIn ts' p n) (hs' : s' ∈ h'.subheaps) (hbase : s'.base = s.base)
    (hsize : s'.size = s.size) (H : Arranged h (ts₁ ++ (s, xs ++ .used n :: ys) :: ts₂))
    (hp : p = s.first + totalOf xs) (e : Outcomes) :
    ∃ ts'', Tiled (h'.makeInUseBlockFree e (h'.current s) p) ts'' ∧ (∀ t ∈ ts'', Whole t.2) ∧
      PreservesBut p h' ts' (h'.makeInUseBlockFree e (h'.current s) p) ts'' ∧
      (Covered ts' → Covered ts'') := by
  have hfind := H.findSubHeap_same hp H'.toArranged hs' hbase hsize
  obtain ⟨ts₃, s₃, xs₃, ys₃, ts₄, rfl, hp₃⟩ := hused.split
  rw [(H'.findSubHeap_used hp₃).1, Option.some.injEq] at hfind
  subst hfind
  rw [H'.current hbase.symm]
  exact H'.makeInUseBlockFree hp₃ hwhole e

theorem reAlloc_move (H : Tiled h (ts₁ ++ (s, xs ++ .used n :: ys) :: ts₂))
    (hwhole : ∀ t ∈ ts₁ ++ (s, xs ++ .used n :: ys) :: ts₂, Whole t.2)
    (hp : p = s.first + totalOf xs) (hsize : size ≤ maxRequest)
    (hgrown : n - 8 < roundedSize size) (flags : CallFlags)
    (hfresh : ∀ a, e.reserve = some a → Fresh h a (newTotalSize (roundedSize size))) :
    h.moveBlock e flags s p size =
        (noMemory (flags.generateExceptions || h.flags.generateExceptions), h) ∨
      ∃ q k h'' ts', h.moveBlock e flags s p size = (.block (q + 8), h'') ∧
        ReAllocated h (ts₁ ++ (s, xs ++ .used n :: ys) :: ts₂) p n
          (flags.zeroMemory || h.flags.zeroMemory) size h'' ts' q k := by
  obtain ⟨hround, h8, h16, hmax⟩ := roundedSize_spec hsize
  have hdata := (H.used_middle hp).2.2.2.2.1.size
  have hn := (H.used_middle hp).2.2.2.2.1.le
  have hused : UsedIn (ts₁ ++ (s, xs ++ .used n :: ys) :: ts₂) p n := usedIn_place hp
  simp only [Heap.moveBlock]
  split
  · exact .inl rfl
  · rcases H.findFreeBlock hwhole h16 hfresh with hno | ⟨s₁, q, h₁, ts₃, xs₁, n₁, ys₁, ts₄, heq, F⟩
    · left
      rw [hno]
    · right
      obtain ⟨h₂, k, zs, hshrunk, T, hge, hlt⟩ := F.take h16 h8 (F.room_of_le hmax)
      obtain ⟨s', hs', hbase, hsame⟩ := findFreeBlock_subheaps heq (H.subheap_mem Arranged.tile_mem)
      have hcopy : ∀ i, i < q + 8 ∨ q + 8 + (n - 8) ≤ i →
          memcpy h₂.mem (q + 8) (p + 8) (n - 8) i = h₂.mem i := by
        intro i hi
        apply store_of_not_mem
        rw [length_bytesAt]
        exact hi
      obtain ⟨hT, hpres⟩ := T.write H.toArranged
        (m := memcpy h₂.mem (q + 8) (p + 8) (n - 8)) fun i hi => hcopy i (by omega)
      have hsubheaps : { h₂ with mem := memcpy h₂.mem (q + 8) (p + 8) (n - 8) }.subheaps =
          h₁.subheaps := by
        rw [hT.subheaps, F.tiled.subheaps, List.map_append, List.map_append, List.map_cons,
          List.map_cons]
      rw [← hsubheaps] at hs'
      obtain ⟨ts', hT', hwhole', hbut, hcov⟩ :=
        hT.free_moved T.whole (hpres.used p n hused) hs' hbase hsame H.toArranged hp e
      have hpq := T.ne H.toArranged hused
      obtain ⟨h'', hfinish, hserves, hbut', hkept, hcleared, hunused⟩ := hT'.finishReAlloc hwhole'
        (hbut.used q k hpq.symm T.used) hsize (show size + 8 ≤ k by omega) hlt
        (flags.zeroMemory || h.flags.zeroMemory) n
      refine ⟨q, k, h'', ts', ?_, hserves, ?_, fun r j _ hr => T.ne H.toArranged hr, ?_, hcleared,
        fun h => hcov (T.covered h), hunused⟩
      · simp only [heq, hshrunk, hdata, arenaInuseSize]
        rw [← hfinish, hpres.flags]
      · have hall := hpres.trans_but hbut
        refine ⟨hbut'.address.trans hall.address, hbut'.flags.trans hall.flags, ?_, ?_⟩
        · intro r j hne hr
          exact hbut'.used r j (T.ne H.toArranged hr) (hall.used r j hne hr)
        · intro r j hne hr i hi hi'
          rw [hbut'.data r j (T.ne H.toArranged hr) (hall.used r j hne hr) i hi hi',
            hall.data r j hne hr i hi hi']
      · intro i hi hi'
        rw [hkept i hi hi', hbut.data q k hpq.symm T.used _ (by omega) (by omega),
          ← T.preserves.data p n hused (p + 8 + i) (by omega) (by omega)]
        exact memcpy_apply hi

/-- `RtlReAllocateHeap` fails, with nothing changed unless a growth in place has failed, or it returns
the block. -/
theorem rtlReAllocateHeap (H : Tiled h ts) (hwhole : ∀ t ∈ ts, Whole t.2) (hused : UsedIn ts p n)
    (hsize : size ≤ maxRequest)
    (hfresh : ∀ a, e.reserve = some a → Fresh h a (newTotalSize (roundedSize size)))
    (flags : CallFlags) :
    (h.rtlReAllocateHeap e flags (p + 8) size).1.Failed ∧
        ((h.rtlReAllocateHeap e flags (p + 8) size).2 = h ∨ h.GrowthFails e p (roundedSize size)) ∨
      ∃ q k h' ts', h.rtlReAllocateHeap e flags (p + 8) size = (.block (q + 8), h') ∧
        ReAllocated h ts p n (flags.zeroMemory || h.flags.zeroMemory) size h' ts' q k := by
  obtain ⟨hround, h8, h16, -⟩ := roundedSize_spec hsize
  obtain ⟨ts₁, s, xs, ys, ts₂, rfl, hp⟩ := hused.split
  have hwhole' := hwhole _ Arranged.tile_mem
  have hs := H.blockSubHeap hp hwhole'
  have hdata := (H.used_middle hp).2.2.2.2.1.size
  have hn := (H.used_middle hp).2.2.2.2.1.le
  have hzero : p + 8 ≠ 0 := Nat.succ_ne_zero _
  simp only [Heap.rtlReAllocateHeap, arenaInuseSize, Nat.add_sub_cancel, if_neg hzero, hs, hdata]
  split
  · next hgrown =>
    split
    · next hin =>
      obtain ⟨k, zs, rfl, hle⟩ := (H.growsInPlace_iff hp (Whole.tail hwhole'.right)).mp hin
      cases hcommit : (h.takeNext p).commit e s p (roundedSize size) with
      | none =>
        rw [commit_eq_none_iff] at hcommit
        refine .inl ⟨failed_noMemory _, .inr ⟨by omega, s, (H.findSubHeap_used hp).1, hin, ?_⟩⟩
        exact hcommit
      | some r =>
        obtain ⟨s', h'⟩ := r
        obtain ⟨h₁, h'', ts', j, hshrunk, hfinish, hR⟩ :=
          H.reAlloc_grow hwhole hp hsize hle _ hcommit
        exact .inr ⟨p, j, h'', ts', by simp only [hshrunk, hfinish], hR⟩
    · rcases H.reAlloc_move hwhole hp hsize hgrown flags hfresh with heq | hmoved
      · rw [heq]
        exact .inl ⟨failed_noMemory _, .inl rfl⟩
      · exact .inr hmoved
  · obtain ⟨h₁, h'', ts', j, hshrunk, hfinish, hR⟩ :=
      H.reAlloc_shrink hwhole hp hsize (by omega) _
    exact .inr ⟨p, j, h'', ts', by simp only [hshrunk, hfinish], hR⟩

end Tiled

end Wine.Heaps
