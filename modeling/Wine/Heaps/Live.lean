import Wine.Heaps.Blocks

/-!
# New heaps and new sub-heaps

A heap starts as its heads and one free block; a sub-heap that is linked in adds one free block.
-/

namespace Wine.Heaps
open Wine.Lib Reading

variable {h h' : Heap} {ts : List Tile} {s : SubHeap} {flags : HeapFlags} {m : Memory}
  {e : Outcomes} {a i n totalSize commitSize : ℕ}

theorem word_initHeads (h : i < n) : word (initHeads m a n) (a + 16 * i) = 1 := by
  induction n with
  | zero => omega
  | succ n ih =>
    simp only [initHeads, arenaFreeSize]
    rw [word_setWord_of_disjoint (by omega)]
    rcases Nat.lt_succ_iff_lt_or_eq.mp h with hlt | rfl
    · rw [word_setWord_of_disjoint (by omega), ih hlt]
    · exact word_setWord (by decide)

theorem word_initHeads_magic (h : i < n) :
    word (initHeads m a n) (a + 16 * i + 4) = arenaFreeMagic := by
  induction n with
  | zero => omega
  | succ n ih =>
    simp only [initHeads, arenaFreeSize]
    rcases Nat.lt_succ_iff_lt_or_eq.mp h with hlt | rfl
    · rw [word_setWord_of_disjoint (by omega), word_setWord_of_disjoint (by omega), ih hlt]
    · exact word_setWord (by decide)

theorem tiled_newHeap (hs : s.WellFormed) (hheader : s.headerSize = heapSize)
    (hsize : 0x10000 ≤ s.size) :
    Tiled (newHeap s flags m) ([] ++ (s, [] ++ .gap (s.size - heapSize) :: []) :: []) := by
  have haligned := hs.size_aligned
  have hheap : heapSize = 240 := rfl
  refine ⟨⟨rfl, ⟨_, [], rfl, rfl, hheader, ?_⟩, ?_, ?_, ?_, ?_⟩, ?_, ?_⟩
  · intro t ht
    cases ht
  · exact List.pairwise_singleton _ _
  · intro t ht
    rw [List.mem_singleton.mp ht]
    refine ⟨hs, ⟨show (s.size - heapSize) % 8 = 0 by omega, trivial⟩, ?_⟩
    simp only [List.nil_append, totalOf_cons, totalOf_nil, Piece.total, SubHeap.first,
      SubHeap.limit]
    omega
  · exact fun i hi => word_initHeads hi
  · exact fun i hi => word_initHeads_magic hi
  · simp only [freesIn, List.flatMap_cons, List.flatMap_nil, freesOf, List.nil_append,
      List.map_nil, List.append_nil]
    exact List.Perm.refl _
  · refine ⟨?_, heads_nodup (newHeap s flags m)⟩
    refine List.pairwise_map.mpr (List.pairwise_lt_range.imp_of_mem ?_)
    intro i j hi hj hij
    have hi' := (newHeap s flags m).nodeKey_head (List.mem_range.mp hi)
    have hj' := (newHeap s flags m).nodeKey_head (List.mem_range.mp hj)
    change (newHeap s flags m).nodeKey ((newHeap s flags m).freeListHead i) ≤
      (newHeap s flags m).nodeKey ((newHeap s flags m).freeListHead j)
    omega

/-- A new heap is consistent: all of its memory is one free block. -/
theorem tiled_initHeap (hs : s.WellFormed) (hheader : s.headerSize = heapSize)
    (hsize : 0x10000 ≤ s.size) :
    Tiled ((newHeap s flags m).createFreeBlock s s.first (s.size - heapSize))
      [(s, [.free (s.size - heapSize)])] := by
  have hheap : heapSize = 240 := rfl
  have H : Tiled (newHeap s flags m) _ := tiled_newHeap hs hheader hsize
  have hn : 24 ≤ s.size - heapSize := by omega
  generalize s.size - heapSize = n at *
  obtain ⟨n', zs, hT, hcases, -, -⟩ := H.createFreeBlock (Nat.add_zero _).symm hn
    (fun q hq => by cases hq) (fun k hk => by cases hk)
  rcases hcases with ⟨rfl, rfl⟩ | ⟨k, hk, -⟩
  · exact hT
  · cases hk

/-- The range of a new sub-heap is free memory. -/
structure Fresh (h : Heap) (address totalSize : ℕ) : Prop where
  aligned : address % 8 = 0
  ge : 0x10000 ≤ address
  lt : address + totalSize < sizeLimit
  apart : ∀ t ∈ h.subheaps, t.limit ≤ address ∨ address + totalSize ≤ t.base

end Wine.Heaps

/-!
## Looking for a free block

The search starts at the head of a class and goes on to the end of the free list. It looks in the
class of the whole block it is asked for, and a block is put into the class of its own whole size,
so that a block which is large enough is not before the start.
-/

namespace Wine.Heaps
open Wine.Lib Reading

variable {h : Heap} {ts : List Tile} {e : Outcomes} {p n size : ℕ}

theorem heapMinDataSize_le_roundedSize (size : ℕ) : 16 ≤ roundedSize size :=
  Nat.le_max_right _ _

namespace Tiled

/-- What the search returns is a free block that is large enough, and no head. -/
theorem of_searchFreeList (H : Tiled h ts) (hsize : 16 ≤ size)
    (hp : h.searchFreeList size = some p) : p ∉ h.heads ∧ ∃ n, FreeIn ts p n ∧ size ≤ n - 8 := by
  have hmem := mem_of_mem_nodesAfter (List.mem_of_find?_eq_some hp)
  have hfound := List.find?_some hp
  have hfits : size ≤ sizeOf (word h.mem p) + 16 - 8 := of_decide_eq_true hfound
  have hhead : p ∉ h.heads := by
    intro hp'
    obtain ⟨i, hi, rfl⟩ := Heap.mem_heads.mp hp'
    rw [H.heads i hi, sizeOf_one] at hfits
    omega
  rcases H.mem_freeList.mp hmem with hp' | ⟨n, hn⟩
  · exact absurd hp' hhead
  · refine ⟨hhead, n, hn, ?_⟩
    rw [H.sizeOf_free hn] at hfits
    obtain ⟨before, hfree⟩ := H.freeAt hn
    have hle := hfree.le
    omega

/-- A free block that is large enough is met by the search. -/
theorem searchFreeList_isSome (H : Tiled h ts) (hn : FreeIn ts p n) (hfits : size ≤ n - 8)
    (hsize : 16 ≤ size) : (h.searchFreeList size).isSome := by
  obtain ⟨before, hfree⟩ := H.freeAt hn
  have hle := hfree.le
  have hlt : n < sizeLimit := by
    obtain ⟨t, ht, hmem⟩ := hn
    have hb := H.free_bounds ht hmem
    have hlimit := (H.tile t ht).wellFormed.limit_lt
    omega
  have hsum : (size + arenaInuseSize) % sizeLimit = size + 8 := by
    rw [arenaInuseSize]
    exact Nat.mod_eq_of_lt (by omega)
  have hindex : getFreelistIndex (size + 8) ≤ getFreelistIndex n :=
    getFreelistIndex_mono (by omega) (by omega) hlt
  have hi := getFreelistIndex_lt (size + 8)
  rw [Heap.searchFreeList, List.find?_isSome, hsum]
  refine ⟨p, ?_, ?_⟩
  · apply H.ordered.mem_nodesAfter (H.head_mem hi) (H.mem_freeList.mpr (.inr ⟨n, hn⟩))
    rw [Heap.nodeKey_head hi, H.nodeKey_free hn]
    omega
  · have hdata := H.sizeOf_free hn
    apply decide_eq_true
    simp only [hdata, arenaFreeSize, arenaInuseSize]
    omega

end Tiled

/-- Some free arena could hold `size` bytes. -/
def CanHold (ts : List Tile) (size : ℕ) : Prop := ∃ p n, FreeIn ts p n ∧ size + 8 ≤ n

/-- Only the committed sizes differ. -/
structure Heap.SameBlocks (h h' : Heap) : Prop where
  address : h'.address = h.address
  mem : h'.mem = h.mem
  freeList : h'.freeList = h.freeList
  flags : h'.flags = h.flags
  subheaps : h'.subheaps.map (fun s => (s.base, s.size, s.headerSize)) =
    h.subheaps.map fun s => (s.base, s.size, s.headerSize)

theorem Heap.SameBlocks.refl (h : Heap) : h.SameBlocks h := ⟨rfl, rfl, rfl, rfl, rfl⟩

theorem Heap.sameBlocks_setCommitSize (h : Heap) (s : SubHeap) (size : ℕ) :
    h.SameBlocks (h.setCommitSize s size) where
  address := rfl
  mem := rfl
  freeList := rfl
  flags := rfl
  subheaps := by
    simp only [setCommitSize, List.map_map]
    refine List.map_congr_left fun t _ => ?_
    simp only [Function.comp_apply]
    split <;> rfl

/-- Committing fails, or leaves everything but a committed size as it was. -/
theorem Heap.commit_cases (h : Heap) (e : Outcomes) (s : SubHeap) (p dataSize : ℕ) :
    h.commit e s p dataSize = none ∧ e.commit = false ∨
      h.commit e s p dataSize = some (s, h) ∨
      ∃ c ≤ s.size,
        h.commit e s p dataSize = some ({ s with commitSize := c }, h.setCommitSize s c) := by
  simp only [commit]
  split
  · exact Or.inr (Or.inl rfl)
  · split
    · exact Or.inr (Or.inr ⟨_, Nat.min_le_right _ _, rfl⟩)
    · next hcommit => exact Or.inl ⟨rfl, by simpa using hcommit⟩

/-- For every consistent heap and every request: where a free arena could hold the rounded block,
one that can is returned, in the sub-heap it lies in, and no sub-heap is created; and what the walk
stops at is never a head. -/
theorem findFreeBlock_complete (size : ℕ) (H : Tiled h ts) (hcommit : e.commit = true) :
    (CanHold ts (roundedSize size) → ∃ s p h',
      h.findFreeBlock e (roundedSize size) = some (s, p, h') ∧
      (∃ n, FreeIn ts p n ∧ roundedSize size + 8 ≤ n) ∧ s ∈ h'.subheaps ∧ s.first ≤ p ∧ p < s.limit ∧
      h.SameBlocks h') ∧
    ∀ p, h.searchFreeList (roundedSize size) = some p → p ∉ h.heads := by
  have hmin := heapMinDataSize_le_roundedSize size
  refine ⟨?_, fun p hp => (H.of_searchFreeList hmin hp).1⟩
  rintro ⟨p₀, n₀, hn₀, hfits₀⟩
  obtain ⟨p, hp⟩ := Option.isSome_iff_exists.mp
    (H.searchFreeList_isSome hn₀ (by omega) hmin)
  obtain ⟨-, n, ⟨t, ht, hn⟩, hfits⟩ := H.of_searchFreeList hmin hp
  obtain ⟨before, hfree⟩ := H.freeAt ⟨t, ht, hn⟩
  have hle := hfree.le
  have hb := H.free_bounds ht hn
  have hbase : t.1.base ≤ t.1.first := Nat.le_add_right _ _
  have hsub := H.findSubHeap ht (p := p) (by omega) (by omega)
  have hmem := H.subheap_mem ht
  have hfound : ∃ n, FreeIn ts p n ∧ roundedSize size + 8 ≤ n := ⟨n, ⟨t, ht, hn⟩, by omega⟩
  rcases h.commit_cases e t.1 p (roundedSize size) with ⟨-, hno⟩ | heq | ⟨c, -, heq⟩
  · rw [hcommit] at hno
    cases hno
  · refine ⟨t.1, p, h, ?_, hfound, hmem, by omega, by omega, .refl h⟩
    simp only [Heap.findFreeBlock, hp, hsub, heq, Option.map_some]
  · refine ⟨{ t.1 with commitSize := c }, p, h.setCommitSize t.1 c, ?_, hfound, ?_, hb.1, ?_,
      h.sameBlocks_setCommitSize t.1 c⟩
    · simp only [Heap.findFreeBlock, hp, hsub, heq, Option.map_some]
    · exact List.mem_map.mpr ⟨t.1, hmem, if_pos rfl⟩
    · exact Nat.lt_of_lt_of_le (show p < p + n by omega) hb.2

/-- A primary sub-heap as `RtlCreateHeap` makes it by default. -/
def sampleSubHeap : SubHeap := ⟨0x110000, 0x110000, 0x10000, heapSize⟩

def sampleFlags : HeapFlags := ⟨true, false, false, false, false⟩

def sampleHeap : Heap :=
  (newHeap sampleSubHeap sampleFlags fun _ => 0).createFreeBlock sampleSubHeap sampleSubHeap.first
    (sampleSubHeap.size - heapSize)

theorem tiled_sampleHeap :
    Tiled sampleHeap [(sampleSubHeap, [.free (sampleSubHeap.size - heapSize)])] :=
  tiled_initHeap ⟨by decide, by decide, by decide, by decide, by decide⟩ rfl (by decide)

theorem findFreeBlock_complete_sample :
    ∃ s p h', sampleHeap.findFreeBlock ⟨true, none, false, false⟩ (roundedSize 100) =
      some (s, p, h') ∧ s ∈ h'.subheaps := by
  obtain ⟨s, p, h', hfind, -, hmem, -⟩ :=
    (findFreeBlock_complete (e := ⟨true, none, false, false⟩) 100 tiled_sampleHeap rfl).1
      ⟨_, _, ⟨_, List.mem_cons_self, List.mem_cons_self⟩, by decide⟩
  exact ⟨s, p, h', hfind, hmem⟩

end Wine.Heaps

/-!
## Live blocks

The in-use blocks of a consistent heap pass the validation of the calls that are given them.
-/

namespace Wine.Heaps
open Wine.Lib Reading

variable {h h' : Heap} {ts ts₁ ts₂ : List Tile} {s : SubHeap} {cs xs ys : List Piece}
  {m : Memory} {before : Before} {a p q n k size : ℕ}

theorem Layout.totalOf_aligned (h : Layout m before a cs) : totalOf cs % 8 = 0 := by
  induction cs generalizing before a with
  | nil => rfl
  | cons c cs ih =>
    have hcs := ih h.2
    have hc : c.total % 8 = 0 := by
      cases c with
      | free k => exact h.1.aligned
      | used k => exact h.1.aligned
      | gap k => exact h.1
    rw [totalOf_cons]
    omega

theorem lastBefore_cases (before : Before) (a : ℕ) (xs : List Piece) :
    xs = [] ∨ ∃ xs' c, xs = xs' ++ [c] ∧ lastBefore before a xs = c.before (a + totalOf xs') := by
  rcases List.eq_nil_or_concat xs with rfl | ⟨xs', c, rfl⟩
  · exact Or.inl rfl
  · rw [List.concat_eq_append]
    exact Or.inr ⟨xs', c, rfl, lastBefore_append⟩

theorem Whole.left (h : Whole (xs ++ ys)) : Whole xs :=
  fun k hk => h k (List.mem_append_left _ hk)

theorem Whole.right (h : Whole (xs ++ ys)) : Whole ys :=
  fun k hk => h k (List.mem_append_right _ hk)

/-- An in-use block is a piece of one of the tiles. -/
theorem UsedIn.split (hp : UsedIn ts p n) : ∃ ts₁ s xs ys ts₂,
    ts = ts₁ ++ (s, xs ++ .used n :: ys) :: ts₂ ∧ p = s.first + totalOf xs := by
  obtain ⟨⟨s, cs⟩, ht, hmem⟩ := hp
  obtain ⟨ts₁, ts₂, rfl⟩ := List.append_of_mem ht
  obtain ⟨xs, ys, hcs, rfl⟩ := split_of_mem_usedOf hmem
  simp only at hcs
  subst hcs
  exact ⟨ts₁, s, xs, ys, ts₂, rfl, rfl⟩

/-- An in-use piece is a block in use. -/
theorem usedIn_place (hp : p = s.first + totalOf xs) :
    UsedIn (ts₁ ++ (s, xs ++ .used n :: ys) :: ts₂) p n := by
  refine ⟨_, List.mem_append_right _ List.mem_cons_self, ?_⟩
  rw [usedOf_append, hp]
  exact List.mem_append_right _ List.mem_cons_self

theorem FreeIn.split (hp : FreeIn ts p n) : ∃ ts₁ s xs ys ts₂,
    ts = ts₁ ++ (s, xs ++ .free n :: ys) :: ts₂ ∧ p = s.first + totalOf xs := by
  obtain ⟨⟨s, cs⟩, ht, hmem⟩ := hp
  obtain ⟨ts₁, ts₂, rfl⟩ := List.append_of_mem ht
  obtain ⟨xs, ys, hcs, rfl⟩ := split_of_mem_freesOf hmem
  simp only at hcs
  subst hcs
  exact ⟨ts₁, s, xs, ys, ts₂, rfl, rfl⟩

namespace Arranged

theorem first_aligned (H : Arranged h ts) {t : Tile} (ht : t ∈ ts) : t.1.first % 8 = 0 := by
  have halign := (H.tile t ht).wellFormed.base_aligned
  have h240 : heapSize = 240 := rfl
  have h24 : subheapSize = 24 := rfl
  rw [SubHeap.first]
  rcases H.header ht with ⟨-, hheader⟩ | ⟨hheader, -⟩ <;> omega

/-- What surrounds an in-use block. -/
theorem used_middle (H : Arranged h (ts₁ ++ (s, xs ++ .used n :: ys) :: ts₂))
    (hp : p = s.first + totalOf xs) :
    p + n + totalOf ys = s.limit ∧ s.limit < sizeLimit ∧ 0x10000 ≤ s.base ∧
      Layout h.mem .used s.first xs ∧ UsedAt h.mem (lastBefore .used s.first xs) p n ∧
      Layout h.mem .used (p + n) ys := by
  have hfilled := H.middle.filled
  obtain ⟨hxs, hused, hys⟩ := Layout.append_iff.mp H.middle.layout
  simp only [totalOf_append, totalOf_cons, Piece.total] at hfilled
  have hwf := H.middle.wellFormed
  subst hp
  exact ⟨by omega, hwf.limit_lt, hwf.base_ge, hxs, hused, hys⟩

theorem validateInUseArena (H : Arranged h (ts₁ ++ (s, xs ++ .used n :: ys) :: ts₂))
    (hp : p = s.first + totalOf xs) (hwhole : Whole (xs ++ .used n :: ys)) :
    h.ValidateInUseArena s p := by
  obtain ⟨hfilled, hlimit, hbase, hxs, hused, hys⟩ := H.used_middle hp
  have hfirst := H.first_aligned Arranged.tile_mem
  have hxs8 := hxs.totalOf_aligned
  have hn := hused.le
  have hn8 := hused.aligned
  have hsize : arenaInuseSize + sizeOf (word h.mem p) = n := by
    rw [hused.size, arenaInuseSize]
    omega
  simp only at hfirst
  rw [Heap.ValidateInUseArena, Nat.add_assoc, hsize]
  refine ⟨by omega, by omega, hused.magic, hused.inuse, by omega, ?_, ?_⟩
  · intro hnext
    cases ys with
    | nil =>
      rw [totalOf_nil] at hfilled
      omega
    | cons c ys =>
      cases c with
      | free k =>
        have hfree := hys.1
        have hle := hfree.le
        have haligned := hfree.aligned
        rw [hfree.word, IsPrevFree]
        omega
      | used k => exact hys.1.flagged
      | gap k =>
        exact absurd (List.mem_append_right xs (List.mem_cons_of_mem _ List.mem_cons_self))
          (hwhole k)
  · intro hprev
    have hflag := hused.flagged
    rcases lastBefore_cases .used s.first xs with rfl | ⟨xs', c, rfl, hlast⟩
    · exact absurd hprev hflag
    · rw [hlast] at hflag
      cases c with
      | used k => exact absurd hprev hflag
      | gap k =>
        exact absurd (List.mem_append_left _ (List.mem_append_right xs' List.mem_cons_self))
          (hwhole k)
      | free k =>
        obtain ⟨-, hback⟩ := hflag
        obtain ⟨-, hfree, -⟩ := Layout.append_iff.mp hxs
        have hle := hfree.le
        have hdata := sizeOf_of_freeAt hfree
        rw [totalOf_append, totalOf_cons, totalOf_nil] at hp
        simp only [Piece.total] at hp
        have hb : s.base ≤ s.first := Nat.le_add_right _ _
        have hfind := H.findSubHeap Arranged.tile_mem (p := s.first + totalOf xs')
          (by simp only; omega) (by simp only; omega)
        rw [hback]
        refine ⟨?_, isFree_of_freeAt hfree, hfree.magic, ?_⟩
        · rw [Heap.isValidArenaPtr, hfind]
          exact decide_eq_true (Or.inl (Nat.le_add_right _ _))
        · omega

/-- The sub-heap of an in-use block. -/
theorem findSubHeap_used (H : Arranged h (ts₁ ++ (s, xs ++ .used n :: ys) :: ts₂))
    (hp : p = s.first + totalOf xs) : h.findSubHeap p = some s ∧ s.base ≤ p := by
  obtain ⟨hfilled, -, -, -, hused, -⟩ := H.used_middle hp
  have hn := hused.le
  have hb : s.base ≤ s.first := Nat.le_add_right _ _
  exact ⟨H.findSubHeap Arranged.tile_mem (by simp only; omega) (by simp only; omega), by omega⟩

theorem blockSubHeap (H : Arranged h (ts₁ ++ (s, xs ++ .used n :: ys) :: ts₂))
    (hp : p = s.first + totalOf xs) (hwhole : Whole (xs ++ .used n :: ys)) :
    h.blockSubHeap p = some s := by
  rw [Heap.blockSubHeap, (H.findSubHeap_used hp).1]
  exact (Option.filter_some_eq_some.mpr (decide_eq_true (H.validateInUseArena hp hwhole)))

end Arranged

end Wine.Heaps

/-!
## Committed blocks

Every in-use block lies in the committed part of its sub-heap, and so does the header of every free
one. The boundary moves in steps of 64 KB: it is moved up before a block is made in use, and down
behind the header of the last free block.
-/

namespace Wine.Heaps
open Wine.Lib Reading

variable {h h' : Heap} {ts ts₁ ts₂ : List Tile} {s : SubHeap} {xs ys zs cs : List Piece} {c : Piece}
  {m : Memory} {before : Before} {a b b' p q n n' k size : ℕ}

/-- What is needed of the pieces from `a` on lies below `b`. -/
def CoveredFrom (b : ℕ) : ℕ → List Piece → Prop
  | _, [] => True
  | a, .free n :: cs => a + 16 ≤ b ∧ CoveredFrom b (a + n) cs
  | a, .used n :: cs => a + n ≤ b ∧ CoveredFrom b (a + n) cs
  | a, .gap n :: cs => CoveredFrom b (a + n) cs

def SubHeap.committed (s : SubHeap) : ℕ := s.base + s.commitSize

def Covered (ts : List Tile) : Prop := ∀ t ∈ ts, CoveredFrom t.1.committed t.1.first t.2

namespace CoveredFrom

theorem append_iff : CoveredFrom b a (xs ++ ys) ↔
    CoveredFrom b a xs ∧ CoveredFrom b (a + totalOf xs) ys := by
  induction xs generalizing a with
  | nil => simp [CoveredFrom]
  | cons c xs ih => cases c <;> simp [CoveredFrom, ih, and_assoc, Nat.add_assoc, Piece.total]

theorem mono (hb : b ≤ b') (hcs : CoveredFrom b a cs) : CoveredFrom b' a cs := by
  induction cs generalizing a with
  | nil => trivial
  | cons c cs ih =>
    cases c with
    | free n => exact ⟨Nat.le_trans hcs.1 hb, ih hcs.2⟩
    | used n => exact ⟨Nat.le_trans hcs.1 hb, ih hcs.2⟩
    | gap n => exact ih hcs

/-- Pieces that end below `b` are covered. -/
theorem of_totalOf (hcs : Layout m before a cs) (hb : a + totalOf cs ≤ b) : CoveredFrom b a cs := by
  induction cs generalizing before a with
  | nil => trivial
  | cons c cs ih =>
    rw [totalOf_cons, ← Nat.add_assoc] at hb
    cases c with
    | free n =>
      have hn := hcs.1.le
      simp only [Piece.total] at hb
      exact ⟨by omega, ih hcs.2 hb⟩
    | used n =>
      simp only [Piece.total] at hb
      exact ⟨by omega, ih hcs.2 hb⟩
    | gap n => exact ih hcs.2 hb

theorem start_le (hcs : CoveredFrom b a (c :: cs)) (hc : ∀ k, c ≠ .gap k) : a ≤ b := by
  cases c with
  | free n => exact Nat.le_trans (Nat.le_add_right a 16) hcs.1
  | used n => exact Nat.le_trans (Nat.le_add_right a n) hcs.1
  | gap n => exact absurd rfl (hc n)

/-- A free block that takes a gap, or the gap and the free block behind it. -/
theorem fill (hcs : CoveredFrom b a (xs ++ .gap n :: ys)) (hb : a + totalOf xs + 16 ≤ b)
    (hcases : n' = n ∧ zs = ys ∨ ∃ k, ys = .free k :: zs ∧ n' = n + k) :
    CoveredFrom b a (xs ++ .free n' :: zs) := by
  obtain ⟨hxs, hys⟩ := append_iff.mp hcs
  refine append_iff.mpr ⟨hxs, hb, ?_⟩
  rcases hcases with ⟨rfl, rfl⟩ | ⟨k, rfl, rfl⟩
  · exact hys
  · rw [← Nat.add_assoc]
    exact hys.2

end CoveredFrom

/-- What is covered when an arena has been committed with `size` bytes of data. -/
theorem SubHeap.WellFormed.of_commitEnd (hs : s.WellFormed)
    (hfits : p + 8 + size ≤ s.limit) (hend : s.commitEnd p size ≤ s.commitSize) :
    (p + size + 24 ≤ s.committed ∨ s.limit ≤ s.committed) ∧
      (s.limit ≤ p + size + 32 → s.limit ≤ s.committed) := by
  have hlimit := hs.limit_lt
  have hbase := hs.base_ge
  have haligned := hs.size_aligned
  have h8 : arenaInuseSize = 8 := rfl
  have h16 : arenaFreeSize = 16 := rfl
  have hmask : commitMask = 0xffff := rfl
  have h32 : sizeLimit = 0x100000000 := rfl
  rw [SubHeap.limit] at hfits hlimit ⊢
  have hx : (p + arenaInuseSize + size + arenaFreeSize - s.base) % sizeLimit =
      p + 8 + size + 16 - s.base := Nat.mod_eq_of_lt (by omega)
  have hround : (p + 8 + size + 16 - s.base + commitMask) % sizeLimit =
      p + 8 + size + 16 - s.base + 0xffff := Nat.mod_eq_of_lt (by omega)
  rw [SubHeap.commitEnd, hx, roundCommit, hround, Nat.min_def] at hend
  rw [SubHeap.committed]
  split at hend <;> omega

/-- A block that has been put back smaller, or as it was. -/
theorem Shrunk.covered (hS : Shrunk h h' ts₁ ts₂ s xs ys p n n' zs) (hp : p = s.first + totalOf xs)
    (hcov : CoveredFrom b s.first (xs ++ .gap n :: ys)) (hused : p + n' ≤ b)
    (hend : n' ≠ n → p + n' + 16 ≤ b) : CoveredFrom b s.first (xs ++ .used n' :: zs) := by
  obtain ⟨hxs, hys⟩ := CoveredFrom.append_iff.mp hcov
  rw [← hp] at hys
  refine CoveredFrom.append_iff.mpr ⟨hxs, ?_⟩
  rw [← hp]
  refine ⟨hused, ?_⟩
  rcases hS.cases with ⟨rfl, rfl⟩ | ⟨hlt, k, zs', rfl, rfl | ⟨j, rfl⟩, htotal⟩
  · exact hys
  · refine ⟨hend (by omega), ?_⟩
    rw [show p + n' + k = p + n by omega]
    exact hys
  · rw [totalOf_cons, Piece.total] at htotal
    refine ⟨hend (by omega), ?_⟩
    rw [show p + n' + k = p + n + j by omega]
    exact hys.2

/-- The same for a block whose memory has been committed. -/
theorem Shrunk.covered_of_commitEnd (hS : Shrunk h h' ts₁ ts₂ s xs ys p n n' zs)
    (H : Arranged h (ts₁ ++ (s, xs ++ .gap n :: ys) :: ts₂)) (hp : p = s.first + totalOf xs)
    (hys : Whole ys) (hcov : CoveredFrom s.committed s.first (xs ++ .gap n :: ys))
    (hend : s.commitEnd p size ≤ s.commitSize) (haligned : size % 8 = 0) (hfits : size + 8 ≤ n)
    (hlt : n' < size + 40) (hn' : n' = n ∨ n' = size + 8) :
    CoveredFrom s.committed s.first (xs ++ .used n' :: zs) := by
  have hwf : s.WellFormed := H.middle.wellFormed
  have hfilled := H.middle.filled
  simp only [totalOf_append, totalOf_cons, Piece.total] at hfilled
  have hn8 : n % 8 = 0 := (Layout.append_iff.mp H.middle.layout).2.1
  have hin : p + 8 + size ≤ s.limit := by omega
  obtain ⟨hcommit, hlast⟩ := hwf.of_commitEnd hin hend
  have hwhole : n' = n → p + n ≤ s.committed := by
    rintro rfl
    cases ys with
    | nil =>
      rw [totalOf_nil] at hfilled
      have hle := hlast (by omega)
      omega
    | cons c ys =>
      have hrest : CoveredFrom s.committed (s.first + totalOf xs + n') (c :: ys) :=
        (CoveredFrom.append_iff.mp hcov).2
      have hstart := hrest.start_le fun k hk => hys k (by rw [hk]; exact List.mem_cons_self)
      rwa [← hp] at hstart
  apply hS.covered hp hcov
  · rcases hn' with heq | rfl
    · rw [heq]
      exact hwhole heq
    · omega
  · intro hne
    obtain rfl := hn'.resolve_left hne
    rcases hS.cases with ⟨heq, -⟩ | ⟨hsmall, -⟩
    · exact absurd heq hne
    · omega

end Wine.Heaps
