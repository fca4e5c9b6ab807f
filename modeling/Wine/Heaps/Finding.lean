import Wine.Heaps.Live

/-!
# Finding room

The free block that `HEAP_FindFreeBlock` returns is one of the free list, with its memory committed,
or all of a new sub-heap. Blocks in use are where they were, with the contents they had.
-/

namespace Wine.Heaps
open Wine.Lib Reading

variable {h h' h'' : Heap} {ts ts' ts'' ts₁ ts₂ : List Tile} {s : SubHeap}
  {cs cs' xs ys : List Piece} {e : Outcomes} {a c p q n k size : ℕ}

/-- The blocks in use stay where they are, and keep their contents and what they were asked for. -/
structure Preserves (h : Heap) (ts : List Tile) (h' : Heap) (ts' : List Tile) : Prop where
  address : h'.address = h.address
  flags : h'.flags = h.flags
  used : ∀ q k, UsedIn ts q k → UsedIn ts' q k
  data : ∀ q k, UsedIn ts q k → ∀ i, q + 4 ≤ i → i < q + k → h'.mem i = h.mem i

namespace Preserves

theorem refl (h : Heap) (ts : List Tile) : Preserves h ts h ts :=
  ⟨rfl, rfl, fun _ _ hq => hq, fun _ _ _ _ _ _ => rfl⟩

theorem trans (h₁ : Preserves h ts h' ts') (h₂ : Preserves h' ts' h'' ts'') :
    Preserves h ts h'' ts'' where
  address := h₂.address.trans h₁.address
  flags := h₂.flags.trans h₁.flags
  used q k hq := h₂.used q k (h₁.used q k hq)
  data q k hq i hi hi' := (h₂.data q k (h₁.used q k hq) i hi hi').trans (h₁.data q k hq i hi hi')

end Preserves

theorem forall_middle {P : Tile → Prop} : (∀ t ∈ ts₁ ++ (s, cs) :: ts₂, P t) ↔
    P (s, cs) ∧ ∀ t ∈ ts₁ ++ ts₂, P t := by
  simp only [List.mem_append, List.mem_cons]
  constructor
  · intro h
    exact ⟨h _ (.inr (.inl rfl)), fun t ht => h t (ht.imp_right Or.inr)⟩
  · rintro ⟨hmiddle, hrest⟩ t (ht | rfl | ht)
    · exact hrest t (.inl ht)
    · exact hmiddle
    · exact hrest t (.inr ht)

theorem usedIn_middle : UsedIn (ts₁ ++ (s, cs) :: ts₂) q k ↔
    UsedIn (ts₁ ++ ts₂) q k ∨ (q, k) ∈ usedOf s.first cs := by
  simp only [UsedIn, List.mem_append, List.mem_cons]
  constructor
  · rintro ⟨t, ht | rfl | ht, hq⟩
    · exact Or.inl ⟨t, Or.inl ht, hq⟩
    · exact Or.inr hq
    · exact Or.inl ⟨t, Or.inr ht, hq⟩
  · rintro (⟨t, ht | ht, hq⟩ | hq)
    · exact ⟨t, Or.inl ht, hq⟩
    · exact ⟨t, Or.inr (Or.inr ht), hq⟩
    · exact ⟨(s, cs), Or.inr (Or.inl rfl), hq⟩

namespace Arranged

theorem base_lt_limit (H : Arranged h ts) {t : Tile} (ht : t ∈ ts) : t.1.base < t.1.limit := by
  have hfilled := (H.tile t ht).filled
  have h240 : heapSize = 240 := rfl
  have h24 : subheapSize = 24 := rfl
  rw [SubHeap.first] at hfilled
  rcases H.header ht with ⟨-, hheader⟩ | ⟨hheader, -⟩ <;> omega

theorem base_ne (H : Arranged h (ts₁ ++ (s, cs) :: ts₂)) {t : Tile} (ht : t ∈ ts₁ ++ ts₂) :
    t.1.base ≠ s.base := by
  have hapart := H.other_apart ht
  have ht' : t ∈ ts₁ ++ (s, cs) :: ts₂ := mem_middle ht
  have hlt := H.base_lt_limit ht'
  have hlt' : s.base < s.limit := H.base_lt_limit tile_mem
  omega

/-- A committed size is changed. -/
theorem setCommitSize (H : Arranged h (ts₁ ++ (s, cs) :: ts₂)) (hc : c ≤ s.size) :
    Arranged (h.setCommitSize s c) (ts₁ ++ ({ s with commitSize := c }, cs) :: ts₂) where
  subheaps := by
    have hsame : ∀ l : List Tile, (∀ t ∈ l, t ∈ ts₁ ++ ts₂) →
        (l.map Prod.fst).map (fun t => if t.base = s.base then { t with commitSize := c } else t) =
          l.map Prod.fst := by
      intro l hl
      rw [List.map_map]
      exact List.map_congr_left fun t ht => if_neg (H.base_ne (hl t ht))
    simp only [Heap.setCommitSize, H.subheaps, List.map_append, List.map_cons, if_true]
    rw [hsame ts₁ fun t ht => List.mem_append_left _ ht,
      hsame ts₂ fun t ht => List.mem_append_right _ ht]
  primary := H.primary_exchange rfl rfl
  apart := H.apart_exchange rfl rfl
  tile := by
    intro t ht
    rcases List.mem_append.mp ht with ht | ht
    · exact H.tile t (List.mem_append_left _ ht)
    · rcases List.mem_cons.mp ht with rfl | ht
      · have htile := H.middle
        have hwf := htile.wellFormed
        exact ⟨⟨hwf.base_aligned, hwf.base_ge, hwf.size_aligned, hwf.limit_lt, hc⟩, htile.layout,
          htile.filled⟩
      · exact H.tile t (List.mem_append_right _ (List.mem_cons_of_mem _ ht))
  heads := H.heads
  magic := H.magic

end Arranged

namespace Tiled

theorem setCommitSize (H : Tiled h (ts₁ ++ (s, cs) :: ts₂)) (hc : c ≤ s.size) :
    Tiled (h.setCommitSize s c) (ts₁ ++ ({ s with commitSize := c }, cs) :: ts₂) where
  toArranged := H.toArranged.setCommitSize hc
  listed := by
    have hlisted := H.listed
    rw [freesIn_middle] at hlisted ⊢
    exact hlisted
  ordered := H.ordered

theorem setCommitSize_preserves (h : Heap) (ts₁ ts₂ : List Tile) (s : SubHeap) (cs : List Piece)
    (c : ℕ) : Preserves h (ts₁ ++ (s, cs) :: ts₂) (h.setCommitSize s c)
      (ts₁ ++ ({ s with commitSize := c }, cs) :: ts₂) where
  address := rfl
  flags := rfl
  used q k hq := by
    rw [usedIn_middle] at hq ⊢
    exact hq
  data _ _ _ _ _ _ := rfl

end Tiled

theorem commitSize_of_commit {s' : SubHeap} (hcommit : h.commit e s p k = some (s', h')) :
    s.commitSize ≤ s'.commitSize ∧ s.commitEnd p k ≤ s'.commitSize := by
  simp only [Heap.commit] at hcommit
  split at hcommit
  · obtain ⟨rfl, -⟩ := Prod.mk.inj (Option.some.inj hcommit)
    exact ⟨Nat.le_refl _, by omega⟩
  · split at hcommit
    · obtain ⟨rfl, -⟩ := Prod.mk.inj (Option.some.inj hcommit)
      exact ⟨by simp only; omega, Nat.le_refl _⟩
    · cases hcommit

namespace Tiled

/-- Committing fails, or changes a committed size. -/
theorem commit (H : Tiled h (ts₁ ++ (s, cs) :: ts₂)) (e : Outcomes) (p dataSize : ℕ) :
    h.commit e s p dataSize = none ∨ ∃ c h',
      h.commit e s p dataSize = some ({ s with commitSize := c }, h') ∧
      Tiled h' (ts₁ ++ ({ s with commitSize := c }, cs) :: ts₂) ∧
      Preserves h (ts₁ ++ (s, cs) :: ts₂) h' (ts₁ ++ ({ s with commitSize := c }, cs) :: ts₂) ∧
      h'.mem = h.mem := by
  rcases h.commit_cases e s p dataSize with ⟨hno, -⟩ | heq | ⟨c, hc, heq⟩
  · exact Or.inl hno
  · exact Or.inr ⟨s.commitSize, h, heq, H, .refl h _, rfl⟩
  · exact Or.inr ⟨c, _, heq, H.setCommitSize hc, setCommitSize_preserves h ts₁ ts₂ s cs c, rfl⟩

end Tiled

/-- How large a new sub-heap is that is made for `size` bytes. -/
def newTotalSize (size : ℕ) : ℕ :=
  let size := (size + subheapSize + arenaInuseSize + arenaFreeSize) % sizeLimit
  max (roundCommit (max heapDefSize size)) (roundedCommitSize size)

theorem newTotalSize_aligned (size : ℕ) : newTotalSize size % 0x10000 = 0 := by
  have hround : ∀ x, roundCommit x % 0x10000 = 0 := fun x => Nat.mul_mod_left _ _
  have hcommit : ∀ x, roundedCommitSize x % 0x10000 = 0 := by
    intro x
    rw [roundedCommitSize]
    split
    · rfl
    · exact hround x
  rw [newTotalSize, Nat.max_def]
  split
  · exact hcommit _
  · exact hround _

theorem le_roundedCommitSize (x : ℕ) : roundCommit x ≤ roundedCommitSize x ∧
    0x10000 ≤ roundedCommitSize x := by
  rw [roundedCommitSize]
  split
  · next h0 => exact ⟨by omega, Nat.le_refl _⟩
  · next hne =>
    refine ⟨Nat.le_refl _, ?_⟩
    rw [roundCommit] at hne ⊢
    omega

theorem le_newTotalSize (size : ℕ) : 0x10000 ≤ newTotalSize size := by
  exact Nat.le_trans (le_roundedCommitSize _).2 (Nat.le_max_right _ _)

namespace Tiled

/-- A new sub-heap with nothing in it. -/
theorem linkSubHeap {t : Tile} (H : Tiled h (t :: ts)) (hfresh : Fresh h s.base s.size)
    (hheader : s.headerSize = subheapSize) (hsize : 0x10000 ≤ s.size)
    (haligned : s.size % 0x10000 = 0) (hcommit : s.commitSize ≤ s.size) :
    Tiled (h.linkSubHeap s) ([t] ++ (s, [] ++ .gap (s.size - subheapSize) :: []) :: ts) ∧
      Preserves h (t :: ts) (h.linkSubHeap s)
        ([t] ++ (s, [] ++ .gap (s.size - subheapSize) :: []) :: ts) := by
  have h24 : subheapSize = 24 := rfl
  have hlimit : s.limit = s.base + s.size := rfl
  have hout : ∀ i, i < s.base ∨ s.limit ≤ i → (h.linkSubHeap s).mem i = h.mem i := by
    intro i hi
    exact if_neg (by omega)
  have hapart : ∀ t' ∈ t :: ts, t'.1.limit ≤ s.base ∨ s.limit ≤ t'.1.base :=
    fun t' ht' => hfresh.apart t'.1 (H.subheap_mem ht')
  have hsubheaps : (h.linkSubHeap s).subheaps = t.1 :: s :: ts.map Prod.fst := by
    simp only [Heap.linkSubHeap, H.subheaps, List.map_cons, List.take_succ_cons, List.take_zero,
      List.drop_succ_cons, List.drop_zero, List.cons_append, List.nil_append]
  have hheads : ∀ i < heapNbFreeLists, ∀ a, h.freeListHead i ≤ a → a + 4 ≤ h.freeListHead i + 16 →
      word (h.linkSubHeap s).mem a = word h.mem a := by
    intro i hi a ha ha'
    obtain ⟨t₀, ts', hts, hbase, hheader₀, hrest⟩ := H.primary
    obtain ⟨rfl, rfl⟩ := List.cons.inj hts
    have hap := hapart t List.mem_cons_self
    have hin := (H.tile t List.mem_cons_self).filled
    have h240 : heapSize = 240 := rfl
    have h11 : heapNbFreeLists = 11 := rfl
    rw [SubHeap.first, hbase, hheader₀] at hin
    rw [hbase] at hap
    refine word_congr fun j hj hj' => hout j ?_
    simp only [Heap.freeListHead, freeListOffset, arenaFreeSize] at ha ha'
    omega
  have A : Arranged (h.linkSubHeap s)
      ([t] ++ (s, [] ++ .gap (s.size - subheapSize) :: []) :: ts) := by
    refine ⟨hsubheaps, ?_, ?_, ?_, ?_, ?_⟩
    · obtain ⟨t₀, ts', hts, hbase, hheader₀, hrest⟩ := H.primary
      obtain ⟨rfl, rfl⟩ := List.cons.inj hts
      refine ⟨t, _, rfl, hbase, hheader₀, List.forall_mem_cons.mpr ⟨hheader, hrest⟩⟩
    · obtain ⟨hhead, htail⟩ := List.pairwise_cons.mp H.apart
      refine List.pairwise_cons.mpr ⟨?_, List.pairwise_cons.mpr ⟨?_, htail⟩⟩
      · exact List.forall_mem_cons.mpr ⟨hapart t List.mem_cons_self, hhead⟩
      · exact fun t' ht' => (hapart t' (List.mem_cons_of_mem _ ht')).symm
    · have hold : ∀ t' ∈ t :: ts, TileAt (h.linkSubHeap s).mem t' := by
        intro t' ht'
        have htile := H.tile t' ht'
        have hfirst : t'.1.base ≤ t'.1.first := Nat.le_add_right _ _
        have hap := hapart t' ht'
        refine ⟨htile.wellFormed, htile.layout.congr ?_ (fun q hq => by cases hq), htile.filled⟩
        intro i hi hi'
        rw [htile.filled] at hi'
        exact hout i (by omega)
      have hnew : TileAt (h.linkSubHeap s).mem (s, [] ++ .gap (s.size - subheapSize) :: []) := by
        refine ⟨⟨hfresh.aligned, hfresh.ge, haligned, hfresh.lt, hcommit⟩, ⟨?_, trivial⟩, ?_⟩
        · change (s.size - subheapSize) % 8 = 0
          omega
        · simp only [List.nil_append, totalOf_cons, totalOf_nil, Piece.total, SubHeap.first, hheader,
            hlimit]
          omega
      refine List.forall_mem_cons.mpr ⟨hold t List.mem_cons_self, ?_⟩
      exact List.forall_mem_cons.mpr ⟨hnew, fun t' ht' => hold t' (List.mem_cons_of_mem _ ht')⟩
    · exact fun i hi => (hheads i hi _ (Nat.le_refl _) (by omega)).trans (H.heads i hi)
    · exact fun i hi => (hheads i hi _ (Nat.le_add_right _ _) (by omega)).trans (H.magic i hi)
  have hfrees : freesIn ([t] ++ (s, [] ++ .gap (s.size - subheapSize) :: []) :: ts) =
      freesIn (t :: ts) := by
    simp [freesIn, freesOf]
  refine ⟨⟨A, ?_, ?_⟩, rfl, rfl, ?_, ?_⟩
  · rw [hfrees]
    exact H.listed
  · refine H.ordered.congr fun q hq => H.nodeKey_eq A rfl ?_ hq
    rintro q k ⟨t', ht', hq⟩
    rcases List.mem_cons.mp ht' with rfl | ht'
    · exact ⟨t', List.mem_cons_self, hq⟩
    · exact ⟨t', List.mem_cons_of_mem _ (List.mem_cons_of_mem _ ht'), hq⟩
  · rintro q k ⟨t', ht', hq⟩
    rcases List.mem_cons.mp ht' with rfl | ht'
    · exact ⟨t', List.mem_cons_self, hq⟩
    · exact ⟨t', List.mem_cons_of_mem _ (List.mem_cons_of_mem _ ht'), hq⟩
  · rintro q k ⟨t', ht', hq⟩ i hi hi'
    have hb := H.used_bounds ht' hq
    have hfirst : t'.1.base ≤ t'.1.first := Nat.le_add_right _ _
    have hap := hapart t' ht'
    exact hout i (by omega)

/-- A free block that takes a gap, or the gap and a free block behind it, preserves the blocks in
use. -/
theorem createFreeBlock_preserves {n' : ℕ} {zs : List Piece}
    (H : Arranged h (ts₁ ++ (s, xs ++ .gap n :: ys) :: ts₂)) (hp : p = s.first + totalOf xs)
    (hcases : n' = n ∧ zs = ys ∨ ∃ k, ys = .free k :: zs ∧ n' = n + k)
    (hframe : ∀ i, i < p ∨ p + n' + 4 ≤ i ∨ s.limit ≤ i →
      (h.createFreeBlock s p n).mem i = h.mem i) :
    Preserves h (ts₁ ++ (s, xs ++ .gap n :: ys) :: ts₂) (h.createFreeBlock s p n)
      (ts₁ ++ (s, xs ++ .free n' :: zs) :: ts₂) := by
  have hb := createFreeBlock_beside h s p n
  have husedOf : usedOf s.first (xs ++ .free n' :: zs) = usedOf s.first (xs ++ .gap n :: ys) := by
    rcases hcases with ⟨rfl, rfl⟩ | ⟨k, rfl, rfl⟩
    · simp only [usedOf_append, usedOf]
    · simp only [usedOf_append, usedOf, Nat.add_assoc]
  refine ⟨hb.address, hb.flags, ?_, ?_⟩
  · intro q k hq
    rw [usedIn_middle, husedOf, ← usedIn_middle]
    exact hq
  · intro q k hq i hi hi'
    rcases usedIn_middle.mp hq with ⟨t, ht, hq⟩ | hq
    · have ht' : t ∈ ts₁ ++ (s, xs ++ .gap n :: ys) :: ts₂ := mem_middle ht
      have hbq := H.used_bounds ht' hq
      have hap := H.other_apart ht
      have hfirst : t.1.base ≤ t.1.first := Nat.le_add_right _ _
      have hfirst' : s.base ≤ s.first := Nat.le_add_right _ _
      exact hframe i (by omega)
    · rw [← husedOf, usedOf_append, List.mem_append] at hq
      rcases hq with hq | hq
      · have hbq := usedOf_bounds hq
        exact hframe i (by omega)
      · have hq' : (q, k) ∈ usedOf (s.first + totalOf xs + n') zs := hq
        have hbq := usedOf_bounds hq'
        exact hframe i (by omega)

/-- All of a new sub-heap is one free block. -/
theorem createSubHeap (H : Tiled h ts) (hwhole : ∀ t ∈ ts, Whole t.2)
    (hfresh : ∀ a, e.reserve = some a → Fresh h a (newTotalSize size)) :
    h.createSubHeap e ((size + subheapSize + arenaInuseSize + arenaFreeSize) % sizeLimit)
        (max heapDefSize ((size + subheapSize + arenaInuseSize + arenaFreeSize) % sizeLimit)) = none ∨
      ∃ s h' ts₁ ts₂,
        h.createSubHeap e ((size + subheapSize + arenaInuseSize + arenaFreeSize) % sizeLimit)
          (max heapDefSize ((size + subheapSize + arenaInuseSize + arenaFreeSize) % sizeLimit)) =
          some (s, h') ∧
        s.first = s.base + subheapSize ∧
        Tiled h' (ts₁ ++ (s, [] ++ .free (newTotalSize size - subheapSize) :: []) :: ts₂) ∧
        Preserves h ts h' (ts₁ ++ (s, [] ++ .free (newTotalSize size - subheapSize) :: []) :: ts₂) ∧
        (∀ t ∈ ts₁ ++ ts₂, Whole t.2 ∧ t ∈ ts) ∧
        roundedCommitSize ((size + subheapSize + arenaInuseSize + arenaFreeSize) % sizeLimit) ≤
          s.commitSize := by
  have h24 : subheapSize = 24 := rfl
  have htotal := le_newTotalSize size
  cases hr : e.reserve with
  | none =>
    left
    simp only [Heap.createSubHeap, hr]
  | some a =>
    cases hc : e.commitNew with
    | false =>
      left
      simp [Heap.createSubHeap, hr, hc]
    | true =>
      obtain ⟨c, hcommit, hround, hcreate⟩ : ∃ c ≤ newTotalSize size,
          roundedCommitSize ((size + subheapSize + arenaInuseSize + arenaFreeSize) % sizeLimit) ≤ c ∧
          h.createSubHeap e
          ((size + subheapSize + arenaInuseSize + arenaFreeSize) % sizeLimit)
          (max heapDefSize ((size + subheapSize + arenaInuseSize + arenaFreeSize) % sizeLimit)) =
          some (⟨a, newTotalSize size, c, subheapSize⟩,
            (h.linkSubHeap ⟨a, newTotalSize size, c, subheapSize⟩).createFreeBlock
              ⟨a, newTotalSize size, c, subheapSize⟩ (a + subheapSize)
              (newTotalSize size - subheapSize)) := by
        simp only [Heap.createSubHeap, hr, hc, if_true]
        refine ⟨_, ?_, ?_, rfl⟩
        · split
          · exact Nat.le_refl _
          · exact Nat.le_max_right _ _
        · split
          · exact Nat.le_max_right _ _
          · exact Nat.le_refl _
      obtain ⟨t, ts', rfl, -⟩ := H.primary
      obtain ⟨hlink, hpres⟩ := H.linkSubHeap (s := ⟨a, newTotalSize size, c, subheapSize⟩)
        (hfresh a hr) rfl htotal (newTotalSize_aligned size) hcommit
      obtain ⟨n', zs, hT, hcases, -, hframe⟩ := hlink.createFreeBlock (p := a + subheapSize)
        (Nat.add_zero _).symm (show 24 ≤ newTotalSize size - subheapSize by omega)
        (fun q hq => by cases hq) (fun k hk => by cases hk)
      have hpres' := createFreeBlock_preserves hlink.toArranged (p := a + subheapSize)
        (Nat.add_zero _).symm hcases hframe
      rcases hcases with ⟨rfl, rfl⟩ | ⟨k, hk, -⟩
      · exact Or.inr ⟨_, _, [t], ts', hcreate, rfl, hT, hpres.trans hpres',
          fun t' ht' => ⟨hwhole t' ht', ht'⟩, hround⟩
      · cases hk

theorem split_of_search (H : Tiled h ts) (hsize : 16 ≤ size)
    (hp : h.searchFreeList size = some p) : ∃ ts₁ s xs n ys ts₂,
      ts = ts₁ ++ (s, xs ++ .free n :: ys) :: ts₂ ∧ p = s.first + totalOf xs ∧ size + 8 ≤ n ∧
      h.findSubHeap p = some s := by
  obtain ⟨-, n, hn, hfits⟩ := H.of_searchFreeList hsize hp
  obtain ⟨_, hfree⟩ := H.freeAt hn
  have hle := hfree.le
  obtain ⟨ts₁, s, xs, ys, ts₂, rfl, rfl⟩ := hn.split
  have hfilled := H.middle.filled
  simp only [totalOf_append, totalOf_cons, Piece.total] at hfilled
  have hb : s.base ≤ s.first := Nat.le_add_right _ _
  exact ⟨ts₁, s, xs, n, ys, ts₂, rfl, rfl, by omega,
    H.findSubHeap Arranged.tile_mem (by simp only; omega) (by simp only; omega)⟩

end Tiled

theorem covered_setCommitSize (hc : s.commitSize ≤ c)
    (hcov : Covered (ts₁ ++ (s, cs) :: ts₂)) :
    Covered (ts₁ ++ ({ s with commitSize := c }, cs) :: ts₂) := by
  obtain ⟨hmiddle, hrest⟩ := forall_middle.mp hcov
  exact forall_middle.mpr ⟨hmiddle.mono (Nat.add_le_add_left hc s.base), hrest⟩

/-- The header of the one block of a new sub-heap is committed, and so is what the search is for. -/
theorem new_covered (hs : s.first = s.base + subheapSize)
    (hround : roundedCommitSize ((size + subheapSize + arenaInuseSize + arenaFreeSize) % sizeLimit) ≤
      s.commitSize) : CoveredFrom s.committed s.first ([] ++ .free n :: []) := by
  have hle := (le_roundedCommitSize
    ((size + subheapSize + arenaInuseSize + arenaFreeSize) % sizeLimit)).2
  have h24 : subheapSize = 24 := rfl
  refine ⟨?_, trivial⟩
  rw [SubHeap.committed]
  omega

theorem new_committed
    (hround : roundedCommitSize ((size + subheapSize + arenaInuseSize + arenaFreeSize) % sizeLimit) ≤
      s.commitSize) : s.commitEnd (s.base + subheapSize) size ≤ s.commitSize := by
  have hle := (le_roundedCommitSize
    ((size + subheapSize + arenaInuseSize + arenaFreeSize) % sizeLimit)).1
  have hx : s.base + subheapSize + arenaInuseSize + size + arenaFreeSize - s.base =
      size + subheapSize + arenaInuseSize + arenaFreeSize := by omega
  rw [SubHeap.commitEnd, hx]
  exact Nat.le_trans (Nat.min_le_left _ _) (Nat.le_trans hle hround)

/-- The outcome of a search for `size` bytes: the free block at `p` is large enough, or it is all of
a new sub-heap. -/
structure Found (h : Heap) (ts : List Tile) (e : Outcomes) (size : ℕ) (h' : Heap)
    (ts₁ : List Tile) (s : SubHeap) (xs : List Piece) (n : ℕ) (ys : List Piece) (ts₂ : List Tile)
    (p : ℕ) : Prop where
  tiled : Tiled h' (ts₁ ++ (s, xs ++ .free n :: ys) :: ts₂)
  place : p = s.first + totalOf xs
  preserves : Preserves h ts h' (ts₁ ++ (s, xs ++ .free n :: ys) :: ts₂)
  whole : ∀ t ∈ ts₁ ++ (s, xs ++ .free n :: ys) :: ts₂, Whole t.2
  room : size + 8 ≤ n ∨ h.flags.growable = true ∧ n = newTotalSize size - subheapSize
  covered : Covered ts → Covered (ts₁ ++ (s, xs ++ .free n :: ys) :: ts₂)
  committed : s.commitEnd p size ≤ s.commitSize

namespace Tiled

theorem findFreeBlock (H : Tiled h ts) (hwhole : ∀ t ∈ ts, Whole t.2) (hsize : 16 ≤ size)
    (hfresh : ∀ a, e.reserve = some a → Fresh h a (newTotalSize size)) :
    h.findFreeBlock e size = none ∨ ∃ s p h' ts₁ xs n ys ts₂,
      h.findFreeBlock e size = some (s, p, h') ∧ Found h ts e size h' ts₁ s xs n ys ts₂ p := by
  cases hsearch : h.searchFreeList size with
  | some p =>
    obtain ⟨ts₁, s, xs, n, ys, ts₂, rfl, hp, hfits, hsub⟩ := H.split_of_search hsize hsearch
    rcases H.commit e p size with hno | ⟨c, h', heq, hT, hpres, -⟩
    · left
      simp only [Heap.findFreeBlock, hsearch, hsub, hno, Option.map_none]
    · refine Or.inr ⟨_, p, h', ts₁, xs, n, ys, ts₂, ?_, hT, hp, hpres, ?_, Or.inl hfits, ?_, ?_⟩
      · simp only [Heap.findFreeBlock, hsearch, hsub, heq, Option.map_some]
      · obtain ⟨hmiddle, hrest⟩ := forall_middle.mp hwhole
        exact forall_middle.mpr ⟨hmiddle, hrest⟩
      · exact (covered_setCommitSize (commitSize_of_commit heq).1)
      · exact (commitSize_of_commit heq).2
  | none =>
    cases hgrow : h.flags.growable with
    | false =>
      left
      simp [Heap.findFreeBlock, hsearch, hgrow]
    | true =>
      rcases H.createSubHeap hwhole hfresh with
        hno | ⟨s, h', ts₁, ts₂, heq, hs, hT, hpres, hrest, hround⟩
      · left
        simp only [Heap.findFreeBlock, hsearch, hgrow, if_true, hno, Option.map_none]
      · refine Or.inr ⟨s, s.base + subheapSize, h', ts₁, [], _, [], ts₂, ?_, hT, ?_, hpres, ?_,
          Or.inr ⟨hgrow, rfl⟩, ?_, ?_⟩
        · simp only [Heap.findFreeBlock, hsearch, hgrow, if_true, heq, Option.map_some]
        · exact hs.symm
        · refine forall_middle.mpr ⟨fun k hk => ?_, fun t ht => (hrest t ht).1⟩
          rcases List.mem_cons.mp hk with hk | hk <;> cases hk
        · exact fun hcov =>
            forall_middle.mpr ⟨new_covered hs hround, fun t ht => hcov t (hrest t ht).2⟩
        · exact new_committed hround

end Tiled

end Wine.Heaps
