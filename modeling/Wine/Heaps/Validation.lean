import Wine.Heaps.Runs

/-!
# Validation

`HEAP_IsRealArena` walks through all arenas and tests each. In a consistent heap all tests pass, and
the heap stays consistent while its callers and the system keep to what they promise.
-/

namespace Wine.Heaps
open Wine.Lib Reading

namespace Heap

variable (h : Heap)

/-- What `entry.next` and `entry.prev` of an element of the free list point to. -/
def nextEntry (p : ℕ) : ℕ := (nodesAfter p h.freeList ++ h.freeList).headD 0
def prevEntry (p : ℕ) : ℕ := (nodesAfter p h.freeList.reverse ++ h.freeList.reverse).headD 0

/-- An element of the free list that another one points to. -/
def ValidEntry (p : ℕ) : Prop :=
  h.isValidArenaPtr p = true ∧ IsFree (word h.mem p) ∧ word h.mem (p + 4) = arenaFreeMagic

instance (p : ℕ) : Decidable (h.ValidEntry p) := inferInstanceAs (Decidable (_ ∧ _))

/-- `HEAP_ValidateFreeArena` -/
def ValidateFreeArena (s : SubHeap) (p : ℕ) : Prop :=
  p % 8 = 0 ∧ word h.mem (p + 4) = arenaFreeMagic ∧ IsFree (word h.mem p) ∧
    ¬ IsPrevFree (word h.mem p) ∧ p + arenaFreeSize + sizeOf (word h.mem p) ≤ s.limit ∧
    h.ValidEntry (h.nextEntry p) ∧ h.ValidEntry (h.prevEntry p) ∧
    (p + arenaFreeSize + sizeOf (word h.mem p) < s.limit →
      IsPrevFree (word h.mem (p + arenaFreeSize + sizeOf (word h.mem p))) ∧
        word h.mem (p + arenaFreeSize + sizeOf (word h.mem p) - 4) = p)

instance (s : SubHeap) (p : ℕ) : Decidable (h.ValidateFreeArena s p) :=
  inferInstanceAs (Decidable (_ ∧ _))

/-- The walk of `HEAP_IsRealArena` through a sub-heap, from the arena at `ptr` on. -/
def validArenas (s : SubHeap) (ptr : ℕ) : Bool :=
  if ptr < s.limit then
    if IsFree (word h.mem ptr) then
      decide (h.ValidateFreeArena s ptr) &&
        validArenas s (ptr + (arenaFreeSize + sizeOf (word h.mem ptr)))
    else
      decide (h.ValidateInUseArena s ptr) &&
        validArenas s (ptr + (arenaInuseSize + sizeOf (word h.mem ptr)))
  else true
termination_by s.limit - ptr
decreasing_by
  all_goals simp only [arenaFreeSize, arenaInuseSize]; omega

/-- `HEAP_IsRealArena` without a block -/
def isRealArena : Bool := h.subheaps.all fun s => h.validArenas s s.first

end Heap

variable {h : Heap} {ts ts₁ ts₂ : List Tile} {s : SubHeap} {xs ys : List Piece} {n p : ℕ}

namespace Tiled

theorem validEntry (H : Tiled h ts) (hp : p ∈ h.freeList) : h.ValidEntry p := by
  rcases H.mem_freeList.mp hp with hp | ⟨n, hn⟩
  · obtain ⟨i, hi, rfl⟩ := Heap.mem_heads.mp hp
    refine ⟨?_, ?_, H.magic i hi⟩
    · obtain ⟨t, ts', rfl, hbase, hheader, -⟩ := H.primary
      have hfilled := (H.tile t List.mem_cons_self).filled
      have h240 : heapSize = 240 := rfl
      have h11 : heapNbFreeLists = 11 := rfl
      have hi' : h.freeListHead i = h.address + 56 + 16 * i := rfl
      rw [SubHeap.first, hheader, hbase] at hfilled
      have hfind := H.findSubHeap List.mem_cons_self (p := h.freeListHead i) (by omega) (by omega)
      rw [Heap.isValidArenaPtr, hfind]
      exact decide_eq_true (.inr ⟨hbase, hp⟩)
    · rw [H.heads i hi]
      rfl
  · obtain ⟨before, hfree⟩ := H.freeAt hn
    refine ⟨?_, isFree_of_freeAt hfree, hfree.magic⟩
    obtain ⟨t, ht, hmem⟩ := hn
    have hb := H.free_bounds ht hmem
    have hle := hfree.le
    have hfirst : t.1.base ≤ t.1.first := Nat.le_add_right _ _
    have hfind := H.findSubHeap ht (p := p) (by omega) (by omega)
    rw [Heap.isValidArenaPtr, hfind]
    exact decide_eq_true (.inl hb.1)

theorem headD_mem {α : Type} {l l' : List α} {a : α} (hl : l' ≠ []) (hsub : ∀ x ∈ l, x ∈ l') :
    (l ++ l').headD a ∈ l' := by
  cases l with
  | nil =>
    obtain ⟨x, l', rfl⟩ := List.exists_cons_of_ne_nil hl
    exact List.mem_cons_self
  | cons x l => exact hsub x List.mem_cons_self

theorem validateFreeArena (H : Tiled h (ts₁ ++ (s, xs ++ .free n :: ys) :: ts₂))
    (hwhole : Whole (xs ++ .free n :: ys)) (hp : p = s.first + totalOf xs) :
    h.ValidateFreeArena s p := by
  have hne : h.freeList ≠ [] := List.ne_nil_of_mem (H.head_mem (show 0 < heapNbFreeLists by decide))
  have hnext : h.nextEntry p ∈ h.freeList := headD_mem hne fun x hx => mem_of_mem_nodesAfter hx
  have hprev : h.prevEntry p ∈ h.freeList :=
    List.mem_reverse.mp (headD_mem (by simpa using hne) fun x hx => mem_of_mem_nodesAfter hx)
  have hfilled := H.middle.filled
  obtain ⟨hxs, hfree, hys⟩ := Layout.append_iff.mp H.middle.layout
  rw [← hp] at hfree hys
  simp only [totalOf_append, totalOf_cons, Piece.total] at hfilled
  have hn := hfree.le
  have hn8 := hfree.aligned
  have hfirst := H.first_aligned Arranged.tile_mem
  have hxs8 := hxs.totalOf_aligned
  have hdata := sizeOf_of_freeAt hfree
  have hsize : arenaFreeSize + sizeOf (word h.mem p) = n := by omega
  simp only at hfirst
  rw [Heap.ValidateFreeArena, Nat.add_assoc, hsize]
  refine ⟨by omega, hfree.magic, isFree_of_freeAt hfree, ?_, by omega, H.validEntry hnext,
    H.validEntry hprev, ?_⟩
  · rw [hfree.word, IsPrevFree]
    omega
  · intro hmore
    rcases settled_of_free hys (Whole.tail (Whole.right hwhole)) with rfl | ⟨k, zs, rfl⟩
    · rw [totalOf_nil] at hfilled
      omega
    · exact hys.1.flagged

theorem validArenas (H : Tiled h (ts₁ ++ (s, xs ++ ys) :: ts₂)) (hwhole : Whole (xs ++ ys)) :
    h.validArenas s (s.first + totalOf xs) = true := by
  induction ys generalizing xs with
  | nil =>
    have hfilled := H.middle.filled
    simp only [totalOf_append, totalOf_nil] at hfilled
    rw [Heap.validArenas, if_neg (by omega)]
  | cons c ys ih =>
    have hrest : h.validArenas s (s.first + totalOf (xs ++ [c])) = true :=
      ih (by rwa [← List.append_cons]) (by rwa [← List.append_cons])
    rw [totalOf_append, totalOf_cons, totalOf_nil, Nat.add_zero, ← Nat.add_assoc] at hrest
    have hfilled := H.middle.filled
    obtain ⟨hxs, hc, -⟩ := Layout.append_iff.mp H.middle.layout
    simp only [totalOf_append, totalOf_cons] at hfilled
    cases c with
    | gap k => exact absurd (List.mem_append_right xs List.mem_cons_self) (hwhole k)
    | free n =>
      have hn := hc.le
      have hdata : sizeOf (word h.mem (s.first + totalOf xs)) + arenaFreeSize = n :=
        sizeOf_of_freeAt hc
      have hvalid := H.validateFreeArena hwhole rfl
      simp only [Piece.total] at hfilled hrest
      rw [Heap.validArenas, if_pos (by omega), if_pos (isFree_of_freeAt hc), decide_eq_true hvalid,
        Bool.true_and, show arenaFreeSize + sizeOf (word h.mem (s.first + totalOf xs)) = n by omega]
      exact hrest
    | used n =>
      have hn := hc.le
      have hdata : sizeOf (word h.mem (s.first + totalOf xs)) = n - 8 := hc.size
      have h8 : arenaInuseSize = 8 := rfl
      have hvalid := H.validateInUseArena rfl hwhole
      simp only [Piece.total] at hfilled hrest
      rw [Heap.validArenas, if_pos (by omega), if_neg hc.inuse, decide_eq_true hvalid,
        Bool.true_and, show arenaInuseSize + sizeOf (word h.mem (s.first + totalOf xs)) = n by omega]
      exact hrest

/-- Every arena of a consistent heap passes. -/
theorem isRealArena (H : Tiled h ts) (hwhole : ∀ t ∈ ts, Whole t.2) : h.isRealArena = true := by
  rw [Heap.isRealArena, H.subheaps, List.all_eq_true]
  intro s hs
  obtain ⟨⟨s', cs⟩, ht, rfl⟩ := List.mem_map.mp hs
  have hcs := hwhole _ ht
  obtain ⟨ts₁, ts₂, rfl⟩ := List.append_of_mem ht
  have H' : Tiled h (ts₁ ++ (s', [] ++ cs) :: ts₂) := H
  exact H'.validArenas hcs

end Tiled

/-! ### Runs from the creation of a heap -/

/-- A new heap is consistent when the memory that it gets lies above 64 KB and ends below the limit;
what is needed of it is committed. -/
theorem rtlCreateHeap_spec {e : Outcomes} {flags : HeapFlags} {addr totalSize commitSize : ℕ}
    {m : Memory} (hcreate : rtlCreateHeap e flags addr totalSize commitSize m = some h)
    (haligned : h.address % 8 = 0) (hbase : 0x10000 ≤ h.address)
    (hlimit : ∀ s ∈ h.subheaps, s.limit < sizeLimit) :
    ∃ ts, Tiled h ts ∧ (∀ t ∈ ts, Whole t.2) ∧ Covered ts := by
  have hround : ∀ x, roundCommit x % 0x10000 = 0 := fun x => Nat.mul_mod_left _ _
  have hcommit : roundedCommitSize commitSize % 0x10000 = 0 ∧
      0x10000 ≤ roundedCommitSize commitSize := by
    refine ⟨?_, (le_roundedCommitSize commitSize).2⟩
    rw [roundedCommitSize]
    split
    · rfl
    · exact hround commitSize
  simp only [rtlCreateHeap] at hcreate
  generalize (if totalSize = 0 then { flags with growable := true } else flags) = flags at hcreate
  generalize (if totalSize = 0 then heapDefSize else totalSize) = total at hcreate
  split at hcreate
  · cases hcreate
  · next a _ =>
    split at hcreate
    · obtain rfl := Option.some.inj hcreate
      obtain ⟨c, hc, hc', hinit⟩ : ∃ c ≤ max (roundCommit total) (roundedCommitSize commitSize),
          0x10000 ≤ c ∧ initHeap a (max (roundCommit total) (roundedCommitSize commitSize))
            (roundedCommitSize commitSize) flags m =
          (newHeap ⟨a, max (roundCommit total) (roundedCommitSize commitSize), c, heapSize⟩ flags
            m).createFreeBlock
            ⟨a, max (roundCommit total) (roundedCommitSize commitSize), c, heapSize⟩ (a + heapSize)
            (max (roundCommit total) (roundedCommitSize commitSize) - heapSize) := by
        refine ⟨_, ?_, ?_, rfl⟩
        · split
          · exact Nat.le_refl _
          · exact Nat.le_max_right _ _
        · split
          · exact Nat.le_trans hcommit.2 (Nat.le_max_right _ _)
          · exact hcommit.2
      rw [hinit] at haligned hbase hlimit ⊢
      have hb := createFreeBlock_beside
        (newHeap ⟨a, max (roundCommit total) (roundedCommitSize commitSize), c, heapSize⟩ flags m)
        ⟨a, max (roundCommit total) (roundedCommitSize commitSize), c, heapSize⟩ (a + heapSize)
        (max (roundCommit total) (roundedCommitSize commitSize) - heapSize)
      rw [hb.address] at haligned hbase
      rw [hb.subheaps] at hlimit
      have hmax : max (roundCommit total) (roundedCommitSize commitSize) % 0x10000 = 0 := by
        rw [Nat.max_def]
        split
        · exact hcommit.1
        · exact hround total
      refine ⟨_, tiled_initHeap ⟨haligned, hbase, hmax, hlimit _ List.mem_cons_self, hc⟩ rfl
        (Nat.le_trans hcommit.2 (Nat.le_max_right _ _)), ?_, ?_⟩
      · intro t ht k hk
        rw [List.mem_singleton.mp ht] at hk
        simp at hk
      · intro t ht
        rw [List.mem_singleton.mp ht]
        refine ⟨?_, trivial⟩
        change a + heapSize + 16 ≤ a + c
        have h240 : heapSize = 240 := rfl
        omega
    · cases hcreate

/-- For every run of allocations, reallocations, frees and writes on a heap that `RtlCreateHeap` has
made, with sizes below 2 GB and memory that can be committed: the heap is consistent in every state,
`HEAP_IsRealArena` finds nothing to complain about, and the next call is answered. -/
theorem consistent_of_run {e : Outcomes} {flags : HeapFlags} {addr totalSize commitSize : ℕ}
    {m : Memory} {calls : List HeapCall} {u : Program}
    (hcreate : rtlCreateHeap e flags addr totalSize commitSize m = some h)
    (haligned : h.address % 8 = 0) (hbase : 0x10000 ≤ h.address)
    (hlimit : ∀ s ∈ h.subheaps, s.limit < sizeLimit)
    (hrun : Run Program.step (fun u call => u.Legal call ∧ Modest call) ⟨h, fun _ => none⟩ calls u) :
    Consistent u.heap ∧ u.heap.isRealArena = true ∧
      ∀ call, u.Legal call → Modest call → ∃ u', u.step call = .ok u' := by
  obtain ⟨ts, H, hwhole, -⟩ := rtlCreateHeap_spec hcreate haligned hbase hlimit
  obtain ⟨ts', I⟩ := tracks_of_run H hwhole
    (hrun.mono fun u call hok => ⟨hok.1, sound_of_modest hok.2⟩)
  refine ⟨⟨ts', I.tiled, I.whole⟩, I.tiled.isRealArena I.whole, ?_⟩
  intro call hlegal hmodest
  obtain ⟨u', -, hstep, -⟩ := I.step hlegal (sound_of_modest hmodest)
  exact ⟨u', hstep⟩

/-- The sample heap is one that `RtlCreateHeap` makes. -/
theorem created_sampleHeap : rtlCreateHeap ⟨true, some 0x110000, true, true⟩
    ⟨false, false, false, false, false⟩ 0 0 0 (fun _ => 0) = some sampleHeap := rfl

theorem address_sampleHeap : sampleHeap.address = 0x110000 :=
  (createFreeBlock_beside _ _ _ _).address

theorem limit_sampleHeap : ∀ s ∈ sampleHeap.subheaps, s.limit < sizeLimit := by
  rw [sampleHeap, (createFreeBlock_beside _ _ _ _).subheaps]
  intro s hs
  rw [List.mem_singleton.mp hs]
  decide

/-- A block of 100 bytes in the sample heap. -/
theorem exists_sampleRun : ∃ u : Program, (⟨sampleHeap, fun _ => none⟩ : Program).step
      (.allocate sampleOutcomes ⟨false, false, false⟩ 100) = .ok u ∧
    Run Program.step (fun u call => u.Legal call ∧ Modest call) ⟨sampleHeap, fun _ => none⟩
      [.allocate sampleOutcomes ⟨false, false, false⟩ 100] u := by
  have hlegal : (⟨sampleHeap, fun _ => none⟩ : Program).Legal
      (.allocate sampleOutcomes ⟨false, false, false⟩ 100) := fun _ ha => by cases ha
  have hmodest : Modest (.allocate sampleOutcomes ⟨false, false, false⟩ 100) := ⟨by decide, rfl⟩
  obtain ⟨u, -, hstep, -⟩ :=
    (Tracks.init tiled_sampleHeap whole_sampleHeap).step hlegal (sound_of_modest hmodest)
  exact ⟨u, hstep, .single (And.intro hlegal hmodest) hstep⟩

theorem consistent_of_run_sample : ∃ u : Program, (⟨sampleHeap, fun _ => none⟩ : Program).step
      (.allocate sampleOutcomes ⟨false, false, false⟩ 100) = .ok u ∧
    Consistent u.heap ∧ u.heap.isRealArena = true := by
  obtain ⟨u, hstep, hrun⟩ := exists_sampleRun
  obtain ⟨hcons, hreal, -⟩ := consistent_of_run created_sampleHeap (by rw [address_sampleHeap])
    (by rw [address_sampleHeap]; decide) limit_sampleHeap hrun
  exact ⟨u, hstep, hcons, hreal⟩

end Wine.Heaps

/-!
## The blocks of a program

The blocks that a program has are apart from each other and from all headers, in committed memory.
They keep their contents while the calls are about other blocks, and a reallocation copies them.
-/

namespace Wine.Heaps
open Wine.Lib Reading

variable {h h' : Heap} {ts ts₁ ts₂ : List Tile} {s : SubHeap} {xs ys : List Piece} {e : Outcomes}
  {flags : CallFlags} {u u' : Program} {call : HeapCall} {calls : List HeapCall}
  {p q n k ptr ptr' size asked : ℕ}

/-- The data of a live block starts at its pointer and ends with its arena; all arenas are apart, and
those in use lie in committed memory, as do the headers of the free ones. -/
structure Sheltered (u : Program) (ts : List Tile) : Prop where
  tiled : Tiled u.heap ts
  whole : ∀ t ∈ ts, Whole t.2
  live : ∀ ptr asked, u.asked ptr = some asked →
    ∃ p n, ptr = p + arenaInuseSize ∧ UsedIn ts p n ∧ p + arenaInuseSize + asked ≤ p + n
  apart : ∀ p n q k, UsedIn ts p n → UsedIn ts q k → p ≠ q → p + n ≤ q ∨ q + k ≤ p
  apartFree : ∀ p n q k, UsedIn ts p n → FreeIn ts q k → p + n ≤ q ∨ q + k ≤ p
  committed : ∀ p n, UsedIn ts p n →
    ∃ s ∈ u.heap.subheaps, s.base ≤ p ∧ p + n ≤ s.base + s.commitSize
  committedFree : ∀ p n, FreeIn ts p n →
    ∃ s ∈ u.heap.subheaps, s.base ≤ p ∧ p + arenaFreeSize ≤ s.base + s.commitSize
  size : ∀ ptr asked, u.asked ptr = some asked → u.heap.rtlSizeHeap ptr = asked

namespace Tiled

theorem rtlSizeHeap (H : Tiled h ts) (hwhole : ∀ t ∈ ts, Whole t.2) (hused : UsedIn ts p n)
    (hunused : load h.mem (p + 7) 1 = n - 8 - asked) (hroom : asked + 8 ≤ n) :
    h.rtlSizeHeap (p + 8) = asked := by
  have hdata := (H.sizeOf_used hused).1
  have hle := H.used_le hused
  obtain ⟨ts₁, s, xs, ys, ts₂, rfl, hp⟩ := hused.split
  obtain ⟨hfilled, hlimit, -, -, hat, -⟩ := H.used_middle hp
  have hn := hat.le
  have hb : s.base ≤ s.first := Nat.le_add_right _ _
  have hfind : h.findSubHeap (p + 8) = some s :=
    H.findSubHeap Arranged.tile_mem (by simp only; omega) (by simp only; omega)
  have hvalid := H.validateInUseArena hp (hwhole _ Arranged.tile_mem)
  have hreal : h.isRealBlock (p + 8) = true := by
    rw [Heap.isRealBlock, hfind]
    refine decide_eq_true ⟨?_, hvalid⟩
    simp only [arenaInuseSize]
    omega
  have hlimit' : sizeLimit = 0x100000000 := rfl
  rw [Heap.rtlSizeHeap, if_pos hreal]
  simp only [arenaInuseSize, Nat.add_sub_cancel, hdata, hunused, hlimit']
  omega

theorem committed_used (H : Tiled h ts) (hcov : Covered ts) (hused : UsedIn ts p n) :
    ∃ s ∈ h.subheaps, s.base ≤ p ∧ p + n ≤ s.base + s.commitSize := by
  obtain ⟨ts₁, s, xs, ys, ts₂, rfl, hp⟩ := hused.split
  have hb : s.base ≤ s.first := Nat.le_add_right _ _
  obtain ⟨-, hle, -⟩ := CoveredFrom.append_iff.mp (forall_middle.mp hcov).1
  refine ⟨s, H.subheap_mem Arranged.tile_mem, by omega, ?_⟩
  rw [hp]
  exact hle

theorem committed_free (H : Tiled h ts) (hcov : Covered ts) (hfree : FreeIn ts p n) :
    ∃ s ∈ h.subheaps, s.base ≤ p ∧ p + arenaFreeSize ≤ s.base + s.commitSize := by
  obtain ⟨ts₁, s, xs, ys, ts₂, rfl, hp⟩ := hfree.split
  have hb : s.base ≤ s.first := Nat.le_add_right _ _
  obtain ⟨-, hle, -⟩ := CoveredFrom.append_iff.mp (forall_middle.mp hcov).1
  refine ⟨s, H.subheap_mem Arranged.tile_mem, by omega, ?_⟩
  rw [hp]
  exact hle

theorem apart_used (H : Tiled h ts) (hp : UsedIn ts p n) (hq : UsedIn ts q k) (hne : p ≠ q) :
    p + n ≤ q ∨ q + k ≤ p := by
  obtain ⟨ts₁, s, xs, ys, ts₂, rfl, hplace⟩ := hp.split
  rcases H.used_apart hplace hq with hlow | hhigh | ⟨heq, -⟩
  · exact .inr hlow
  · exact .inl hhigh
  · exact absurd heq.symm hne

theorem apart_free (H : Tiled h ts) (hp : UsedIn ts p n) (hq : FreeIn ts q k) :
    p + n ≤ q ∨ q + k ≤ p := by
  obtain ⟨ts₁, s, xs, ys, ts₂, rfl, hplace⟩ := hq.split
  rcases H.used_apart hplace hp with hlow | hhigh | ⟨-, heq⟩
  · exact .inl hlow
  · exact .inr hhigh
  · cases heq

end Tiled

theorem Tracks.sheltered (I : Tracks u ts) (S : Snug u ts) : Sheltered u ts where
  tiled := I.tiled
  whole := I.whole
  live ptr asked hs := by
    obtain ⟨p, n, rfl, hp, hroom⟩ := I.live ptr asked hs
    exact ⟨p, n, rfl, hp, by rw [arenaInuseSize]; omega⟩
  apart p n q k hp hq hne := I.tiled.apart_used hp hq hne
  apartFree p n q k hp hq := I.tiled.apart_free hp hq
  committed p n hp := I.tiled.committed_used S.covered hp
  committedFree p n hp := I.tiled.committed_free S.covered hp
  size ptr asked hs := by
    obtain ⟨p, n, rfl, hp, hroom⟩ := I.live ptr asked hs
    exact I.tiled.rtlSizeHeap I.whole hp (S.unused p n asked hs hp) hroom

/-- Every state of a run with modest sizes and memory that can be committed is snug. -/
theorem snug_of_run (H : Tiled h ts) (hwhole : ∀ t ∈ ts, Whole t.2) (hcov : Covered ts)
    (hrun : Run Program.step (fun u call => u.Legal call ∧ Modest call) ⟨h, fun _ => none⟩ calls u) :
    ∃ ts', Tracks u ts' ∧ Snug u ts' := by
  apply hrun.invariant (I := fun u => ∃ ts', Tracks u ts' ∧ Snug u ts')
  · exact ⟨ts, Tracks.init H hwhole, hcov, fun _ _ _ hs => by cases hs⟩
  · rintro u call u' ⟨ts', I, S⟩ ⟨hlegal, hmodest⟩ hstep
    obtain ⟨u'', ts'', heq, hstepped⟩ := I.step hlegal (sound_of_modest hmodest)
    obtain rfl := Except.ok.inj (hstep.symm.trans heq)
    exact ⟨ts'', hstepped.tracks, hstepped.snug hmodest S⟩

/-- A reallocation that fails changes nothing, and one that does not copies what both sizes have. -/
theorem Tracks.reAlloc_copies (I : Tracks u ts) (hlegal : u.Legal (.reAllocate e flags ptr size))
    (hmodest : Modest (.reAllocate e flags ptr size)) (hs : u.asked ptr = some asked) :
    ((u.heap.rtlReAllocateHeap e flags ptr size).1.Failed →
        (u.heap.rtlReAllocateHeap e flags ptr size).2 = u.heap) ∧
      ∀ ptr' h', u.heap.rtlReAllocateHeap e flags ptr size = (.block ptr', h') →
        ∀ i < min asked size, h'.mem (ptr' + i) = u.heap.mem (ptr + i) := by
  obtain ⟨p, n, rfl, hp, hroom⟩ := I.live ptr asked hs
  rcases I.tiled.sound_reAlloc I.whole hp hlegal.2.2 (sound_of_modest hmodest) with
    ⟨hf, ts', -, -, -, hsame⟩ | ⟨q, k, h'', ts', heq, R⟩
  · refine ⟨fun _ => (hsame hmodest.2).1, fun ptr' h' hblock => ?_⟩
    rw [hblock] at hf
    rcases hf with hf | hf <;> cases hf
  · rw [heq]
    constructor
    · rintro (hf | hf) <;> cases hf
    · intro ptr' h' hblock i hi
      obtain ⟨hanswer, rfl⟩ := Prod.mk.inj hblock
      obtain rfl := Answer.block.inj hanswer
      have hk := R.room
      exact R.kept i (by omega) (by omega)

/-- For every run of allocations, reallocations, frees and writes on a heap that `RtlCreateHeap` has
made, with sizes below 2 GB and memory that can be committed: the live blocks are apart from each
other and from all headers, in committed memory, and have the sizes that were asked for; and a further
call changes no live block that it is not about, but a reallocation copies its block. -/
theorem sheltered_of_run {flags : HeapFlags} {addr totalSize commitSize : ℕ} {m : Memory}
    (hcreate : rtlCreateHeap e flags addr totalSize commitSize m = some h)
    (haligned : h.address % 8 = 0) (hbase : 0x10000 ≤ h.address)
    (hlimit : ∀ s ∈ h.subheaps, s.limit < sizeLimit)
    (hrun : Run Program.step (fun u call => u.Legal call ∧ Modest call) ⟨h, fun _ => none⟩ calls u) :
    (∃ ts, Sheltered u ts) ∧
      (∀ call u', u.Legal call → Modest call → u.step call = .ok u' → u.Keeps call u') ∧
      ∀ e flags ptr size asked, u.Legal (.reAllocate e flags ptr size) →
        Modest (.reAllocate e flags ptr size) → u.asked ptr = some asked →
        ((u.heap.rtlReAllocateHeap e flags ptr size).1.Failed →
            (u.heap.rtlReAllocateHeap e flags ptr size).2 = u.heap) ∧
          ∀ ptr' h', u.heap.rtlReAllocateHeap e flags ptr size = (.block ptr', h') →
            ∀ i < min asked size, h'.mem (ptr' + i) = u.heap.mem (ptr + i) := by
  obtain ⟨ts, H, hwhole, hcov⟩ := rtlCreateHeap_spec hcreate haligned hbase hlimit
  obtain ⟨ts', I, S⟩ := snug_of_run H hwhole hcov hrun
  refine ⟨⟨ts', I.sheltered S⟩, ?_, ?_⟩
  · intro call u' hlegal hmodest hstep
    obtain ⟨u'', ts'', heq, hstepped⟩ := I.step hlegal (sound_of_modest hmodest)
    obtain rfl := Except.ok.inj (hstep.symm.trans heq)
    exact hstepped.keeps hmodest
  · intro e flags ptr size asked hlegal hmodest hs
    exact I.reAlloc_copies hlegal hmodest hs

theorem sheltered_of_run_sample : ∃ u : Program, (⟨sampleHeap, fun _ => none⟩ : Program).step
      (.allocate sampleOutcomes ⟨false, false, false⟩ 100) = .ok u ∧ ∃ ts, Sheltered u ts := by
  obtain ⟨u, hstep, hrun⟩ := exists_sampleRun
  obtain ⟨hsheltered, -⟩ := sheltered_of_run created_sampleHeap (by rw [address_sampleHeap])
    (by rw [address_sampleHeap]; decide) limit_sampleHeap hrun
  exact ⟨u, hstep, hsheltered⟩

end Wine.Heaps
