import Wine.Heaps.Finding

/-!
# Allocating

A free block is taken, made an in-use one and shrunk to what is asked for.
-/

namespace Wine.Heaps
open Wine.Lib Reading

variable {h h' h'' : Heap} {ts ts' ts'' ts₁ ts₂ : List Tile} {s : SubHeap}
  {cs cs' xs ys zs : List Piece} {c : Piece} {m : Memory} {e : Outcomes} {flags : CallFlags}
  {a p q n k n' size : ℕ}

namespace Arranged

/-- Another in-use block is apart from a piece. -/
theorem used_apart (H : Arranged h (ts₁ ++ (s, xs ++ c :: ys) :: ts₂)) (hp : p = s.first + totalOf xs)
    (hq : UsedIn (ts₁ ++ (s, xs ++ c :: ys) :: ts₂) q k) :
    q + k ≤ p ∨ p + c.total ≤ q ∨ q = p ∧ c = .used k := by
  have hfilled := H.middle.filled
  simp only [totalOf_append, totalOf_cons] at hfilled
  rcases usedIn_middle.mp hq with ⟨t, ht, hq⟩ | hq
  · have ht' : t ∈ ts₁ ++ (s, xs ++ c :: ys) :: ts₂ := mem_middle ht
    have hbq := H.used_bounds ht' hq
    have hap := H.other_apart ht
    have hfirst : t.1.base ≤ t.1.first := Nat.le_add_right _ _
    have hfirst' : s.base ≤ s.first := Nat.le_add_right _ _
    omega
  · rw [usedOf_append, List.mem_append] at hq
    rcases hq with hq | hq
    · have hbq := usedOf_bounds hq
      omega
    · rw [← hp] at hq
      cases c with
      | used j =>
        rcases List.mem_cons.mp hq with heq | hq
        · obtain ⟨rfl, rfl⟩ := Prod.mk.inj heq
          exact Or.inr (Or.inr ⟨rfl, rfl⟩)
        · have hq' : (q, k) ∈ usedOf (p + j) ys := hq
          exact Or.inr (Or.inl (usedOf_bounds hq').1)
      | free j =>
        have hq' : (q, k) ∈ usedOf (p + j) ys := hq
        exact Or.inr (Or.inl (usedOf_bounds hq').1)
      | gap j =>
        have hq' : (q, k) ∈ usedOf (p + j) ys := hq
        exact Or.inr (Or.inl (usedOf_bounds hq').1)

/-- What is written to a piece preserves the other in-use blocks. -/
theorem preserves (H : Arranged h (ts₁ ++ (s, xs ++ c :: ys) :: ts₂)) (hp : p = s.first + totalOf xs)
    (hc : ∀ k, c ≠ .used k) (haddress : h'.address = h.address) (hflags : h'.flags = h.flags)
    (hm : ∀ i, i < p ∨ p + c.total ≤ i → h'.mem i = h.mem i)
    (hsub : ∀ q k, (q, k) ∈ usedOf s.first (xs ++ c :: ys) → (q, k) ∈ usedOf s.first cs') :
    Preserves h (ts₁ ++ (s, xs ++ c :: ys) :: ts₂) h' (ts₁ ++ (s, cs') :: ts₂) where
  address := haddress
  flags := hflags
  used q k hq := by
    rw [usedIn_middle] at hq ⊢
    exact hq.imp_right (hsub q k)
  data q k hq i hi hi' := by
    rcases H.used_apart hp hq with hlow | hhigh | ⟨-, heq⟩
    · exact hm i (by omega)
    · exact hm i (by omega)
    · exact absurd heq (hc k)

end Arranged

theorem Shrunk.preserves (hS : Shrunk h h' ts₁ ts₂ s xs ys p n n' zs)
    (H : Arranged h (ts₁ ++ (s, xs ++ .gap n :: ys) :: ts₂)) (hp : p = s.first + totalOf xs) :
    Preserves h (ts₁ ++ (s, xs ++ .gap n :: ys) :: ts₂) h'
      (ts₁ ++ (s, xs ++ .used n' :: zs) :: ts₂) where
  address := hS.address
  flags := hS.flags
  used q k hq := by
    rw [usedIn_middle] at hq ⊢
    refine hq.imp_right fun hq => ?_
    rw [usedOf_append, List.mem_append] at hq ⊢
    rw [← hp] at hq ⊢
    refine hq.imp_right fun hq => List.mem_cons_of_mem _ ?_
    rw [hS.usedOf]
    exact hq
  data q k hq i hi hi' := by
    have hfilled := H.middle.filled
    simp only [totalOf_append, totalOf_cons, Piece.total] at hfilled
    rcases usedIn_middle.mp hq with ⟨t, ht, hq⟩ | hq
    · have ht' : t ∈ ts₁ ++ (s, xs ++ .gap n :: ys) :: ts₂ := mem_middle ht
      have hbq := H.used_bounds ht' hq
      have hap := H.other_apart ht
      have hfirst : t.1.base ≤ t.1.first := Nat.le_add_right _ _
      have hfirst' : s.base ≤ s.first := Nat.le_add_right _ _
      rcases hap with hap | hap
      · exact hS.mem i (.inl (by omega)) (by omega)
      · exact hS.outside i (by omega)
    · rw [usedOf_append, List.mem_append] at hq
      rcases hq with hq | hq
      · have hbq := usedOf_bounds hq
        exact hS.mem i (.inl (by omega)) (by omega)
      · rw [← hp] at hq
        exact hS.rest q k hq i (by omega) hi'

namespace Tiled

/-- A free block that has been made an in-use one is in the hands, with its header. -/
theorem buildInUse (H : Tiled h (ts₁ ++ (s, xs ++ .free n :: ys) :: ts₂))
    (hp : p = s.first + totalOf xs) :
    Tiled (h.buildInUse p) (ts₁ ++ (s, xs ++ .gap n :: ys) :: ts₂) ∧
      UsedAt (h.buildInUse p).mem (lastBefore .used s.first xs) p n ∧
      ∀ i, i < p ∨ p + 8 ≤ i → (h.buildInUse p).mem i = h.mem i := by
  obtain ⟨hxs, hfree, -⟩ := Layout.append_iff.mp H.middle.layout
  rw [← hp] at hfree
  have hn := hfree.le
  have hn8 := hfree.aligned
  have hfilled := H.middle.filled
  simp only [totalOf_append, totalOf_cons, Piece.total] at hfilled
  have hlimit := H.middle.wellFormed.limit_lt
  simp only at hlimit
  have hw : clearFree (word h.mem p) + arenaFreeSize - arenaInuseSize = n - 8 := by
    rw [hfree.word, clearFree, arenaFreeSize, arenaInuseSize]
    omega
  have hmem : (h.buildInUse p).mem = setInuseMagic (setWord h.mem p (n - 8)) p := by
    simp only [Heap.buildInUse, hw]
  have hmagic : ∀ i, i < p + 4 ∨ p + 7 ≤ i →
      setInuseMagic (setWord h.mem p (n - 8)) p i = setWord h.mem p (n - 8) i := by
    intro i hi
    apply store_of_not_mem
    rw [length_littleEndian]
    omega
  have hout : ∀ i, i < p ∨ p + 8 ≤ i → (h.buildInUse p).mem i = h.mem i := by
    intro i hi
    rw [hmem, hmagic i (by omega), setWord_of_not_mem (by omega)]
  have hword : word (h.buildInUse p).mem p = n - 8 := by
    have hsame : word (setInuseMagic (setWord h.mem p (n - 8)) p) p =
        word (setWord h.mem p (n - 8)) p := word_congr fun i _ _ => hmagic i (by omega)
    rw [hmem, hsame]
    exact word_setWord (by omega)
  have hT : Tiled (h.buildInUse p) (ts₁ ++ (s, xs ++ .gap n :: ys) :: ts₂) :=
    (H.take hp).write_gap (m := (h.buildInUse p).mem) hp fun i hi => hout i (by omega)
  refine ⟨hT, ⟨hn8, hn, ?_, ?_, ?_, ?_⟩, hout⟩
  · rw [hmem]
    exact load_store
  · rw [hword, IsFree]
    omega
  · rw [hword, sizeOf]
    omega
  · have hmerged := hfree.merged
    cases hlast : lastBefore Before.used s.first xs with
    | free q => exact absurd hlast (hmerged q)
    | used =>
      change ¬ IsPrevFree (word (h.buildInUse p).mem p)
      rw [hword, IsPrevFree]
      omega
    | gap => trivial

/-- What is written to the data of an in-use block, or to the byte of its unused bytes. -/
theorem write_used (H : Tiled h (ts₁ ++ (s, xs ++ .used n :: ys) :: ts₂))
    (hp : p = s.first + totalOf xs) (hm : ∀ i, i < p + 7 ∨ p + n ≤ i → m i = h.mem i) :
    Tiled { h with mem := m } (ts₁ ++ (s, xs ++ .used n :: ys) :: ts₂) := by
  obtain ⟨hfilled, -, -, hxs, hused, hys⟩ := H.used_middle hp
  have hn := hused.le
  refine H.rewrite (H.toArranged.replace rfl rfl ?_ ?_ rfl) rfl rfl rfl
  · exact fun i hi => hm i (by omega)
  · refine Layout.append_iff.mpr ⟨hxs.congr ?_ (fun q hq => by cases hq), ?_, ?_⟩
    · exact fun i _ hi => hm i (by omega)
    · rw [← hp]
      exact usedAt_congr hused fun i _ _ => hm i (by omega)
    · rw [← hp]
      refine hys.congr (fun i hi _ => hm i (.inr hi)) fun q hq => by cases hq

end Tiled

/-- A new in-use block of `n` bytes at `p`, and all that was in use as it was. -/
structure Taken (h : Heap) (ts : List Tile) (h' : Heap) (ts₁ : List Tile) (s : SubHeap)
    (xs : List Piece) (n : ℕ) (ys : List Piece) (ts₂ : List Tile) (p : ℕ) : Prop where
  tiled : Tiled h' (ts₁ ++ (s, xs ++ .used n :: ys) :: ts₂)
  place : p = s.first + totalOf xs
  preserves : Preserves h ts h' (ts₁ ++ (s, xs ++ .used n :: ys) :: ts₂)
  whole : ∀ t ∈ ts₁ ++ (s, xs ++ .used n :: ys) :: ts₂, Whole t.2
  new : ∀ q k, UsedIn ts q k → q + k ≤ p ∨ p + n ≤ q
  covered : Covered ts → Covered (ts₁ ++ (s, xs ++ .used n :: ys) :: ts₂)

theorem Whole.replace {c' : Piece} (h : Whole (xs ++ c :: ys)) (hc : ∀ k, c' ≠ .gap k)
    (hzs : Whole zs) : Whole (xs ++ c' :: zs) := by
  intro k hk
  rcases List.mem_append.mp hk with hk | hk
  · exact h k (List.mem_append_left _ hk)
  · rcases List.mem_cons.mp hk with hk | hk
    · exact hc k hk.symm
    · exact hzs k hk

namespace Found

theorem new (F : Found h ts e size h' ts₁ s xs n ys ts₂ p) (hq : UsedIn ts q k) :
    q + k ≤ p ∨ p + n ≤ q := by
  rcases F.tiled.used_apart F.place (F.preserves.used q k hq) with hlow | hhigh | ⟨-, heq⟩
  · exact Or.inl hlow
  · exact Or.inr hhigh
  · cases heq

/-- The search, the building of the in-use arena and the shrinking make up a new block. -/
theorem taken_of_shrunk (F : Found h ts e size h' ts₁ s xs n ys ts₂ p)
    (hS : Shrunk (h'.buildInUse p) h'' ts₁ ts₂ s xs ys p n n' zs) (hle : n' ≤ n)
    (hcov : Covered ts → Covered (ts₁ ++ (s, xs ++ .used n' :: zs) :: ts₂)) :
    Taken h ts h'' ts₁ s xs n' zs ts₂ p := by
  obtain ⟨hT, hused, hout⟩ := F.tiled.buildInUse F.place
  have hn := hused.le
  obtain ⟨hmiddle, hrest⟩ := forall_middle.mp F.whole
  have hpres : Preserves h' (ts₁ ++ (s, xs ++ .free n :: ys) :: ts₂) (h'.buildInUse p)
      (ts₁ ++ (s, xs ++ .gap n :: ys) :: ts₂) := by
    refine F.tiled.preserves F.place (fun k hk => by cases hk) rfl rfl ?_ ?_
    · exact fun i hi => hout i (by simp only [Piece.total] at hi; omega)
    · intro q k hq
      rw [usedOf_append] at hq ⊢
      exact hq
  refine ⟨hS.tiled, F.place, (F.preserves.trans hpres).trans (hS.preserves hT.toArranged F.place),
    ?_, ?_, hcov⟩
  · exact forall_middle.mpr ⟨Whole.replace hmiddle (fun k hk => by cases hk) hS.whole, hrest⟩
  · intro q k hq
    rcases F.new hq with hlow | hhigh
    · exact Or.inl hlow
    · exact Or.inr (by omega)

theorem take (F : Found h ts e size h' ts₁ s xs n ys ts₂ p) (hsize : 16 ≤ size)
    (haligned : size % 8 = 0) (hle : size + 8 ≤ n) :
    ∃ h'' n' zs, (h'.buildInUse p).shrinkBlock s p size = some h'' ∧
      Taken h ts h'' ts₁ s xs n' zs ts₂ p ∧ size + 8 ≤ n' ∧ n' < size + 40 := by
  obtain ⟨hT, hused, -⟩ := F.tiled.buildInUse F.place
  have hys := Whole.tail (Whole.right (forall_middle.mp F.whole).1)
  obtain ⟨h'', n', zs, heq, hS, hge, hle', hlt, hn'⟩ :=
    hT.shrinkBlock F.place hused hys hsize haligned hle
  refine ⟨h'', n', zs, heq, F.taken_of_shrunk hS hle' fun hcov => ?_, hge, hlt⟩
  obtain ⟨hmiddle, hrest⟩ := forall_middle.mp (F.covered hcov)
  obtain ⟨hxs, hfree⟩ := CoveredFrom.append_iff.mp hmiddle
  refine forall_middle.mpr ⟨?_, hrest⟩
  exact hS.covered_of_commitEnd hT.toArranged F.place hys
    (CoveredFrom.append_iff.mpr ⟨hxs, hfree.2⟩) F.committed haligned hle hlt hn'

end Found

/-- Pieces without a block in use are at most one free block. -/
theorem Layout.of_usedOf_nil {before : Before} (h : Layout m before a cs) (hwhole : Whole cs)
    (hused : usedOf a cs = []) : cs = [] ∨ ∃ k, cs = [.free k] := by
  cases cs with
  | nil => exact Or.inl rfl
  | cons c cs =>
    cases c with
    | used k => cases hused
    | gap k => exact absurd List.mem_cons_self (hwhole k)
    | free k =>
      rcases settled_of_free h.2 (Whole.tail hwhole) with rfl | ⟨j, ys, rfl⟩
      · exact Or.inr ⟨k, rfl⟩
      · cases hused

/-- The sample heap with one small block in use. -/
theorem exists_sampleUsed : ∃ h n k, Tiled h [(sampleSubHeap, [.used n, .free k])] ∧ n < 56 ∧
    n + k = sampleSubHeap.size - heapSize := by
  have hsize : sampleSubHeap.size - heapSize = 0x10ff10 := rfl
  have H : Tiled sampleHeap ([] ++ (sampleSubHeap,
      [] ++ .free (sampleSubHeap.size - heapSize) :: []) :: []) := tiled_sampleHeap
  obtain ⟨hT, hused, -⟩ := H.buildInUse (p := sampleSubHeap.first) rfl
  obtain ⟨h, n, zs, -, hS, hge, -, hlt, -⟩ := hT.shrinkBlock rfl hused (fun k hk => by cases hk)
    (show 16 ≤ 16 by decide) (by decide) (by decide)
  have hfilled := hS.tiled.middle.filled
  have hlayout := hS.tiled.middle.layout.2
  have hlimit : sampleSubHeap.limit = sampleSubHeap.first + (sampleSubHeap.size - heapSize) := rfl
  simp only [List.nil_append, totalOf_cons, Piece.total, hlimit] at hfilled
  rcases hlayout.of_usedOf_nil hS.whole hS.usedOf with rfl | ⟨k, rfl⟩
  · rw [totalOf_nil] at hfilled
    omega
  · refine ⟨h, n, k, hS.tiled, by omega, ?_⟩
    simp only [totalOf_cons, totalOf_nil, Piece.total] at hfilled
    omega

end Wine.Heaps
