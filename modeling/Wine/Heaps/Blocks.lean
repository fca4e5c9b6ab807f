import Wine.Heaps.Gaps

/-!
# Making and freeing blocks

Each operation is followed from the gap it starts with to the pieces it leaves. Outside the
sub-heap, and in the data of its other in-use blocks, the memory stays as it is.
-/

namespace Wine.Heaps
open Wine.Lib Reading

variable {h h' : Heap} {ts ts' ts₁ ts₂ : List Tile} {s : SubHeap} {cs cs' xs ys zs : List Piece}
  {m m' : Memory} {p q n k w : ℕ}

theorem setFree_of_aligned (h : n % 8 = 0) (hle : 16 ≤ n) : setFree (n - 16) = n - 16 + 1 := by
  rw [setFree]
  omega

theorem setPrevFree_lt (h : w < sizeLimit) : setPrevFree w < sizeLimit := by
  rw [setPrevFree, sizeLimit] at *
  omega

theorem isPrevFree_setPrevFree : IsPrevFree (setPrevFree w) := by
  rw [IsPrevFree, setPrevFree]
  omega

theorem isFree_setPrevFree : IsFree (setPrevFree w) ↔ IsFree w := by
  rw [IsFree, IsFree, setPrevFree]
  omega

theorem sizeOf_setPrevFree : sizeOf (setPrevFree w) = sizeOf w := by
  rw [sizeOf, sizeOf, setPrevFree]
  omega

/-- Nothing, or an in-use block, is next. -/
def Settled (ys : List Piece) : Prop := ys = [] ∨ ∃ k zs, ys = .used k :: zs

/-- A block is at least 24 bytes long. -/
theorem Layout.le_totalOf {before : Before} {a : ℕ} (h : Layout m before a ys) (hys : Whole ys)
    (hne : ys ≠ []) : 24 ≤ totalOf ys := by
  cases ys with
  | nil => exact absurd rfl hne
  | cons c ys =>
    rw [totalOf_cons]
    cases c with
    | free k =>
      have hle := h.1.le
      simp only [Piece.total]
      omega
    | used k =>
      have hle := h.1.le
      simp only [Piece.total]
      omega
    | gap k => exact absurd List.mem_cons_self (hys k)

theorem Whole.tail {c : Piece} (h : Whole (c :: ys)) : Whole ys :=
  fun k hk => h k (List.mem_cons_of_mem c hk)

theorem freesOf_fill (hp : p = s.first + totalOf xs) :
    (freesOf s.first (xs ++ .free n :: ys)).Perm
      ((p, n) :: freesOf s.first (xs ++ .gap n :: ys)) := by
  rw [freesOf_append, freesOf_append, ← hp]
  exact List.perm_middle

theorem isFree_of_freeAt {before : Before} (hfree : FreeAt m before p n) : IsFree (word m p) := by
  have haligned := hfree.aligned
  have hle := hfree.le
  rw [hfree.word, IsFree]
  omega

theorem sizeOf_of_freeAt {before : Before} (hfree : FreeAt m before p n) :
    sizeOf (word m p) + arenaFreeSize = n := by
  have haligned := hfree.aligned
  have hle := hfree.le
  rw [hfree.word, sizeOf, arenaFreeSize]
  omega

theorem settled_of_free (h : Layout m (.free q) p ys) (hys : Whole ys) : Settled ys := by
  cases ys with
  | nil => exact Or.inl rfl
  | cons c ys =>
    cases c with
    | free k => exact absurd rfl (h.1.merged q)
    | used k => exact Or.inr ⟨k, ys, rfl⟩
    | gap k => exact absurd List.mem_cons_self (hys k)

theorem layout_free_behind_used {a : ℕ} (h : Layout m .gap a (.free k :: zs)) :
    Layout m .used a (.free k :: zs) :=
  ⟨⟨h.1.aligned, h.1.le, h.1.magic, h.1.word, fun q hq => by cases hq⟩, h.2⟩

theorem usedAt_congr {before : Before} (hused : UsedAt m before p n)
    (hm : ∀ i, p - 4 ≤ i → i < p + 7 → m' i = m i) : UsedAt m' before p n := by
  have hword : word m' p = word m p := word_congr fun i _ _ => hm i (by omega) (by omega)
  refine ⟨hused.aligned, hused.le, ?_, by rw [hword]; exact hused.inuse,
    by rw [hword, hused.size], ?_⟩
  · rw [← hused.magic]
    exact load_congr fun i _ _ => hm i (by omega) (by omega)
  · exact hused.flagged.congr (by rw [hword])
      fun _ _ => word_congr fun i _ _ => hm i (by omega) (by omega)

/-- Behind an in-use block the flag is off. -/
theorem layout_clearPrevFree {a : ℕ} (h : Layout m .gap a ys) (hwhole : Whole ys)
    (hword : word m' a = clearPrevFree (word m a)) (hm : ∀ i, a + 4 ≤ i → m' i = m i) :
    Layout m' .used a ys := by
  cases ys with
  | nil => trivial
  | cons c ys =>
    obtain ⟨hc, hys⟩ := h
    have hrest : ∀ k, c.total = k → 8 ≤ k → (∀ q, c.before a = .free q → 24 ≤ k) →
        Layout m' (c.before a) (a + c.total) ys := by
      intro k hk hle hback
      refine hys.congr (fun i hi _ => hm i (by omega)) ?_
      intro q hq
      have h24 := hback q hq
      exact word_congr fun i hi _ => hm i (by omega)
    cases c with
    | free k =>
      have haligned := hc.aligned
      have hle := hc.le
      have hw : word m' a = word m a := by
        rw [hword, hc.word, clearPrevFree]
        omega
      refine ⟨⟨haligned, hle, ?_, by rw [hw, hc.word], fun q hq => by cases hq⟩,
        hrest k rfl (by omega) fun _ _ => hle⟩
      rw [← hc.magic]
      exact word_congr fun i hi _ => hm i (by omega)
    | used k =>
      have hle := hc.le
      refine ⟨⟨hc.aligned, hle, ?_, ?_, ?_, ?_⟩, hrest k rfl (by omega) fun _ _ => hle⟩
      · rw [← hc.magic]
        exact load_congr fun i hi _ => hm i (by omega)
      · rw [hword, IsFree, clearPrevFree]
        have hinuse := hc.inuse
        rw [IsFree] at hinuse
        omega
      · rw [hword, ← hc.size, sizeOf, sizeOf, clearPrevFree]
        omega
      · change ¬ IsPrevFree (word m' a)
        rw [hword, IsPrevFree, clearPrevFree]
        omega
    | gap k => exact absurd List.mem_cons_self (hwhole k)

/-- An operation on arenas leaves the sub-heaps and the flags as they were. -/
structure Beside (h h' : Heap) : Prop where
  address : h'.address = h.address
  subheaps : h'.subheaps = h.subheaps
  flags : h'.flags = h.flags

theorem closeFreeBlock_beside (h : Heap) (s : SubHeap) (p size : ℕ) :
    Beside h (h.closeFreeBlock s p size) := by
  rw [Heap.closeFreeBlock]
  split <;> exact ⟨rfl, rfl, rfl⟩

theorem createFreeBlock_beside (h : Heap) (s : SubHeap) (p size : ℕ) :
    Beside h (h.createFreeBlock s p size) := by
  simp only [Heap.createFreeBlock]
  split
  · have hb := closeFreeBlock_beside
      ({ h with mem := setWord h.mem (p + 4) arenaFreeMagic }.listRemove (p + size)) s p
      (size + (sizeOf (word (setWord h.mem (p + 4) arenaFreeMagic) (p + size)) + arenaFreeSize))
    exact ⟨hb.address, hb.subheaps, hb.flags⟩
  · have hb := closeFreeBlock_beside { h with mem := setWord h.mem (p + 4) arenaFreeMagic } s p size
    exact ⟨hb.address, hb.subheaps, hb.flags⟩

/-- The outcome of shrinking the block of `n` bytes at `p`: it is put back with `n'` bytes, and but
for the free block behind it nothing has changed. -/
structure Shrunk (h h' : Heap) (ts₁ ts₂ : List Tile) (s : SubHeap) (xs ys : List Piece) (p n : ℕ)
    (n' : ℕ) (zs : List Piece) : Prop extends Beside h h' where
  tiled : Tiled h' (ts₁ ++ (s, xs ++ .used n' :: zs) :: ts₂)
  whole : Whole zs
  cases : n' = n ∧ zs = ys ∨ n' + 16 ≤ n ∧ ∃ k zs', zs = .free k :: zs' ∧
    (zs' = ys ∨ ∃ j, ys = .free j :: zs') ∧ n' + k + totalOf zs' = n + totalOf ys
  usedOf : usedOf (p + n') zs = usedOf (p + n) ys
  mem : ∀ i, i < p ∨ p + 4 ≤ i ∧ i < p + n' → i < p + n → h'.mem i = h.mem i
  outside : ∀ i, s.limit ≤ i → h'.mem i = h.mem i
  rest : ∀ q k, (q, k) ∈ Wine.Heaps.usedOf (p + n) ys → ∀ i, q + 4 ≤ i → i < q + k →
    h'.mem i = h.mem i

namespace Tiled

theorem bounds (H : Arranged h (ts₁ ++ (s, xs ++ .gap n :: ys) :: ts₂)) :
    s.first + totalOf xs + n + totalOf ys = s.limit ∧ s.limit < sizeLimit ∧ n % 8 = 0 ∧
      Layout h.mem .used s.first xs ∧ Layout h.mem .gap (s.first + totalOf xs + n) ys := by
  have hfilled := H.middle.filled
  obtain ⟨hxs, hgap, hys⟩ := Layout.append_iff.mp H.middle.layout
  simp only [totalOf_append, totalOf_cons, Piece.total] at hfilled
  refine ⟨by omega, H.middle.wellFormed.limit_lt, hgap, hxs, hys⟩

/-- The gap has been given the header of a free block, and the block behind it has been told. -/
theorem fill (H : Tiled h (ts₁ ++ (s, xs ++ .gap n :: ys) :: ts₂)) (hp : p = s.first + totalOf xs)
    (hn : 24 ≤ n) (hprev : ∀ q, lastBefore .used s.first xs ≠ .free q) (hys : Settled ys)
    (hword : word m' p = n - 16 + 1) (hmagic : word m' (p + 4) = arenaFreeMagic)
    (hframe : ∀ i, i < p ∨ p + n + 4 ≤ i → m' i = h.mem i)
    (hlimit : s.limit ≤ p + n → ∀ i, p + n ≤ i → m' i = h.mem i)
    (hnext : p + n < s.limit → word m' (p + n) = setPrevFree (word h.mem (p + n)) ∧
      word m' (p + n - 4) = p) (l : List ℕ) :
    Arranged { h with mem := m', freeList := l } (ts₁ ++ (s, xs ++ .free n :: ys) :: ts₂) := by
  obtain ⟨hfilled, hlt, haligned, hxs, hlayout⟩ := bounds H.toArranged
  rw [← hp] at hlayout hfilled
  refine H.toArranged.replace rfl rfl ?_ ?_ ?_
  · intro i hi
    change m' i = h.mem i
    rcases hys with rfl | ⟨k, zs, rfl⟩
    · rw [totalOf_nil] at hfilled
      rcases Nat.lt_or_ge i p with hlow | hge
      · exact hframe i (.inl hlow)
      · exact hlimit (by omega) i (by omega)
    · have hle := hlayout.1.le
      rw [totalOf_cons] at hfilled
      simp only [Piece.total] at hfilled
      exact hframe i (by omega)
  · refine Layout.append_iff.mpr ⟨hxs.congr (fun i _ hi => hframe i (.inl ?_)) ?_, ?_, ?_⟩
    · rwa [hp]
    · intro q hq
      cases hq
    · rw [← hp]
      exact ⟨haligned, hn, hmagic, hword, hprev⟩
    · rw [← hp]
      rcases hys with rfl | ⟨k, zs, rfl⟩
      · trivial
      · obtain ⟨hused, hzs⟩ := hlayout
        have hle := hused.le
        rw [totalOf_cons] at hfilled
        simp only [Piece.total] at hfilled
        obtain ⟨hw, hback⟩ := hnext (by omega)
        refine ⟨⟨hused.aligned, hle, ?_, ?_, ?_, ?_, hback⟩, hzs.congr ?_ ?_⟩
        · rw [← hused.magic]
          refine load_congr fun i hi _ => hframe i (.inr ?_)
          have hi' : p + n + 4 ≤ i := hi
          omega
        · change ¬ IsFree (word m' (p + n))
          rw [hw, isFree_setPrevFree]
          exact hused.inuse
        · change sizeOf (word m' (p + n)) = k - 8
          rw [hw, sizeOf_setPrevFree, hused.size]
        · change IsPrevFree (word m' (p + n))
          rw [hw]
          exact isPrevFree_setPrevFree
        · intro i hi _
          have hi' : p + n + k ≤ i := hi
          exact hframe i (.inr (by omega))
        · intro q hq
          cases hq
  · simp only [totalOf_append, totalOf_cons]
    rfl

/-- The list with the block at the end or the start of its class. -/
theorem insertFreeBlock (H : Tiled h (ts₁ ++ (s, cs) :: ts₂)) (last : Bool) {h₁ : Heap}
    (haddress : h₁.address = h.address) (hlist : h₁.freeList = h.freeList)
    (hword : word h₁.mem p = n - 16) (hn : 16 ≤ n)
    (A : Arranged (h₁.insertFreeBlock p last) (ts₁ ++ (s, cs') :: ts₂))
    (hfrees : (freesOf s.first cs').Perm ((p, n) :: freesOf s.first cs)) :
    Tiled (h₁.insertFreeBlock p last) (ts₁ ++ (s, cs') :: ts₂) := by
  refine H.insert A haddress hfrees last ?_
  have hindex : word h₁.mem p + arenaFreeSize = n := by
    rw [hword, arenaFreeSize]
    omega
  have hhead : ∀ i, h₁.freeListHead i = h.freeListHead i := by
    intro i
    rw [Heap.freeListHead, Heap.freeListHead, haddress]
  simp only [Heap.insertFreeBlock, hindex, hlist, hhead]

/-- A free block whose header and whose next block have been written is inserted. -/
theorem fill_insert (H : Tiled h (ts₁ ++ (s, xs ++ .gap n :: ys) :: ts₂))
    (hp : p = s.first + totalOf xs) (hn : 24 ≤ n)
    (hprev : ∀ q, lastBefore .used s.first xs ≠ .free q) (hys : Settled ys)
    (hword : word m p = n - 16) (hmagic : word m (p + 4) = arenaFreeMagic)
    (hframe : ∀ i, i < p ∨ p + n + 4 ≤ i → m i = h.mem i)
    (hlimit : s.limit ≤ p + n → ∀ i, p + n ≤ i → m i = h.mem i)
    (hnext : p + n < s.limit → word m (p + n) = setPrevFree (word h.mem (p + n)) ∧
      word m (p + n - 4) = p) (last : Bool) :
    Tiled ({ h with mem := m }.insertFreeBlock p last) (ts₁ ++ (s, xs ++ .free n :: ys) :: ts₂) ∧
      ∀ i, i < p ∨ p + n + 4 ≤ i ∨ s.limit ≤ i →
        ({ h with mem := m }.insertFreeBlock p last).mem i = h.mem i := by
  obtain ⟨hfilled, hlt, haligned, hxs, hlayout⟩ := bounds H.toArranged
  rw [← hp] at hlayout hfilled
  have hset := setFree_of_aligned haligned (by omega)
  have hmem : ({ h with mem := m }.insertFreeBlock p last).mem = setWord m p (n - 16 + 1) := by
    simp only [Heap.insertFreeBlock, hword, hset]
  have hout : ∀ i, i < p ∨ p + 4 ≤ i → setWord m p (n - 16 + 1) i = m i :=
    fun i hi => setWord_of_not_mem hi
  refine ⟨insertFreeBlock H last rfl rfl hword (by omega) ?_ (freesOf_fill hp), ?_⟩
  · have hw : word (setWord m p (n - 16 + 1)) p = n - 16 + 1 := word_setWord (by omega)
    have A := H.fill hp hn hprev hys hw ?_ ?_ ?_ ?_
      ({ h with mem := m }.insertFreeBlock p last).freeList
    · rw [← hmem] at A
      exact A
    · rw [word_setWord_of_disjoint (by omega), hmagic]
    · intro i hi
      rw [hout i (by omega), hframe i hi]
    · intro hlow i hi
      rw [hout i (by omega), hlimit hlow i hi]
    · intro hhigh
      rw [word_setWord_of_disjoint (by omega), word_setWord_of_disjoint (by omega)]
      exact hnext hhigh
  · intro i hi
    rw [hmem, hout i (by omega)]
    rcases Nat.lt_or_ge (p + n) s.limit with hlow | hhigh
    · have hfits : p + n + 4 ≤ s.limit := by
        rcases hys with rfl | ⟨k, zs, rfl⟩
        · rw [totalOf_nil] at hfilled
          omega
        · have hle := hlayout.1.le
          rw [totalOf_cons] at hfilled
          simp only [Piece.total] at hfilled
          omega
      exact hframe i (by omega)
    · rcases Nat.lt_or_ge i p with hlt | hge
      · exact hframe i (.inl hlt)
      · exact hlimit hhigh i (by omega)

theorem closeFreeBlock (H : Tiled h (ts₁ ++ (s, xs ++ .gap n :: ys) :: ts₂))
    (hp : p = s.first + totalOf xs) (hn : 24 ≤ n)
    (hprev : ∀ q, lastBefore .used s.first xs ≠ .free q) (hys : Settled ys)
    (hmagic : word h.mem (p + 4) = arenaFreeMagic) :
    Tiled (h.closeFreeBlock s p n) (ts₁ ++ (s, xs ++ .free n :: ys) :: ts₂) ∧
      ∀ i, i < p ∨ p + n + 4 ≤ i ∨ s.limit ≤ i →
        (h.closeFreeBlock s p n).mem i = h.mem i := by
  obtain ⟨hfilled, hlt, -, -, -⟩ := bounds H.toArranged
  rw [← hp] at hfilled
  have hsize : n - 16 < sizeLimit := by omega
  rw [Heap.closeFreeBlock]
  split
  · next hend =>
    have hout : ∀ i, i < p ∨ p + 4 ≤ i → setWord h.mem p (n - arenaFreeSize) i = h.mem i :=
      fun i hi => setWord_of_not_mem hi
    apply H.fill_insert hp hn hprev hys (word_setWord hsize)
    · rw [word_setWord_of_disjoint (by omega), hmagic]
    · exact fun i hi => hout i (by omega)
    · exact fun _ i hi => hout i (by omega)
    · intro hnext
      omega
  · next hend =>
    apply H.fill_insert hp hn hprev hys (word_setWord hsize)
    · rw [word_setWord_of_disjoint (by omega), word_setWord_of_disjoint (by omega),
        word_setWord_of_disjoint (by omega), hmagic]
    · intro i hi
      rw [setWord_of_not_mem (by omega), setWord_of_not_mem (by omega),
        setWord_of_not_mem (by omega)]
    · exact fun hlow => absurd hlow hend
    · intro _
      constructor
      · rw [word_setWord_of_disjoint (by omega), word_setWord_of_disjoint (by omega),
          word_setWord (setPrevFree_lt word_lt)]
      · rw [word_setWord_of_disjoint (by omega), word_setWord (by omega)]

/-- What is written to a gap disturbs nothing. -/
theorem write_gap (H : Tiled h (ts₁ ++ (s, xs ++ .gap n :: ys) :: ts₂))
    (hp : p = s.first + totalOf xs) (hm : ∀ i, i < p ∨ p + n ≤ i → m i = h.mem i) :
    Tiled { h with mem := m } (ts₁ ++ (s, xs ++ .gap n :: ys) :: ts₂) := by
  obtain ⟨hfilled, -, haligned, hxs, hlayout⟩ := bounds H.toArranged
  rw [← hp] at hlayout hfilled
  refine H.rewrite (H.toArranged.replace rfl rfl ?_ ?_ rfl) rfl rfl rfl
  · exact fun i hi => hm i (by omega)
  · refine Layout.append_iff.mpr ⟨hxs.congr ?_ ?_, haligned, ?_⟩
    · exact fun i _ hi => hm i (.inl (by omega))
    · intro q hq
      cases hq
    · rw [← hp]
      refine hlayout.congr ?_ ?_
      · exact fun i hi _ => hm i (.inr hi)
      · intro q hq
        cases hq

/-- Two gaps are one. -/
theorem merge_gaps (H : Tiled h (ts₁ ++ (s, xs ++ .gap n :: .gap k :: ys) :: ts₂)) :
    Tiled h (ts₁ ++ (s, xs ++ .gap (n + k) :: ys) :: ts₂) := by
  obtain ⟨hxs, hn, hk, hys⟩ := Layout.append_iff.mp H.middle.layout
  have hn' : n % 8 = 0 := hn
  have hk' : k % 8 = 0 := hk
  refine H.rewrite (H.toArranged.replace rfl rfl (fun _ _ => rfl) ?_ ?_) rfl rfl ?_
  · refine Layout.append_iff.mpr ⟨hxs, ?_, ?_⟩
    · change (n + k) % 8 = 0
      omega
    · change Layout h.mem .gap (s.first + totalOf xs + (n + k)) ys
      rw [← Nat.add_assoc]
      exact hys
  · simp only [totalOf_append, totalOf_cons, Piece.total]
    omega
  · simp only [freesOf_append, freesOf, Nat.add_assoc]

/-- A gap can be cut in two. -/
theorem cut_gap (H : Tiled h (ts₁ ++ (s, xs ++ .gap (n + k) :: ys) :: ts₂)) (hn : n % 8 = 0) :
    Tiled h (ts₁ ++ (s, xs ++ .gap n :: .gap k :: ys) :: ts₂) := by
  obtain ⟨hxs, hnk, hys⟩ := Layout.append_iff.mp H.middle.layout
  have hnk' : (n + k) % 8 = 0 := hnk
  have hk : k % 8 = 0 := by omega
  refine H.rewrite (H.toArranged.replace rfl rfl (fun _ _ => rfl) ?_ ?_) rfl rfl ?_
  · refine Layout.append_iff.mpr ⟨hxs, hn, hk, ?_⟩
    change Layout h.mem .gap (s.first + totalOf xs + n + k) ys
    rw [Nat.add_assoc]
    exact hys
  · simp only [totalOf_append, totalOf_cons, Piece.total]
    omega
  · simp only [freesOf_append, freesOf, Nat.add_assoc]

/-- An in-use block is taken into the hands. -/
theorem release (H : Tiled h (ts₁ ++ (s, xs ++ .used n :: ys) :: ts₂)) :
    Tiled h (ts₁ ++ (s, xs ++ .gap n :: ys) :: ts₂) := by
  obtain ⟨hxs, hused, hys⟩ := Layout.append_iff.mp H.middle.layout
  refine H.rewrite (H.toArranged.replace rfl rfl (fun _ _ => rfl) ?_ ?_) rfl rfl ?_
  · exact Layout.append_iff.mpr ⟨hxs, hused.aligned, hys.behind_gap⟩
  · simp only [totalOf_append, totalOf_cons, Piece.total]
  · simp only [freesOf_append, freesOf]

/-- A free block is put into a gap, and takes the free block behind the gap with it. -/
theorem createFreeBlock (H : Tiled h (ts₁ ++ (s, xs ++ .gap n :: ys) :: ts₂))
    (hp : p = s.first + totalOf xs) (hn : 24 ≤ n)
    (hprev : ∀ q, lastBefore .used s.first xs ≠ .free q) (hys : Whole ys) :
    ∃ n' zs, Tiled (h.createFreeBlock s p n) (ts₁ ++ (s, xs ++ .free n' :: zs) :: ts₂) ∧
      (n' = n ∧ zs = ys ∨ ∃ k, ys = .free k :: zs ∧ n' = n + k) ∧ Settled zs ∧
      ∀ i, i < p ∨ p + n' + 4 ≤ i ∨ s.limit ≤ i →
        (h.createFreeBlock s p n).mem i = h.mem i := by
  obtain ⟨hfilled, hlt, haligned, hxs, -⟩ := bounds H.toArranged
  rw [← hp] at hfilled
  have hout : ∀ i, i < p ∨ p + 8 ≤ i → setWord h.mem (p + 4) arenaFreeMagic i = h.mem i :=
    fun i hi => setWord_of_not_mem (by omega)
  have H₁ : Tiled { h with mem := setWord h.mem (p + 4) arenaFreeMagic }
      (ts₁ ++ (s, xs ++ .gap n :: ys) :: ts₂) := H.write_gap hp fun i hi => hout i (by omega)
  have hmagic : word (setWord h.mem (p + 4) arenaFreeMagic) (p + 4) = arenaFreeMagic :=
    word_setWord (by decide)
  have hlayout := (bounds H₁.toArranged).2.2.2.2
  rw [← hp] at hlayout
  have hplain : Settled ys → ¬ (p + n < s.limit ∧
      IsFree (word (setWord h.mem (p + 4) arenaFreeMagic) (p + n))) →
      ∃ n' zs, Tiled (h.createFreeBlock s p n) (ts₁ ++ (s, xs ++ .free n' :: zs) :: ts₂) ∧
        (n' = n ∧ zs = ys ∨ ∃ k, ys = .free k :: zs ∧ n' = n + k) ∧ Settled zs ∧
        ∀ i, i < p ∨ p + n' + 4 ≤ i ∨ s.limit ≤ i →
        (h.createFreeBlock s p n).mem i = h.mem i := by
    intro hsettled hno
    obtain ⟨hT, hframe⟩ := H₁.closeFreeBlock hp hn hprev hsettled hmagic
    simp only [Heap.createFreeBlock]
    rw [if_neg hno]
    refine ⟨n, ys, hT, Or.inl ⟨rfl, rfl⟩, hsettled, fun i hi => ?_⟩
    rw [hframe i hi]
    exact hout i (by omega)
  cases ys with
  | nil =>
    apply hplain (Or.inl rfl)
    rw [totalOf_nil] at hfilled
    omega
  | cons c ys =>
    cases c with
    | gap k => exact absurd List.mem_cons_self (hys k)
    | used k => exact hplain (Or.inr ⟨k, ys, rfl⟩) fun h => hlayout.1.inuse h.2
    | free k =>
      obtain ⟨hfree, hrest⟩ := hlayout
      have hk := hfree.le
      have hsettled : Settled ys :=
        settled_of_free hrest fun j hj => hys j (List.mem_cons_of_mem _ hj)
      have H₂ : Tiled ({ h with mem := setWord h.mem (p + 4) arenaFreeMagic }.listRemove (p + n))
          (ts₁ ++ (s, xs ++ .gap (n + k) :: ys) :: ts₂) := by
        have H₁' := H₁
        rw [List.append_cons xs (.gap n)] at H₁'
        have hT := H₁'.take (p := p + n) (by
          rw [totalOf_append, hp, totalOf_cons, totalOf_nil, Nat.add_zero, ← Nat.add_assoc]
          rfl)
        rw [← List.append_cons xs (.gap n)] at hT
        exact hT.merge_gaps
      obtain ⟨hT, hframe⟩ := H₂.closeFreeBlock hp (by omega) hprev hsettled hmagic
      have hyes : p + n < s.limit ∧
          IsFree (word (setWord h.mem (p + 4) arenaFreeMagic) (p + n)) := by
        rw [totalOf_cons] at hfilled
        simp only [Piece.total] at hfilled
        exact ⟨by omega, isFree_of_freeAt hfree⟩
      simp only [Heap.createFreeBlock]
      rw [if_pos hyes, sizeOf_of_freeAt hfree]
      refine ⟨n + k, ys, hT, Or.inr ⟨k, rfl, rfl⟩, hsettled, fun i hi => ?_⟩
      rw [hframe i hi]
      exact hout i (by omega)

/-- A block in the hands whose header is that of an in-use block is put back. -/
theorem putBack (H : Tiled h (ts₁ ++ (s, xs ++ .gap n :: ys) :: ts₂))
    (hp : p = s.first + totalOf xs) (hused : UsedAt m (lastBefore .used s.first xs) p n)
    (hlayout : Layout m .used (p + n) ys) (hm : ∀ i, i < p ∨ s.limit ≤ i → m i = h.mem i) :
    Tiled { h with mem := m } (ts₁ ++ (s, xs ++ .used n :: ys) :: ts₂) := by
  obtain ⟨hfilled, -, -, hxs, -⟩ := bounds H.toArranged
  rw [← hp] at hfilled
  refine H.rewrite (H.toArranged.replace rfl rfl ?_ ?_ ?_) rfl rfl ?_
  · exact fun i hi => hm i (by omega)
  · refine Layout.append_iff.mpr ⟨hxs.congr ?_ ?_, ?_, ?_⟩
    · exact fun i _ hi => hm i (.inl (by omega))
    · intro q hq
      cases hq
    · rw [← hp]
      exact hused
    · rw [← hp]
      exact hlayout
  · simp only [totalOf_append, totalOf_cons, Piece.total]
  · simp only [freesOf_append, freesOf]

theorem shrinkBlock_split {size : ℕ}
    (H : Tiled h (ts₁ ++ (s, xs ++ .gap (8 + size + k) :: ys) :: ts₂))
    (hp : p = s.first + totalOf xs)
    (hused : UsedAt h.mem (lastBefore .used s.first xs) p (8 + size + k))
    (hys : Whole ys) (hsize : 16 ≤ size) (haligned : size % 8 = 0) (hk : 32 ≤ k) :
    ∃ zs, Shrunk h { h.createFreeBlock s (p + 8 + size) k with
        mem := setWord (h.createFreeBlock s (p + 8 + size) k).mem p
          (size + word (h.createFreeBlock s (p + 8 + size) k).mem p % 4) }
      ts₁ ts₂ s xs ys p (8 + size + k) (8 + size) zs := by
  have Hcut := H.cut_gap (n := 8 + size) (by omega)
  rw [List.append_cons xs (.gap (8 + size))] at Hcut
  have hp' : p + 8 + size = s.first + totalOf (xs ++ [.gap (8 + size)]) := by
    rw [totalOf_append, totalOf_cons, totalOf_nil, hp]
    simp only [Piece.total]
    omega
  obtain ⟨n', zs, H₁, hcases, hsettled, hframe⟩ := Hcut.createFreeBlock hp' (by omega)
    (by rw [lastBefore_append]; intro q hq; cases hq) hys
  rw [← List.append_cons xs (.gap (8 + size))] at H₁
  have hb := createFreeBlock_beside h s (p + 8 + size) k
  generalize h.createFreeBlock s (p + 8 + size) k = h₁ at *
  obtain ⟨hfilled, hlt, -, -, hlayout⟩ := bounds H₁.toArranged
  rw [← hp] at hfilled hlayout
  have hbase : 0x10000 ≤ s.base := H.middle.wellFormed.base_ge
  have hfirst : s.base ≤ s.first := Nat.le_add_right _ _
  have hword : word h₁.mem p = word h.mem p :=
    word_congr fun i _ _ => hframe i (.inl (by omega))
  have hflags : word h.mem p % 4 < 4 := Nat.mod_lt _ (by decide)
  have hsum : size + word h.mem p % 4 < sizeLimit := by omega
  have hm : ∀ i, i < p ∨ p + 4 ≤ i → setWord h₁.mem p (size + word h₁.mem p % 4) i = h₁.mem i :=
    fun i hi => setWord_of_not_mem hi
  have hzs : Whole zs := by
    rcases hcases with ⟨-, rfl⟩ | ⟨k', rfl, -⟩
    · exact hys
    · exact Whole.tail hys
  have husedOf : usedOf (p + (8 + size) + n') zs = usedOf (p + (8 + size + k)) ys := by
    rcases hcases with ⟨rfl, rfl⟩ | ⟨k', rfl, rfl⟩
    · rw [Nat.add_assoc p]
    · simp only [Wine.Heaps.usedOf, Nat.add_assoc]
  refine ⟨.free n' :: zs, ⟨hb.address, hb.subheaps, hb.flags⟩, ?_, ?_, ?_, husedOf,
    ?_, ?_, ?_⟩
  · refine H₁.putBack hp ?_ ?_ ?_
    · rw [hword]
      have hwm : word (setWord h₁.mem p (size + word h.mem p % 4)) p = size + word h.mem p % 4 :=
        word_setWord hsum
      have hinuse := hused.inuse
      rw [IsFree] at hinuse
      refine ⟨by omega, by omega, ?_, ?_, ?_, ?_⟩
      · rw [← hused.magic]
        refine load_congr fun i hi _ => ?_
        rw [← hword, hm i (by omega), hframe i (by omega)]
      · rw [hwm, IsFree]
        omega
      · rw [hwm, sizeOf]
        omega
      · refine hused.flagged.congr ?_ fun _ _ => word_congr fun i _ hi => ?_
        · rw [hwm, IsPrevFree, IsPrevFree]
          omega
        · rw [← hword, hm i (by omega), hframe i (by omega)]
    · refine layout_free_behind_used (hlayout.congr ?_ fun q hq => by cases hq)
      exact fun i hi _ => hm i (by omega)
    · exact fun i hi => hm i (by omega)
  · intro j hj
    rcases List.mem_cons.mp hj with hj | hj
    · cases hj
    · exact hzs j hj
  · refine .inr ⟨by omega, ?_⟩
    rcases hcases with ⟨rfl, rfl⟩ | ⟨k', rfl, rfl⟩
    · exact ⟨n', zs, rfl, .inl rfl, by omega⟩
    · refine ⟨k + k', zs, rfl, .inr ⟨k', rfl⟩, ?_⟩
      rw [totalOf_cons, Piece.total]
      omega
  · intro i hi hi'
    change setWord h₁.mem p (size + word h₁.mem p % 4) i = h.mem i
    rw [hm i (by omega), hframe i (by omega)]
  · intro i hi
    change setWord h₁.mem p (size + word h₁.mem p % 4) i = h.mem i
    rw [hm i (by omega), hframe i (by omega)]
  · intro q j hq i hi _
    rw [← husedOf] at hq
    have hbq := usedOf_bounds hq
    change setWord h₁.mem p (size + word h₁.mem p % 4) i = h.mem i
    rw [hm i (by omega), hframe i (by omega)]

theorem shrinkBlock_whole (H : Tiled h (ts₁ ++ (s, xs ++ .gap n :: ys) :: ts₂))
    (hp : p = s.first + totalOf xs) (hused : UsedAt h.mem (lastBefore .used s.first xs) p n)
    (hys : Whole ys) :
    Shrunk h (if p + n < s.limit then
        { h with mem := setWord h.mem (p + n) (clearPrevFree (word h.mem (p + n))) } else h)
      ts₁ ts₂ s xs ys p n n ys := by
  obtain ⟨hfilled, hlimit, -, -, hlayout⟩ := bounds H.toArranged
  rw [← hp] at hfilled hlayout
  have hn := hused.le
  split
  · next hnext =>
    have hm : ∀ i, i < p + n ∨ p + n + 4 ≤ i →
        setWord h.mem (p + n) (clearPrevFree (word h.mem (p + n))) i = h.mem i :=
      fun i hi => setWord_of_not_mem hi
    have hw : word (setWord h.mem (p + n) (clearPrevFree (word h.mem (p + n)))) (p + n) =
        clearPrevFree (word h.mem (p + n)) := by
      apply word_setWord
      have h32 := @word_lt h.mem (p + n)
      rw [clearPrevFree]
      omega
    have hnil : ys ≠ [] := by
      rintro rfl
      rw [totalOf_nil] at hfilled
      omega
    have hfits : p + n + 4 ≤ s.limit := by
      have hpos := hlayout.le_totalOf hys hnil
      omega
    refine ⟨⟨rfl, rfl, rfl⟩, ?_, hys, .inl ⟨rfl, rfl⟩, rfl, ?_, ?_, ?_⟩
    · refine H.putBack hp (usedAt_congr hused fun i _ _ => hm i (by omega)) ?_ ?_
      · exact layout_clearPrevFree hlayout hys hw fun i hi => hm i (by omega)
      · exact fun i hi => hm i (by omega)
    · exact fun i hi _ => hm i (by omega)
    · exact fun i hi => hm i (by omega)
    · intro q k hq i hi _
      have hb := usedOf_bounds hq
      exact hm i (by omega)
  · next hend =>
    have hnil : ys = [] := by
      by_contra hne
      have hpos := hlayout.le_totalOf hys hne
      omega
    subst hnil
    refine ⟨⟨rfl, rfl, rfl⟩, ?_, hys, .inl ⟨rfl, rfl⟩, rfl, fun _ _ _ => rfl, fun _ _ => rfl,
      fun _ _ _ _ _ _ => rfl⟩
    exact H.putBack hp hused trivial fun _ _ => rfl

/-- A block that is not much larger than what is asked for is put back as it is. -/
theorem shrinkBlock_keep {size : ℕ} (H : Tiled h (ts₁ ++ (s, xs ++ .gap n :: ys) :: ts₂))
    (hp : p = s.first + totalOf xs) (hused : UsedAt h.mem (lastBefore .used s.first xs) p n)
    (hys : Whole ys) (hlt : n < (size + heapMinShrinkSize) % sizeLimit + 8) :
    ∃ h', h.shrinkBlock s p size = some h' ∧ Shrunk h h' ts₁ ts₂ s xs ys p n n ys := by
  have hn := hused.le
  have hshrunk := H.shrinkBlock_whole hp hused hys
  have hnext : p + arenaInuseSize + (n - 8) = p + n := by
    simp only [arenaInuseSize]
    omega
  simp only [Heap.shrinkBlock, hused.size, hnext]
  rw [if_neg (by omega)]
  split at hshrunk
  · next hlt =>
    rw [if_pos hlt]
    exact ⟨_, rfl, hshrunk⟩
  · next hge =>
    rw [if_neg hge]
    exact ⟨_, rfl, hshrunk⟩

/-- Shrinking a block in the hands succeeds. -/
theorem shrinkBlock {size : ℕ} (H : Tiled h (ts₁ ++ (s, xs ++ .gap n :: ys) :: ts₂))
    (hp : p = s.first + totalOf xs) (hused : UsedAt h.mem (lastBefore .used s.first xs) p n)
    (hys : Whole ys) (hsize : 16 ≤ size) (haligned : size % 8 = 0) (hle : size + 8 ≤ n) :
    ∃ h' n' zs, h.shrinkBlock s p size = some h' ∧ Shrunk h h' ts₁ ts₂ s xs ys p n n' zs ∧
      size + 8 ≤ n' ∧ n' ≤ n ∧ n' < size + 40 ∧ (n' = n ∨ n' = size + 8) := by
  obtain ⟨hfilled, hlimit, hn8, -, -⟩ := bounds H.toArranged
  rw [← hp] at hfilled
  have hbase : 0x10000 ≤ s.base := H.middle.wellFormed.base_ge
  have hfirst : s.base ≤ s.first := Nat.le_add_right _ _
  have hmod : (size + heapMinShrinkSize) % sizeLimit = size + 32 :=
    Nat.mod_eq_of_lt (show size + 32 < sizeLimit by omega)
  rcases Nat.lt_or_ge n (size + 40) with hlt | hge
  · have hkeep : n < (size + heapMinShrinkSize) % sizeLimit + 8 := by omega
    obtain ⟨h', heq, hshrunk⟩ := H.shrinkBlock_keep hp hused hys hkeep
    exact ⟨h', n, ys, heq, hshrunk, hle, Nat.le_refl _, hlt, .inl rfl⟩
  · obtain ⟨k, rfl⟩ : ∃ k, n = 8 + size + k := ⟨n - (8 + size), by omega⟩
    obtain ⟨zs, hshrunk⟩ := H.shrinkBlock_split hp hused hys hsize haligned (by omega)
    have hk : 8 + size + k - 8 - size = k := by omega
    refine ⟨_, 8 + size, zs, ?_, hshrunk, by omega, by omega, by omega, by omega⟩
    simp only [Heap.shrinkBlock, hused.size, hmod]
    rw [if_pos (by omega), if_neg (by omega), hk]
    rfl

end Tiled

end Wine.Heaps
