import Wine.Heaps.Layout

/-!
# Gaps

An operation takes a block into its hands, which leaves a gap, and puts blocks into gaps. What is
written to a gap disturbs nothing; a free arena that is put into one is told to the block behind it
and inserted into the list.
-/

namespace Wine.Heaps
open Wine.Lib Reading

variable {h h' : Heap} {ts ts' ts₁ ts₂ : List Tile} {s s' : SubHeap}
  {cs cs' xs ys zs : List Piece} {m m' : Memory} {p q n k : ℕ}

/-- The other tiles are tiles. -/
theorem mem_middle {t t' : Tile} (ht : t ∈ ts₁ ++ ts₂) : t ∈ ts₁ ++ t' :: ts₂ := by
  rcases List.mem_append.mp ht with ht | ht
  · exact List.mem_append_left _ ht
  · exact List.mem_append_right _ (List.mem_cons_of_mem _ ht)

namespace Arranged

theorem tile_mem : (s, cs) ∈ ts₁ ++ (s, cs) :: ts₂ := List.mem_append_right _ List.mem_cons_self

theorem middle (H : Arranged h (ts₁ ++ (s, cs) :: ts₂)) : TileAt h.mem (s, cs) := H.tile _ tile_mem

/-- Another sub-heap lies apart from this one. -/
theorem other_apart (H : Arranged h (ts₁ ++ (s, cs) :: ts₂)) {t : Tile} (ht : t ∈ ts₁ ++ ts₂) :
    t.1.limit ≤ s.base ∨ s.limit ≤ t.1.base := by
  obtain ⟨-, hright, hcross⟩ := List.pairwise_append.mp H.apart
  rcases List.mem_append.mp ht with ht | ht
  · have h := hcross t ht (s, cs) List.mem_cons_self
    exact h
  · have h := (List.pairwise_cons.mp hright).1 t ht
    exact h.symm

/-- The first tile is the primary one also when one tile is exchanged in its place. -/
theorem primary_exchange (H : Arranged h (ts₁ ++ (s, cs) :: ts₂)) (hbase : s'.base = s.base)
    (hheader : s'.headerSize = s.headerSize) :
    ∃ t ts', ts₁ ++ (s', cs') :: ts₂ = t :: ts' ∧ t.1.base = h.address ∧
      t.1.headerSize = heapSize ∧ ∀ t' ∈ ts', t'.1.headerSize = subheapSize := by
  obtain ⟨t, ts', hts, haddress, hfirst, hrest⟩ := H.primary
  cases ts₁ with
  | nil =>
    obtain ⟨rfl, rfl⟩ := List.cons.inj hts
    exact ⟨(s', cs'), ts₂, rfl, hbase.trans haddress, hheader.trans hfirst, hrest⟩
  | cons t₁ ts₁ =>
    obtain ⟨rfl, rfl⟩ := List.cons.inj hts
    refine ⟨t₁, ts₁ ++ (s', cs') :: ts₂, rfl, haddress, hfirst, ?_⟩
    intro t' ht'
    rcases List.mem_append.mp ht' with ht' | ht'
    · exact hrest t' (List.mem_append_left _ ht')
    · rcases List.mem_cons.mp ht' with rfl | ht'
      · exact hheader.trans (hrest (s, cs) tile_mem)
      · exact hrest t' (List.mem_append_right _ (List.mem_cons_of_mem _ ht'))

/-- What is exchanged in its place stays apart from the others. -/
theorem apart_exchange (H : Arranged h (ts₁ ++ (s, cs) :: ts₂)) (hbase : s'.base = s.base)
    (hlimit : s'.limit = s.limit) :
    (ts₁ ++ (s', cs') :: ts₂).Pairwise fun t t' =>
      t.1.limit ≤ t'.1.base ∨ t'.1.limit ≤ t.1.base := by
  obtain ⟨hleft, hright, hcross⟩ := List.pairwise_append.mp H.apart
  obtain ⟨hhead, htail⟩ := List.pairwise_cons.mp hright
  refine List.pairwise_append.mpr ⟨hleft, List.pairwise_cons.mpr ⟨?_, htail⟩, ?_⟩
  · intro t ht
    have hold := hhead t ht
    rw [← hbase, ← hlimit] at hold
    exact hold
  · intro t ht t' ht'
    rcases List.mem_cons.mp ht' with rfl | ht'
    · have hold := hcross t ht (s, cs) List.mem_cons_self
      rw [← hbase, ← hlimit] at hold
      exact hold
    · exact hcross t ht t' (List.mem_cons_of_mem _ ht')

/-- The pieces of one sub-heap are replaced; the memory outside it is as before. -/
theorem replace (H : Arranged h (ts₁ ++ (s, cs) :: ts₂)) (haddress : h'.address = h.address)
    (hsubheaps : h'.subheaps = h.subheaps)
    (hm : ∀ i, i < s.first ∨ s.limit ≤ i → h'.mem i = h.mem i)
    (hlayout : Layout h'.mem .used s.first cs') (htotal : totalOf cs' = totalOf cs) :
    Arranged h' (ts₁ ++ (s, cs') :: ts₂) where
  subheaps := by rw [hsubheaps, H.subheaps, List.map_append, List.map_append]; rfl
  primary := by
    rw [haddress]
    exact H.primary_exchange rfl rfl
  apart := H.apart_exchange rfl rfl
  tile := by
    have hold := H.middle
    have hothers : ∀ t ∈ ts₁ ++ ts₂, TileAt h'.mem t := by
      intro t ht
      have ht' : t ∈ ts₁ ++ (s, cs) :: ts₂ := mem_middle ht
      have hapart := H.other_apart ht
      have htile := H.tile t ht'
      have hfirst : t.1.base ≤ t.1.first := Nat.le_add_right _ _
      have hfirst' : s.base ≤ s.first := Nat.le_add_right _ _
      refine ⟨htile.wellFormed, htile.layout.congr ?_ (fun p hp => by cases hp), htile.filled⟩
      intro i hi hi'
      rw [htile.filled] at hi'
      exact hm i (by omega)
    intro t ht
    rcases List.mem_append.mp ht with ht | ht
    · exact hothers t (List.mem_append_left _ ht)
    · rcases List.mem_cons.mp ht with rfl | ht
      · refine ⟨hold.wellFormed, hlayout, ?_⟩
        have hfilled := hold.filled
        simp only at hfilled ⊢
        rw [htotal, hfilled]
      · exact hothers t (List.mem_append_right _ ht)
  heads := by
    intro i hi
    have hout := H.head_outside tile_mem hi
    have hhead : h'.freeListHead i = h.freeListHead i := by
      rw [Heap.freeListHead, Heap.freeListHead, haddress]
    rw [hhead, ← H.heads i hi]
    refine word_congr fun j hj hj' => hm j ?_
    simp only [arenaFreeSize] at hout
    omega
  magic := by
    intro i hi
    have hout := H.head_outside tile_mem hi
    have hhead : h'.freeListHead i = h.freeListHead i := by
      rw [Heap.freeListHead, Heap.freeListHead, haddress]
    rw [hhead, ← H.magic i hi]
    refine word_congr fun j hj hj' => hm j ?_
    simp only [arenaFreeSize] at hout
    omega

end Arranged

theorem heads_nodup (h : Heap) : h.heads.Nodup := by
  apply List.Nodup.map
  · intro i j hij
    simp only [Heap.freeListHead, arenaFreeSize] at hij
    omega
  · exact List.nodup_range

theorem Layout.freesOf_nodup {before : Before} {a : ℕ} (h : Layout m before a cs) :
    ((freesOf a cs).map Prod.fst).Nodup := by
  induction cs generalizing before a with
  | nil => exact List.nodup_nil
  | cons c cs ih =>
    cases c with
    | free n =>
      have hle := h.1.le
      refine List.nodup_cons.mpr ⟨?_, ih h.2⟩
      intro ha
      obtain ⟨⟨q, k⟩, hq, rfl⟩ := List.mem_map.mp ha
      have hb := freesOf_bounds hq
      simp only at hb
      omega
    | used n => exact ih h.2
    | gap n => exact ih h.2

theorem freesIn_middle : freesIn (ts₁ ++ (s, cs) :: ts₂) =
    freesIn ts₁ ++ ((freesOf s.first cs).map Prod.fst ++ freesIn ts₂) := by
  simp [freesIn]

/-- No address is twice among the heads and the free blocks. -/
theorem Arranged.nodup (H : Arranged h ts) : (h.heads ++ freesIn ts).Nodup := by
  refine List.nodup_append.mpr ⟨heads_nodup h, ?_, ?_⟩
  · refine List.nodup_flatMap.mpr ⟨fun t ht => (H.tile t ht).layout.freesOf_nodup, ?_⟩
    refine H.apart.imp_of_mem ?_
    intro t t' ht ht' hapart p hp hp'
    obtain ⟨⟨q, k⟩, hq, rfl⟩ := List.mem_map.mp hp
    obtain ⟨⟨q', k'⟩, hq', heq⟩ := List.mem_map.mp hp'
    simp only at heq
    subst heq
    have hb := H.free_bounds ht hq
    have hb' := H.free_bounds ht' hq'
    obtain ⟨_, hfree⟩ := H.freeAt ⟨t, ht, hq⟩
    obtain ⟨_, hfree'⟩ := H.freeAt ⟨t', ht', hq'⟩
    have hle := hfree.le
    have hle' := hfree'.le
    have hbase : t.1.base ≤ t.1.first := Nat.le_add_right _ _
    have hbase' : t'.1.base ≤ t'.1.first := Nat.le_add_right _ _
    omega
  · intro p hp q hq heq
    subst heq
    obtain ⟨i, hi, rfl⟩ := Heap.mem_heads.mp hp
    obtain ⟨n, t, ht, hn⟩ := mem_freesIn.mp hq
    have hb := H.free_bounds ht hn
    obtain ⟨_, hfree⟩ := H.freeAt ⟨t, ht, hn⟩
    have hle := hfree.le
    have hout := H.head_outside ht hi
    simp only [arenaFreeSize] at hout
    omega

namespace Tiled

/-- The keys of the list depend on the pieces alone. -/
theorem nodeKey_eq (H : Tiled h ts) (A : Arranged h' ts') (haddress : h'.address = h.address)
    (hsub : ∀ q k, FreeIn ts q k → FreeIn ts' q k) (hq : q ∈ h.freeList) :
    h'.nodeKey q = h.nodeKey q := by
  rcases H.mem_freeList.mp hq with hq | ⟨k, hk⟩
  · obtain ⟨i, hi, rfl⟩ := Heap.mem_heads.mp hq
    have hhead : h'.freeListHead i = h.freeListHead i := by
      rw [Heap.freeListHead, Heap.freeListHead, haddress]
    rw [Heap.nodeKey_head hi, ← hhead, Heap.nodeKey_head hi]
  · rw [H.nodeKey_free hk, A.nodeKey_free (hsub q k hk)]

theorem heads_eq (haddress : h'.address = h.address) : h'.heads = h.heads := by
  refine List.map_congr_left fun i _ => ?_
  rw [Heap.freeListHead, Heap.freeListHead, haddress]

theorem freeIn_middle : FreeIn (ts₁ ++ (s, cs) :: ts₂) q k ↔
    FreeIn (ts₁ ++ ts₂) q k ∨ (q, k) ∈ freesOf s.first cs := by
  simp only [FreeIn, List.mem_append, List.mem_cons]
  constructor
  · rintro ⟨t, ht | rfl | ht, hq⟩
    · exact Or.inl ⟨t, Or.inl ht, hq⟩
    · exact Or.inr hq
    · exact Or.inl ⟨t, Or.inr ht, hq⟩
  · rintro (⟨t, ht | ht, hq⟩ | hq)
    · exact ⟨t, Or.inl ht, hq⟩
    · exact ⟨t, Or.inr (Or.inr ht), hq⟩
    · exact ⟨(s, cs), Or.inr (Or.inl rfl), hq⟩

/-- The pieces of one sub-heap change, but not its free blocks. -/
theorem rewrite (H : Tiled h (ts₁ ++ (s, cs) :: ts₂)) (A : Arranged h' (ts₁ ++ (s, cs') :: ts₂))
    (haddress : h'.address = h.address) (hlist : h'.freeList = h.freeList)
    (hfrees : freesOf s.first cs' = freesOf s.first cs) : Tiled h' (ts₁ ++ (s, cs') :: ts₂) where
  toArranged := A
  listed := by
    rw [hlist, heads_eq haddress, freesIn_middle, hfrees, ← freesIn_middle]
    exact H.listed
  ordered := by
    rw [hlist]
    refine H.ordered.congr fun q hq => H.nodeKey_eq A haddress ?_ hq
    intro q k hk
    rw [freeIn_middle, hfrees, ← freeIn_middle]
    exact hk

/-- A free block is taken from the list, and leaves a gap. -/
theorem take (H : Tiled h (ts₁ ++ (s, xs ++ .free n :: ys) :: ts₂)) (hp : p = s.first + totalOf xs) :
    Tiled (h.listRemove p) (ts₁ ++ (s, xs ++ .gap n :: ys) :: ts₂) where
  toArranged := by
    obtain ⟨hxs, hfree, hys⟩ := Layout.append_iff.mp H.middle.layout
    refine H.replace rfl rfl (fun _ _ => rfl) ?_ ?_
    · exact Layout.append_iff.mpr ⟨hxs, hfree.aligned, hys.behind_gap⟩
    · simp only [totalOf_append, totalOf_cons]
      rfl
  listed := by
    have hperm : (freesIn (ts₁ ++ (s, xs ++ .free n :: ys) :: ts₂)).Perm
        (p :: freesIn (ts₁ ++ (s, xs ++ .gap n :: ys) :: ts₂)) := by
      simp only [freesIn_middle, freesOf_append, freesOf, List.map_append, List.map_cons,
        List.append_assoc, List.cons_append, ← hp]
      rw [← List.append_assoc, ← List.append_assoc]
      exact List.perm_middle
    have hall := H.listed.trans (List.Perm.append_left h.heads hperm)
    have hcons := hall.trans List.perm_middle
    have herase := hcons.erase p
    rw [List.erase_cons_head] at herase
    exact herase
  ordered := H.ordered.erase p

theorem insert (H : Tiled h (ts₁ ++ (s, cs) :: ts₂)) (A : Arranged h' (ts₁ ++ (s, cs') :: ts₂))
    (haddress : h'.address = h.address)
    (hfrees : (freesOf s.first cs').Perm ((p, n) :: freesOf s.first cs)) (last : Bool)
    (hlist : h'.freeList =
      if last then
        addBefore (h.freeListHead ((getFreelistIndex n + 1) % heapNbFreeLists)) p h.freeList
      else addAfter (h.freeListHead (getFreelistIndex n)) p h.freeList) :
    Tiled h' (ts₁ ++ (s, cs') :: ts₂) := by
  have hi := getFreelistIndex_lt n
  have h11 : heapNbFreeLists = 11 := rfl
  have hnew : FreeIn (ts₁ ++ (s, cs') :: ts₂) p n :=
    freeIn_middle.mpr (.inr (hfrees.mem_iff.mpr List.mem_cons_self))
  have hsub : ∀ q k, FreeIn (ts₁ ++ (s, cs) :: ts₂) q k → FreeIn (ts₁ ++ (s, cs') :: ts₂) q k := by
    intro q k hk
    rcases freeIn_middle.mp hk with hk | hk
    · exact freeIn_middle.mpr (.inl hk)
    · exact freeIn_middle.mpr (.inr (hfrees.mem_iff.mpr (List.mem_cons_of_mem _ hk)))
  have hperm : (h'.heads ++ freesIn (ts₁ ++ (s, cs') :: ts₂)).Perm
      (p :: (h.heads ++ freesIn (ts₁ ++ (s, cs) :: ts₂))) := by
    rw [heads_eq haddress, freesIn_middle, freesIn_middle]
    have hmap := hfrees.map Prod.fst
    rw [List.map_cons] at hmap
    have hin := (hmap.append_right (freesIn ts₂)).append_left (h.heads ++ freesIn ts₁)
    rw [List.append_assoc, List.cons_append] at hin
    have hout := hin.trans List.perm_middle
    rwa [List.append_assoc] at hout
  have hp : p ∉ h.freeList := by
    have hnodup := hperm.nodup_iff.mp A.nodup
    rw [H.listed.mem_iff]
    exact (List.nodup_cons.mp hnodup).1
  have hkeys : Ordered h'.nodeKey h.freeList :=
    H.ordered.congr fun q hq => H.nodeKey_eq A haddress hsub hq
  have hkey : h'.nodeKey p = 2 * getFreelistIndex n + 1 := A.nodeKey_free hnew
  have hcases : ∀ q ∈ h.freeList,
      (∃ i < heapNbFreeLists, q = h.freeListHead i ∧ h'.nodeKey q = 2 * i) ∨
      ∃ i < heapNbFreeLists, h'.nodeKey q = 2 * i + 1 := by
    intro q hq
    rw [H.nodeKey_eq A haddress hsub hq]
    rcases H.mem_freeList.mp hq with hq | ⟨k, hk⟩
    · obtain ⟨i, hi, rfl⟩ := Heap.mem_heads.mp hq
      exact Or.inl ⟨i, hi, rfl, Heap.nodeKey_head hi⟩
    · exact Or.inr ⟨_, getFreelistIndex_lt k, H.nodeKey_free hk⟩
  have hhead : ∀ i < heapNbFreeLists, h'.nodeKey (h.freeListHead i) = 2 * i := by
    intro i hi
    rw [H.nodeKey_eq A haddress hsub (H.head_mem hi), Heap.nodeKey_head hi]
  have hunique : ∀ i < heapNbFreeLists, ∀ q ∈ h.freeList, h'.nodeKey q = 2 * i →
      q = h.freeListHead i := by
    intro i hi q hq hkey
    rcases hcases q hq with ⟨j, hj, rfl, hj'⟩ | ⟨j, hj, hj'⟩
    · rw [show j = i by omega]
    · omega
  refine ⟨A, ?_, ?_⟩
  · refine List.Perm.trans ?_ hperm.symm
    rw [hlist]
    split
    · refine (hkeys.addBefore_perm (H.head_mem ?_)).trans (H.listed.cons p)
      exact Nat.mod_lt _ (by decide)
    · exact (hkeys.addAfter_perm (H.head_mem hi)).trans (H.listed.cons p)
  · rw [hlist]
    cases last with
    | false =>
      refine hkeys.addAfter (H.head_mem hi) hp ?_ ?_ ?_
      · rw [hhead _ hi, hkey]
        omega
      · intro q _ _
        rw [hhead _ hi, hkey]
        omega
      · intro q hq hqk
        rw [hhead _ hi] at hqk
        exact hunique _ hi q hq hqk
    | true =>
      have hfirst : h.freeList.head? = some (h.freeListHead 0) := by
        have h0 := H.head_mem (i := 0) (by decide)
        cases hl : h.freeList with
        | nil => rw [hl] at h0; cases h0
        | cons a l =>
          have ha : a ∈ h.freeList := by rw [hl]; exact List.mem_cons_self
          have hkey0 := hhead 0 (by decide)
          rw [List.head?_cons, Option.some.injEq]
          rw [hl] at h0
          rcases List.mem_cons.mp h0 with heq | h0
          · exact heq.symm
          · apply hunique 0 (by decide) a ha
            have hsorted := hkeys.sorted
            rw [hl] at hsorted
            have hle := (List.pairwise_cons.mp hsorted).1 _ h0
            omega
      rw [if_pos rfl, addBefore, hfirst]
      rcases Nat.lt_or_ge (getFreelistIndex n) 10 with hlt | hge
      · have hmod : (getFreelistIndex n + 1) % heapNbFreeLists = getFreelistIndex n + 1 :=
          Nat.mod_eq_of_lt (by omega)
        have hi' : getFreelistIndex n + 1 < heapNbFreeLists := by omega
        rw [hmod, if_neg]
        · refine hkeys.insertBefore (H.head_mem hi') hp ?_ ?_ ?_
          · rw [hhead _ hi', hkey]
            omega
          · intro q _ hq
            rw [hhead _ hi'] at hq
            rw [hkey]
            omega
          · intro q hq hqk
            rw [hhead _ hi'] at hqk
            exact hunique _ hi' q hq hqk
        · simp only [Heap.freeListHead, arenaFreeSize, Option.some.injEq]
          omega
      · have hmod : (getFreelistIndex n + 1) % heapNbFreeLists = 0 := by
          rw [show getFreelistIndex n = 10 by omega]
          rfl
        rw [hmod, if_pos rfl]
        refine hkeys.append hp fun q hq => ?_
        rw [hkey]
        rcases hcases q hq with ⟨j, hj, -, hj'⟩ | ⟨j, hj, hj'⟩ <;> omega

end Tiled

end Wine.Heaps
