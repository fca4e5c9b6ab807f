import Wine.Heaps.Calls

/-!
# Freeing

A block is merged with the free blocks on both sides of it. At the end of a secondary sub-heap that
has become empty the sub-heap goes; at the end of another one memory may be decommitted.
-/

namespace Wine.Heaps
open Wine.Lib Reading

variable {h h' h'' : Heap} {ts ts' ts'' ts₁ ts₂ : List Tile} {s : SubHeap}
  {cs cs' xs ys zs : List Piece} {c : Piece} {m : Memory} {e : Outcomes} {flags : CallFlags}
  {a p q n k n' size : ℕ}

/-- All in-use blocks but the one at `p` stay where they are, and keep their contents. -/
structure PreservesBut (p : ℕ) (h : Heap) (ts : List Tile) (h' : Heap) (ts' : List Tile) : Prop where
  address : h'.address = h.address
  flags : h'.flags = h.flags
  used : ∀ q k, q ≠ p → UsedIn ts q k → UsedIn ts' q k
  data : ∀ q k, q ≠ p → UsedIn ts q k → ∀ i, q + 4 ≤ i → i < q + k → h'.mem i = h.mem i

theorem PreservesBut.trans (h₁ : PreservesBut p h ts h' ts') (h₂ : Preserves h' ts' h'' ts'') :
    PreservesBut p h ts h'' ts'' where
  address := h₂.address.trans h₁.address
  flags := h₂.flags.trans h₁.flags
  used q k hne hq := h₂.used q k (h₁.used q k hne hq)
  data q k hne hq i hi hi' :=
    (h₂.data q k (h₁.used q k hne hq) i hi hi').trans (h₁.data q k hne hq i hi hi')

theorem Preserves.trans_but (h₁ : Preserves h ts h' ts') (h₂ : PreservesBut p h' ts' h'' ts'') :
    PreservesBut p h ts h'' ts'' where
  address := h₂.address.trans h₁.address
  flags := h₂.flags.trans h₁.flags
  used q k hne hq := h₂.used q k hne (h₁.used q k hq)
  data q k hne hq i hi hi' :=
    (h₂.data q k hne (h₁.used q k hq) i hi hi').trans (h₁.data q k hq i hi hi')

namespace Tiled

/-- The sub-heap of a gap that is all of it goes. -/
theorem unlink (H : Tiled h (ts₁ ++ (s, [.gap n]) :: ts₂)) (hs : s.base ≠ h.address) :
    Tiled { h with subheaps := h.subheaps.eraseP fun t => t.base = s.base } (ts₁ ++ ts₂) ∧
      Preserves h (ts₁ ++ (s, [.gap n]) :: ts₂)
        { h with subheaps := h.subheaps.eraseP fun t => t.base = s.base } (ts₁ ++ ts₂) := by
  have hfrees : freesIn (ts₁ ++ (s, [.gap n]) :: ts₂) = freesIn (ts₁ ++ ts₂) := by
    simp [freesIn, freesOf]
  have A : Arranged { h with subheaps := h.subheaps.eraseP fun t => t.base = s.base }
      (ts₁ ++ ts₂) := by
    refine ⟨?_, ?_, ?_, fun t ht => H.tile t (mem_middle ht), H.heads, H.magic⟩
    · have hne : ∀ t ∈ ts₁.map Prod.fst, ¬ decide (t.base = s.base) = true := by
        intro t ht
        obtain ⟨t', ht', rfl⟩ := List.mem_map.mp ht
        simpa using H.base_ne (List.mem_append_left _ ht')
      simp only [H.subheaps, List.map_append, List.map_cons]
      rw [List.eraseP_append_right _ hne, List.eraseP_cons_of_pos (by simp)]
    · obtain ⟨t, ts', hts, hbase, hheader, hrest⟩ := H.primary
      cases ts₁ with
      | nil =>
        obtain ⟨rfl, rfl⟩ := List.cons.inj hts
        exact absurd hbase hs
      | cons t₁ ts₁ =>
        obtain ⟨rfl, rfl⟩ := List.cons.inj hts
        exact ⟨t₁, ts₁ ++ ts₂, rfl, hbase, hheader, fun t' ht' => hrest t' (mem_middle ht')⟩
    · exact H.apart.sublist (List.Sublist.append_left (List.sublist_cons_self _ _) _)
  refine ⟨⟨A, ?_, ?_⟩, rfl, rfl, ?_, fun _ _ _ _ _ _ => rfl⟩
  · rw [← hfrees]
    exact H.listed
  · exact H.ordered
  · intro q k hq
    rcases usedIn_middle.mp hq with hq | hq
    · exact hq
    · cases hq

/-- Clearing memory inside a free block behind its header and its links. -/
theorem clear_free (H : Tiled h (ts₁ ++ (s, xs ++ .free n :: []) :: ts₂))
    (hp : p = s.first + totalOf xs) (hm : ∀ i, i < p + 16 ∨ s.limit ≤ i → m i = h.mem i) :
    Tiled { h with mem := m } (ts₁ ++ (s, xs ++ .free n :: []) :: ts₂) ∧
      Preserves h (ts₁ ++ (s, xs ++ .free n :: []) :: ts₂) { h with mem := m }
        (ts₁ ++ (s, xs ++ .free n :: []) :: ts₂) := by
  have hfilled := H.middle.filled
  simp only [totalOf_append, totalOf_cons, totalOf_nil, Piece.total] at hfilled
  obtain ⟨hxs, hfree, -⟩ := Layout.append_iff.mp H.middle.layout
  simp only at hxs hfree
  constructor
  · refine H.rewrite (H.toArranged.replace rfl rfl ?_ ?_ rfl) rfl rfl rfl
    · exact fun i hi => hm i (by omega)
    · refine Layout.append_iff.mpr ⟨hxs.congr ?_ (fun q hq => by cases hq), ?_, trivial⟩
      · intro i _ hi
        have hi' : i < s.first + totalOf xs := hi
        exact hm i (by omega)
      · refine ⟨hfree.aligned, hfree.le, ?_, ?_, hfree.merged⟩
        · rw [← hfree.magic]
          exact word_congr fun i _ hi => hm i (by omega)
        · rw [← hfree.word]
          exact word_congr fun i _ hi => hm i (by omega)
  · refine H.preserves hp (fun k hk => by cases hk) rfl rfl ?_ fun _ _ hq => hq
    intro i hi
    simp only [Piece.total] at hi
    exact hm i (by omega)

end Tiled

theorem le_roundCommit {x : ℕ} (h : x + commitMask < sizeLimit) : x ≤ roundCommit x := by
  rw [roundCommit, Nat.mod_eq_of_lt h, commitMask]
  omega

namespace Tiled

theorem decommit (H : Tiled h (ts₁ ++ (s, xs ++ .free n :: []) :: ts₂))
    (hp : p = s.first + totalOf xs) :
    ∃ c, (p + 16 ≤ s.committed → p + 16 ≤ s.base + c) ∧ Tiled (h.decommit e s (p + arenaFreeSize))
        (ts₁ ++ ({ s with commitSize := c }, xs ++ .free n :: []) :: ts₂) ∧
      Preserves h (ts₁ ++ (s, xs ++ .free n :: []) :: ts₂) (h.decommit e s (p + arenaFreeSize))
        (ts₁ ++ ({ s with commitSize := c }, xs ++ .free n :: []) :: ts₂) := by
  have hwf : s.WellFormed := H.middle.wellFormed
  have hbase := hwf.base_ge
  have hlimit := hwf.limit_lt
  have hcommit := hwf.commit_le
  have hfilled := H.middle.filled
  simp only [totalOf_append, totalOf_cons, totalOf_nil, Piece.total] at hfilled
  obtain ⟨-, hfree, -⟩ := Layout.append_iff.mp H.middle.layout
  have hn : 24 ≤ n := hfree.le
  have hb : s.base ≤ s.first := Nat.le_add_right _ _
  have hl : s.limit = s.base + s.size := rfl
  have hmask : commitMask = 0xffff := rfl
  have h16 : arenaFreeSize = 16 := rfl
  have hround : p + arenaFreeSize - s.base ≤ roundCommit (p + arenaFreeSize - s.base) :=
    le_roundCommit (by omega)
  simp only [Heap.decommit]
  split
  · exact ⟨s.commitSize, id, H, .refl h _⟩
  · next hlt =>
    split
    · refine ⟨roundCommit (p + arenaFreeSize - s.base) + commitMask + 1, fun _ => by omega, ?_⟩
      have hT := H.setCommitSize
        (c := roundCommit (p + arenaFreeSize - s.base) + commitMask + 1) (by omega)
      obtain ⟨hclear, hpres⟩ := hT.clear_free hp
        (m := clearBlock h.mem (s.base + (roundCommit (p + arenaFreeSize - s.base) + commitMask + 1))
          (s.commitSize - (roundCommit (p + arenaFreeSize - s.base) + commitMask + 1))) (by
          intro i hi
          refine if_neg ?_
          change i < p + 16 ∨ s.base + s.size ≤ i at hi
          omega)
      exact ⟨hclear, (setCommitSize_preserves h ts₁ ts₂ s _ _).trans hpres⟩
    · exact ⟨s.commitSize, id, H, .refl h _⟩

/-- A gap that has become a free block: the sub-heap may go with it, or some of its memory. -/
theorem freeArena (H : Tiled h (ts₁ ++ (s, xs ++ .gap n :: ys) :: ts₂))
    (hp : p = s.first + totalOf xs) (hn : 24 ≤ n)
    (hprev : ∀ q, lastBefore .used s.first xs ≠ .free q) (hxs : Whole xs) (hys : Whole ys)
    (hrest : ∀ t ∈ ts₁ ++ ts₂, Whole t.2) (e : Outcomes) :
    ∃ ts', Tiled (h.freeArena e s p n) ts' ∧ (∀ t ∈ ts', Whole t.2) ∧
      Preserves h (ts₁ ++ (s, xs ++ .gap n :: ys) :: ts₂) (h.freeArena e s p n) ts' ∧
      (p + 16 ≤ s.committed → Covered (ts₁ ++ (s, xs ++ .gap n :: ys) :: ts₂) → Covered ts') := by
  obtain ⟨n', zs, hT, hcases, hsettled, hframe⟩ := H.createFreeBlock hp hn hprev hys
  have hpres := createFreeBlock_preserves H.toArranged hp hcases hframe
  have hb := createFreeBlock_beside h s p n
  obtain ⟨hxs', hfree, hzs'⟩ := Layout.append_iff.mp hT.middle.layout
  rw [← hp] at hfree hzs'
  have hzs : Whole zs := by
    rcases hcases with ⟨-, rfl⟩ | ⟨k, rfl, -⟩
    · exact hys
    · exact Whole.tail hys
  have hwhole : ∀ t ∈ ts₁ ++ (s, xs ++ .free n' :: zs) :: ts₂, Whole t.2 := by
    refine forall_middle.mpr ⟨?_, hrest⟩
    intro k hk
    rcases List.mem_append.mp hk with hk | hk
    · exact hxs k hk
    · rcases List.mem_cons.mp hk with hk | hk
      · cases hk
      · exact hzs k hk
  have hcovered : p + 16 ≤ s.committed → Covered (ts₁ ++ (s, xs ++ .gap n :: ys) :: ts₂) →
      Covered (ts₁ ++ (s, xs ++ .free n' :: zs) :: ts₂) := by
    intro hp16 hcov
    obtain ⟨hmiddle, hrest'⟩ := forall_middle.mp hcov
    rw [hp] at hp16
    exact forall_middle.mpr ⟨hmiddle.fill hp16 hcases, hrest'⟩
  have hfilled := hT.middle.filled
  simp only [totalOf_append, totalOf_cons, Piece.total] at hfilled
  simp only [Heap.freeArena]
  generalize h.createFreeBlock s p n = h₁ at *
  rw [sizeOf_of_freeAt hfree]
  split
  · exact ⟨_, hT, hwhole, hpres, hcovered⟩
  · next hend =>
    have hnil : zs = [] := by
      by_contra hne
      have h24 := hzs'.le_totalOf hzs hne
      omega
    subst hnil
    split
    · next hempty =>
      have hxs0 : xs = [] := by
        by_contra hne
        have h24 := hxs'.le_totalOf hxs hne
        omega
      subst hxs0
      have hgap := hT.take hp
      obtain ⟨hunlink, hpres'⟩ := hgap.unlink hempty.2
      have htake : Preserves h₁ (ts₁ ++ (s, [] ++ .free n' :: []) :: ts₂) (h₁.listRemove p)
          (ts₁ ++ (s, [] ++ .gap n' :: []) :: ts₂) :=
        hT.preserves hp (fun k hk => by cases hk) rfl rfl (fun _ _ => rfl) fun _ _ hq => by cases hq
      exact ⟨_, hunlink, hrest, (hpres.trans htake).trans hpres',
        fun _ hcov => (forall_middle.mp hcov).2⟩
    · split
      · exact ⟨_, hT, hwhole, hpres, hcovered⟩
      · obtain ⟨c, hc, hdecommit, hpres'⟩ := hT.decommit (e := e) hp
        refine ⟨_, hdecommit, ?_, hpres.trans hpres', ?_⟩
        · obtain ⟨hmiddle, hrest'⟩ := forall_middle.mp hwhole
          exact forall_middle.mpr ⟨hmiddle, hrest'⟩
        · intro hp16 hcov
          have hc' := hc hp16
          refine forall_middle.mpr ⟨?_, (forall_middle.mp hcov).2⟩
          refine CoveredFrom.append_iff.mpr ⟨.of_totalOf hxs' ?_, ?_, trivial⟩
          · change s.first + totalOf xs ≤ s.base + c
            omega
          · change s.first + totalOf xs + 16 ≤ s.base + c
            omega

theorem release_but (hp : p = s.first + totalOf xs) :
    PreservesBut p h (ts₁ ++ (s, xs ++ .used n :: ys) :: ts₂) h
      (ts₁ ++ (s, xs ++ .gap n :: ys) :: ts₂) where
  address := rfl
  flags := rfl
  used q k hne hq := by
    rw [usedIn_middle] at hq ⊢
    refine hq.imp_right fun hq => ?_
    rw [usedOf_append, List.mem_append, ← hp] at hq ⊢
    refine hq.imp_right fun hq => ?_
    rcases List.mem_cons.mp hq with heq | hq
    · exact absurd (Prod.mk.inj heq).1 hne
    · exact hq
  data _ _ _ _ _ _ _ := rfl

/-- Freeing a block leaves all others as they were. -/
theorem makeInUseBlockFree (H : Tiled h (ts₁ ++ (s, xs ++ .used n :: ys) :: ts₂))
    (hp : p = s.first + totalOf xs)
    (hwhole : ∀ t ∈ ts₁ ++ (s, xs ++ .used n :: ys) :: ts₂, Whole t.2) (e : Outcomes) :
    ∃ ts', Tiled (h.makeInUseBlockFree e s p) ts' ∧ (∀ t ∈ ts', Whole t.2) ∧
      PreservesBut p h (ts₁ ++ (s, xs ++ .used n :: ys) :: ts₂) (h.makeInUseBlockFree e s p) ts' ∧
      (Covered (ts₁ ++ (s, xs ++ .used n :: ys) :: ts₂) → Covered ts') := by
  obtain ⟨hmiddle, hrest⟩ := forall_middle.mp hwhole
  have hxs : Whole xs := Whole.left hmiddle
  have hys : Whole ys := Whole.tail (Whole.right hmiddle)
  obtain ⟨hfilled, hlimit, hbase, hlayout, hused, -⟩ := H.used_middle hp
  have hn := hused.le
  have hdata : sizeOf (word h.mem p) + arenaInuseSize = n := by
    rw [hused.size, arenaInuseSize]
    omega
  have hflag := hused.flagged
  have hbut : PreservesBut p h (ts₁ ++ (s, xs ++ .used n :: ys) :: ts₂) h
      (ts₁ ++ (s, xs ++ .gap n :: ys) :: ts₂) := release_but hp
  simp only [Heap.makeInUseBlockFree, hdata]
  split
  · next hprev =>
    rcases lastBefore_cases .used s.first xs with rfl | ⟨xs', c, rfl, hlast⟩
    · exact absurd hprev hflag
    · rw [hlast] at hflag
      cases c with
      | used k => exact absurd hprev hflag
      | gap k => exact absurd (List.mem_append_right xs' List.mem_cons_self) (hxs k)
      | free k =>
        obtain ⟨-, hback⟩ := hflag
        obtain ⟨-, hfree, -⟩ := Layout.append_iff.mp hlayout
        have hk := hfree.le
        have hgap := H.release
        rw [List.append_assoc, List.singleton_append] at hgap
        rw [List.append_assoc xs' _ (.gap n :: ys), List.singleton_append] at hbut
        have htake := (hgap.take rfl).merge_gaps
        rw [hback, sizeOf_of_freeAt hfree, Nat.add_comm n k]
        have hp1 : Preserves h (ts₁ ++ (s, xs' ++ .free k :: .gap n :: ys) :: ts₂)
            (h.listRemove (s.first + totalOf xs')) (ts₁ ++ (s, xs' ++ .gap (k + n) :: ys) :: ts₂) := by
          refine hgap.preserves rfl (fun k hk => by cases hk) rfl rfl (fun _ _ => rfl) ?_
          intro q j hq
          rw [usedOf_append] at hq ⊢
          simp only [usedOf, Nat.add_assoc] at hq ⊢
          exact hq
        obtain ⟨ts', hT, hw, hp2, hcov'⟩ := htake.freeArena rfl (by omega) hfree.merged
          (Whole.left hxs) hys hrest e
        refine ⟨ts', hT, hw, (hbut.trans hp1).trans hp2, fun hcov => ?_⟩
        obtain ⟨hmid, hcrest⟩ := forall_middle.mp hcov
        obtain ⟨hcxs, hcys⟩ := CoveredFrom.append_iff.mp hmid
        obtain ⟨hcxs', hk16, -⟩ := CoveredFrom.append_iff.mp hcxs
        refine hcov' hk16 (forall_middle.mpr ⟨CoveredFrom.append_iff.mpr ⟨hcxs', ?_⟩, hcrest⟩)
        have hys' := hcys.2
        rw [totalOf_append, totalOf_cons, totalOf_nil, Nat.add_zero, ← Nat.add_assoc] at hys'
        simp only [CoveredFrom, ← Nat.add_assoc]
        exact hys'
  · next hprev =>
    have hmerged : ∀ q, lastBefore .used s.first xs ≠ .free q := by
      intro q hq
      rw [hq] at hflag
      exact hprev hflag.1
    obtain ⟨ts', hT, hw, hp2, hcov'⟩ := H.release.freeArena hp hn hmerged hxs hys hrest e
    refine ⟨ts', hT, hw, hbut.trans hp2, fun hcov => ?_⟩
    obtain ⟨hmid, hcrest⟩ := forall_middle.mp hcov
    obtain ⟨hcxs, hcn, hcys⟩ := CoveredFrom.append_iff.mp hmid
    have hcn' : p + n ≤ s.committed := by
      rw [hp]
      exact hcn
    exact hcov' (by omega) (forall_middle.mpr ⟨CoveredFrom.append_iff.mpr ⟨hcxs, hcys⟩, hcrest⟩)

end Tiled

end Wine.Heaps
