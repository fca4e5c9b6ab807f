import Wine.Regions.RegionOp

/-!
# The algebra of regions

A region stands for a set of points. The operations on regions are those on sets, their results are
lists of bands again, and the extents of a region are the least rectangle around its points.
-/

namespace Wine.Regions

/-- `r1` reaches as far as `r2` on every side. -/
def Around (r1 r2 : Rect) : Prop :=
  r1.left ≤ r2.left ∧ r1.top ≤ r2.top ∧ r2.right ≤ r1.right ∧ r2.bottom ≤ r1.bottom

/-- `e` is the least rectangle around the points of `S`. -/
structure Bounds (S : Set (ℤ × ℤ)) (e : Rect) : Prop where
  inside : ∀ p ∈ S, e.Mem p.1 p.2
  least : ∀ e' : Rect, (∀ p ∈ S, e'.Mem p.1 p.2) → Around e' e

/-- What holds of every region that the server makes. -/
structure Region.Valid (reg : Region) : Prop where
  banded : Banded reg.rects
  extents : reg.extents = setRegionExtents reg.rects

def Region.points (reg : Region) : Set (ℤ × ℤ) := Regions.points reg.rects

variable {S T : Set (ℤ × ℤ)} {e e' r a : Rect} {rects as : List Rect} {reg src1 src2 : Region}
  {x y m : ℤ}

/-! ## Extents -/

theorem Bounds.unique (h : Bounds S e) (h' : Bounds S e') : e = e' := by
  have hle := h.least e' h'.inside
  have hle' := h'.least e h.inside
  unfold Around at hle hle'
  cases e
  cases e'
  simp only [Rect.mk.injEq]
  dsimp only at hle hle'
  omega

theorem Bounds.union (h : Bounds S e) (h' : Bounds T e') : Bounds (S ∪ T)
    ⟨min e.left e'.left, min e.top e'.top, max e.right e'.right, max e.bottom e'.bottom⟩ where
  inside p hp := by
    have hor : e.Mem p.1 p.2 ∨ e'.Mem p.1 p.2 := hp.imp (h.inside p) (h'.inside p)
    unfold Rect.Mem at hor ⊢
    dsimp only
    omega
  least e'' hall := by
    have hle := h.least e'' fun p hp => hall p (.inl hp)
    have hle' := h'.least e'' fun p hp => hall p (.inr hp)
    unfold Around at hle hle' ⊢
    dsimp only
    omega

theorem getLast_mem (a : Rect) (as : List Rect) : (as.getLast?).getD a ∈ a :: as := by
  cases hl : as.getLast? with
  | none => exact List.mem_cons_self
  | some l => exact List.mem_cons_of_mem a (List.mem_of_getLast? hl)

/-- The left side and the right side of a region are found among its rectangles. -/
theorem setRegionExtents_sides (a : Rect) (as : List Rect) :
    (∀ r ∈ a :: as, (setRegionExtents (a :: as)).left ≤ r.left ∧
      r.right ≤ (setRegionExtents (a :: as)).right) ∧
    (∃ r ∈ a :: as, (setRegionExtents (a :: as)).left = r.left) ∧
    ∃ r ∈ a :: as, (setRegionExtents (a :: as)).right = r.right := by
  obtain ⟨hleft, hleast⟩ := List.min?_eq_some_iff.mp
    (@List.min?_cons' _ a.left _ ((a :: as).map (·.left)))
  obtain ⟨hright, hmost⟩ := List.max?_eq_some_iff.mp
    (@List.max?_cons' _ ((as.getLast?).getD a).right _ ((a :: as).map (·.right)))
  rw [List.foldl_map] at hleft hleast hright hmost
  refine ⟨fun r hr => ⟨hleast _ (.tail _ (List.mem_map_of_mem hr)),
    hmost _ (.tail _ (List.mem_map_of_mem hr))⟩, ?_, ?_⟩
  · obtain heq | hmem := List.mem_cons.mp hleft
    · exact ⟨a, List.mem_cons_self, heq⟩
    · obtain ⟨r, hr, heq⟩ := List.mem_map.mp hmem
      exact ⟨r, hr, heq.symm⟩
  · obtain heq | hmem := List.mem_cons.mp hright
    · exact ⟨_, getLast_mem a as, heq⟩
    · obtain ⟨r, hr, heq⟩ := List.mem_map.mp hmem
      exact ⟨r, hr, heq.symm⟩

/-- The last rectangle reaches down as far as any other. -/
theorem bottom_le_last (h : Banded (a :: as)) :
    ∀ r ∈ a :: as, r.bottom ≤ ((as.getLast?).getD a).bottom := by
  rcases List.eq_nil_or_concat as with rfl | ⟨init, l, rfl⟩
  · exact List.forall_mem_singleton.mpr le_rfl
  · rw [List.concat_eq_append, List.getLast?_concat, Option.getD_some]
    rw [List.concat_eq_append, ← List.cons_append] at h
    obtain ⟨-, hl, hbefore⟩ := banded_append.mp h
    have hne := hl.nonempty l (List.mem_singleton_self l)
    rw [← List.cons_append]
    refine List.forall_mem_append.mpr ⟨fun r hr => ?_, List.forall_mem_singleton.mpr le_rfl⟩
    have := hbefore r hr l (List.mem_singleton_self l)
    unfold Before at this
    omega

theorem setRegionExtents_bounds (h : Banded (a :: as)) :
    Bounds (points (a :: as)) (setRegionExtents (a :: as)) := by
  obtain ⟨hsides, ⟨l, hl, hleft⟩, ⟨r, hr, hright⟩⟩ := setRegionExtents_sides a as
  refine ⟨?_, fun e he => ?_⟩
  · rintro p ⟨s, hs, hpl, hpr, hpt, hpb⟩
    have hlr := hsides s hs
    have ht := (head_le h s hs).1
    have hb := bottom_le_last h s hs
    exact ⟨hlr.1.trans hpl, hpr.trans_le hlr.2, ht.trans hpt, hpb.trans_le hb⟩
  · have haround : ∀ s ∈ a :: as, Around e s := by
      intro s hs
      have hne := h.nonempty s hs
      have hfirst := he _ (h.corner_mem hs)
      have hend := he _ (h.end_mem hs)
      unfold Rect.Mem at hfirst hend
      unfold Around
      dsimp only at hfirst hend
      omega
    exact ⟨hleft ▸ (haround l hl).1, (haround a List.mem_cons_self).2.1,
      hright ▸ (haround r hr).2.2.1, (haround _ (getLast_mem a as)).2.2.2⟩

theorem Region.Valid.bounds (h : reg.Valid) (hne : reg.rects ≠ []) :
    Bounds reg.points reg.extents := by
  obtain ⟨a, as, heq⟩ := List.exists_cons_of_ne_nil hne
  have hb := h.banded
  rw [Region.points, h.extents, heq]
  rw [heq] at hb
  exact setRegionExtents_bounds hb

/-! ## The functions for bands -/

theorem intersectFuncs_computes : Computes intersectFuncs And where
  overlap _ _ _ _ _ _ _ h1 h2 := intersect_spec h1 h2
  first := .inr ⟨rfl, fun h => h.2⟩
  second := .inr ⟨rfl, fun h => h.1⟩
  neither h := h.1

theorem subtractFuncs_computes : Computes subtractFuncs fun p q => p ∧ ¬q where
  overlap _ _ _ _ _ _ _ h1 h2 := subtract_spec h1 h2
  first := .inl ⟨rfl, trivial, not_false⟩
  second := .inr ⟨rfl, fun h => h.1⟩
  neither h := h.1

theorem unionFuncs_computes : Computes unionFuncs Or where
  overlap _ _ _ _ _ hreg htb h1 h2 := union_spec hreg htb h1 h2
  first := .inl ⟨rfl, .inl trivial⟩
  second := .inl ⟨rfl, .inr trivial⟩
  neither h := h.elim id id

/-! ## The operations -/

theorem Region.empty_valid : Region.empty.Valid :=
  ⟨.nil, rfl⟩

theorem Region.points_of_nil (h : reg.rects = []) : reg.points = ∅ := by
  rw [Region.points, h, points_nil]

/-- Regions whose extents do not meet have no common points. -/
theorem disjoint_of_extents (h1 : src1.Valid) (h2 : src2.Valid)
    (h : src1.rects = [] ∨ src2.rects = [] ∨ (!extentCheck src1.extents src2.extents) = true) :
    src1.points ∩ src2.points = ∅ := by
  refine Set.eq_empty_of_forall_notMem fun p hp => ?_
  obtain ⟨⟨r, hr, -⟩, ⟨s, hs, -⟩⟩ := id hp
  have hp1 := (h1.bounds (List.ne_nil_of_mem hr)).inside p hp.1
  have hp2 := (h2.bounds (List.ne_nil_of_mem hs)).inside p hp.2
  have hcheck : extentCheck src1.extents src2.extents = true := by
    unfold Rect.Mem at hp1 hp2
    simp only [extentCheck, Bool.and_eq_true, decide_eq_true_eq]
    omega
  rw [hcheck] at h
  simp [List.ne_nil_of_mem hr, List.ne_nil_of_mem hs] at h

theorem Region.Valid.top_le (h : reg.Valid) : ∀ r ∈ reg.rects, reg.extents.top ≤ r.top :=
  fun _ hr => ((h.bounds (List.ne_nil_of_mem hr)).inside _ (h.banded.corner_mem hr)).2.2.1

theorem regionOp_valid {fs : BandFuncs} {op : Prop → Prop → Prop} (hc : Computes fs op)
    (h1 : src1.Valid) (h2 : src2.Valid) :
    Banded (regionOp fs src1 src2) ∧
      points (regionOp fs src1 src2) = {p | op (p ∈ src1.points) (p ∈ src2.points)} :=
  regionOp_spec hc h1.banded h2.banded h1.top_le h2.top_le

/-- The intersection of two regions. -/
theorem intersectRegion_points (h1 : src1.Valid) (h2 : src2.Valid) :
    (intersectRegion src1 src2).Valid ∧
      (intersectRegion src1 src2).points = src1.points ∩ src2.points := by
  unfold intersectRegion
  split_ifs with h
  · exact ⟨Region.empty_valid, points_nil.trans (disjoint_of_extents h1 h2 h).symm⟩
  · obtain ⟨hb, hp⟩ := regionOp_valid intersectFuncs_computes h1 h2
    exact ⟨⟨hb, rfl⟩, hp⟩

/-- The difference of two regions. -/
theorem subtractRegion_points (h1 : src1.Valid) (h2 : src2.Valid) :
    (subtractRegion src1 src2).Valid ∧
      (subtractRegion src1 src2).points = src1.points \ src2.points := by
  unfold subtractRegion
  split_ifs with h
  · refine ⟨h1, Set.ext fun p => ⟨fun hp => ⟨hp, fun hq => ?_⟩, fun hp => hp.1⟩⟩
    exact Set.notMem_empty p (disjoint_of_extents h1 h2 h ▸ ⟨hp, hq⟩)
  · obtain ⟨hb, hp⟩ := regionOp_valid subtractFuncs_computes h1 h2
    exact ⟨⟨hb, rfl⟩, hp⟩

/-- A single rectangle whose extents contain those of another region contains its points. -/
theorem points_subset_of_contains (h1 : src1.Valid) (h2 : src2.Valid)
    (hlen : src1.rects.length = 1) (h : src1.extents.contains src2.extents = true) :
    src2.points ⊆ src1.points := by
  obtain ⟨r, hr⟩ := List.length_eq_one_iff.mp hlen
  have hext : src1.extents = r := by
    rw [h1.extents, hr]
    simp [setRegionExtents]
  intro p hp
  obtain ⟨s, hs, -⟩ := id hp
  have hmem := (h2.bounds (List.ne_nil_of_mem hs)).inside p hp
  simp only [Rect.contains, Bool.and_eq_true, decide_eq_true_eq, hext] at h
  refine ⟨r, hr ▸ List.mem_singleton_self r, ?_⟩
  unfold Rect.Mem at hmem ⊢
  omega

/-- The union of two regions. -/
theorem unionRegion_points {same : Bool} (hsame : same = true → src1 = src2) (h1 : src1.Valid)
    (h2 : src2.Valid) :
    (unionRegion same src1 src2).Valid ∧
      (unionRegion same src1 src2).points = src1.points ∪ src2.points := by
  unfold unionRegion
  split_ifs with heq hnil1 hnil2 hc1 hc2
  · rw [← hsame heq, Set.union_self]
    exact ⟨h1, rfl⟩
  · rw [Region.points_of_nil hnil1, Set.empty_union]
    exact ⟨h2, rfl⟩
  · rw [Region.points_of_nil hnil2, Set.union_empty]
    exact ⟨h1, rfl⟩
  · exact ⟨h1, (Set.union_eq_self_of_subset_right
      (points_subset_of_contains h1 h2 hc1.1 hc1.2)).symm⟩
  · exact ⟨h2, (Set.union_eq_self_of_subset_left
      (points_subset_of_contains h2 h1 hc2.1 hc2.2)).symm⟩
  · obtain ⟨hb, hp⟩ := regionOp_valid unionFuncs_computes h1 h2
    have hpoints : points (regionOp unionFuncs src1 src2) = src1.points ∪ src2.points := hp
    have hbounds := (h1.bounds hnil1).union (h2.bounds hnil2)
    rw [← hpoints] at hbounds
    have hne : regionOp unionFuncs src1 src2 ≠ [] := by
      intro hnil
      obtain ⟨a, ha⟩ := List.exists_mem_of_ne_nil _ hnil1
      have hmem : (a.left, a.top) ∈ src1.points ∪ src2.points := .inl (h1.banded.corner_mem ha)
      rw [← hpoints, hnil, points_nil] at hmem
      exact hmem
    have hvalid : (⟨_, setRegionExtents (regionOp unionFuncs src1 src2)⟩ : Region).Valid :=
      ⟨hb, rfl⟩
    exact ⟨⟨hb, hbounds.unique (hvalid.bounds hne)⟩, hpoints⟩

/-- The exclusive or of two regions. -/
theorem xorRegion_points (h1 : src1.Valid) (h2 : src2.Valid) :
    (xorRegion src1 src2).Valid ∧
      (xorRegion src1 src2).points =
        src2.points \ src1.points ∪ src1.points \ src2.points := by
  obtain ⟨hv1, hp1⟩ := subtractRegion_points h2 h1
  obtain ⟨hv2, hp2⟩ := subtractRegion_points h1 h2
  rw [← hp1, ← hp2]
  exact unionRegion_points (fun h => by cases h) hv1 hv2

/-- What a client sends is the region it gets. -/
theorem createRegion_points (h : createRegion rects = some reg) :
    reg.Valid ∧ reg.points = points rects := by
  unfold createRegion at h
  by_cases hempty : rects = [emptyRect]
  · rw [if_pos hempty] at h
    cases h
    refine ⟨Region.empty_valid, ?_⟩
    rw [hempty]
    refine points_nil.trans (Set.eq_empty_of_forall_notMem fun p hp => ?_).symm
    simp only [mem_points, List.mem_singleton, exists_eq_left, Rect.Mem, emptyRect] at hp
    omega
  · simp only [if_neg hempty] at h
    split_ifs at h with hv
    cases h
    exact ⟨⟨validateRectangles_iff.mp hv, rfl⟩, rfl⟩

/-- A region that is sent to a client and comes back is the same. -/
theorem createRegion_getRegionData (h : reg.Valid) {maxSize : ℕ}
    (hsize : (getRegionData reg maxSize).1 ≤ maxSize) :
    ∃ data, (getRegionData reg maxSize).2 = some data ∧ createRegion data = some reg := by
  refine ⟨if reg.rects = [] then [emptyRect] else reg.rects, if_pos hsize, ?_⟩
  by_cases hnil : reg.rects = []
  · have hreg : reg = Region.empty := by
      obtain ⟨rects, extents⟩ := reg
      have hext := h.extents
      cases hnil
      cases hext
      rfl
    rw [if_pos hnil, hreg]
    rfl
  · rw [if_neg hnil]
    have hne : reg.rects ≠ [emptyRect] := by
      intro heq
      have hlt := (h.banded.nonempty emptyRect (heq ▸ List.mem_singleton_self _)).1
      exact absurd hlt (by decide)
    unfold createRegion
    simp only [if_neg hne, validateRectangles_iff.mpr h.banded, if_true]
    rw [← h.extents]

theorem createRegion_getRegionData_square : ∃ data,
    (getRegionData ⟨[⟨0, 0, 2, 2⟩], ⟨0, 0, 2, 2⟩⟩ 16).2 = some data ∧
      createRegion data = some ⟨[⟨0, 0, 2, 2⟩], ⟨0, 0, 2, 2⟩⟩ :=
  createRegion_getRegionData ⟨validateRectangles_iff.mp rfl, rfl⟩ (Nat.le_refl 16)

/-! ## Expressions -/

/-- What requests can compute of regions that clients have sent. -/
inductive RegionExpr
  | data (rects : List Rect)
  | intersect (e1 e2 : RegionExpr)
  | subtract (e1 e2 : RegionExpr)
  | union (e1 e2 : RegionExpr)
  | xor (e1 e2 : RegionExpr)

namespace RegionExpr

/-- The region, unless the data of a client is not one. -/
def eval : RegionExpr → Option Region
  | data rects => createRegion rects
  | intersect e1 e2 => do return intersectRegion (← eval e1) (← eval e2)
  | subtract e1 e2 => do return subtractRegion (← eval e1) (← eval e2)
  | union e1 e2 => do return unionRegion false (← eval e1) (← eval e2)
  | xor e1 e2 => do return xorRegion (← eval e1) (← eval e2)

/-- The set of points that the expression stands for. -/
def denote : RegionExpr → Set (ℤ × ℤ)
  | data rects => points rects
  | intersect e1 e2 => denote e1 ∩ denote e2
  | subtract e1 e2 => denote e1 \ denote e2
  | union e1 e2 => denote e1 ∪ denote e2
  | xor e1 e2 => denote e2 \ denote e1 ∪ denote e1 \ denote e2

/-- An operation on regions and that on sets that it stands for. -/
theorem bind_points {f : Region → Region → Region} {g : Set (ℤ × ℤ) → Set (ℤ × ℤ) → Set (ℤ × ℤ)}
    (hf : ∀ r1 r2 : Region, r1.Valid → r2.Valid →
      (f r1 r2).Valid ∧ (f r1 r2).points = g r1.points r2.points) {e1 e2 : RegionExpr}
    (ih1 : ∀ {r}, e1.eval = some r → r.Valid ∧ r.points = e1.denote)
    (ih2 : ∀ {r}, e2.eval = some r → r.Valid ∧ r.points = e2.denote)
    (h : (do return f (← e1.eval) (← e2.eval)) = some reg) :
    reg.Valid ∧ reg.points = g e1.denote e2.denote := by
  simp only [Option.bind_eq_bind, Option.bind_eq_some_iff, Option.pure_def, Option.some.injEq] at h
  obtain ⟨r1, h1, r2, h2, rfl⟩ := h
  obtain ⟨hv1, hp1⟩ := ih1 h1
  obtain ⟨hv2, hp2⟩ := ih2 h2
  rw [← hp1, ← hp2]
  exact hf r1 r2 hv1 hv2

/-- Whatever is computed of regions is a valid region with the right points. -/
theorem eval_points {e : RegionExpr} (h : e.eval = some reg) :
    reg.Valid ∧ reg.points = e.denote := by
  induction e generalizing reg with
  | data rects => exact createRegion_points h
  | intersect e1 e2 ih1 ih2 => exact bind_points (fun _ _ => intersectRegion_points) ih1 ih2 h
  | subtract e1 e2 ih1 ih2 => exact bind_points (fun _ _ => subtractRegion_points) ih1 ih2 h
  | union e1 e2 ih1 ih2 =>
    exact bind_points (fun _ _ => unionRegion_points fun h => by cases h) ih1 ih2 h
  | xor e1 e2 ih1 ih2 =>
    exact bind_points (g := fun S T => T \ S ∪ S \ T) (fun _ _ => xorRegion_points) ih1 ih2 h

/-- Two squares that overlap. -/
theorem eval_points_squares :
    ∃ reg, (union (data [⟨0, 0, 2, 2⟩]) (data [⟨1, 1, 3, 3⟩])).eval = some reg ∧ reg.Valid ∧
      reg.points = points [⟨0, 0, 2, 2⟩] ∪ points [⟨1, 1, 3, 3⟩] :=
  ⟨_, rfl, eval_points (e := union (data [⟨0, 0, 2, 2⟩]) (data [⟨1, 1, 3, 3⟩])) rfl⟩

end RegionExpr

/-! ## Tests -/

theorem pointInRegion_iff (h : Banded rects) :
    pointInRegion x y rects = true ↔ (x, y) ∈ points rects := by
  induction rects with
  | nil => simp [pointInRegion]
  | cons a as ih =>
    obtain ⟨ha, hbefore, has⟩ := banded_cons.mp h
    rw [pointInRegion]
    split_ifs with h1 h2 h3 h4
    · exact iff_of_false not_false (not_mem_above h h1)
    · rw [ih has, mem_points_cons, Rect.Mem, or_iff_right fun hp => by omega]
    · refine iff_of_false not_false ?_
      rintro ⟨r, hr, hmem⟩
      unfold Rect.Mem at hmem
      dsimp only at hmem
      obtain rfl | hr := List.mem_cons.mp hr
      · omega
      · have hb := hbefore r hr
        unfold Before at hb
        omega
    · rw [ih has, mem_points_cons, Rect.Mem, or_iff_right fun hp => by omega]
    · rw [mem_points_cons, Rect.Mem]
      exact iff_of_true rfl (.inl (by omega))

/-- The test with a rectangle finds out whether the region has a point of it. -/
theorem rectInRegion_iff (h : Banded rects) (hr : r.left < r.right ∧ r.top < r.bottom) :
    rectInRegion r rects = true ↔ ∃ p ∈ points rects, r.Mem p.1 p.2 := by
  induction rects with
  | nil => simp [rectInRegion]
  | cons a as ih =>
    obtain ⟨ha, hbefore, has⟩ := banded_cons.mp h
    have hskip : (a.bottom ≤ r.top ∨ r.right ≤ a.left ∨ a.right ≤ r.left) →
        ((∃ p ∈ points (a :: as), r.Mem p.1 p.2) ↔ ∃ p ∈ points as, r.Mem p.1 p.2) := by
      intro hout
      refine exists_congr fun p => and_congr_left fun hp => ?_
      rw [mem_points_cons]
      refine or_iff_right fun hmem => ?_
      unfold Rect.Mem at hp hmem
      omega
    rw [rectInRegion]
    split_ifs with h1 h2 h3 h4
    · refine iff_of_false not_false ?_
      rintro ⟨p, hp, hmem⟩
      exact not_mem_above h (hmem.2.2.2.trans_le h1) hp
    · rw [ih has, hskip (.inl h2)]
    · rw [ih has, hskip (.inr (.inl h3))]
    · rw [ih has, hskip (.inr (.inr h4))]
    · refine iff_of_true rfl ⟨(max a.left r.left, max a.top r.top), ?_, ?_⟩
      · refine ⟨a, List.mem_cons_self, ?_⟩
        simp only [Rect.Mem]
        omega
      · simp only [Rect.Mem]
        omega

/-- Both tests look at the bands from above and stop early, and find out what a search through all
rectangles would. -/
theorem tests_exact (h : Banded rects) :
    (∀ x y, pointInRegion x y rects = true ↔ (x, y) ∈ points rects) ∧
      ∀ r : Rect, r.left < r.right ∧ r.top < r.bottom →
        (rectInRegion r rects = true ↔ ∃ p ∈ points rects, r.Mem p.1 p.2) :=
  ⟨fun _ _ => pointInRegion_iff h, fun _ hr => rectInRegion_iff h hr⟩

def twoBands : List Rect := [⟨0, 0, 1, 1⟩, ⟨2, 0, 3, 1⟩, ⟨0, 1, 3, 2⟩]

theorem tests_exact_bands : (∀ x y, pointInRegion x y twoBands = true ↔ (x, y) ∈ points twoBands) ∧
    ∀ r : Rect, r.left < r.right ∧ r.top < r.bottom →
      (rectInRegion r twoBands = true ↔ ∃ p ∈ points twoBands, r.Mem p.1 p.2) :=
  tests_exact (validateRectangles_iff.mp rfl)

end Wine.Regions
