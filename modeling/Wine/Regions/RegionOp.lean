import Wine.Regions.Banded

/-!
# The operation on two regions

The loop goes through the bands of two regions from top to bottom. Above the line it has come to,
the new region is complete; below it the rectangles that are left have the points of the regions.
-/

namespace Wine.Regions

/-- The functions for bands compute `op` on one line. -/
structure Computes (fs : BandFuncs) (op : Prop → Prop → Prop) : Prop where
  overlap : ∀ reg r1 r2 top bottom, (∀ s ∈ reg, s.bottom ≤ top) → top < bottom →
    Spaced r1 → Spaced r2 → Emits reg (fs.overlap reg r1 r2 top bottom) top bottom
      fun x => op (Covers r1 x) (Covers r2 x)
  first : fs.nonOverlap1 = some nonOverlapping ∧ op True False ∨
    fs.nonOverlap1 = none ∧ ¬op True False
  second : fs.nonOverlap2 = some nonOverlapping ∧ op False True ∨
    fs.nonOverlap2 = none ∧ ¬op False True
  neither : ¬op False False

/-- The region is complete above the line `line`, and has no points below it. -/
structure Built (R : Set (ℤ × ℤ)) (line : ℤ) (res : List Rect × ℕ) : Prop where
  banded : Banded res.1
  last : LastBand res.1 res.2
  points : ∀ x y, (x, y) ∈ points res.1 ↔ (x, y) ∈ R ∧ y < line

variable {fs : BandFuncs} {op : Prop → Prop → Prop} {R : Set (ℤ × ℤ)} {line line' x y : ℤ}
  {top bottom bot : ℤ} {reg out rects band as bs A B : List Rect} {a b : Rect} {k : ℕ}
  {s : OpState} {f : Option (List Rect → List Rect → ℤ → ℤ → List Rect)} {o : Prop}

theorem Built.below (h : Built R line (reg, k)) : ∀ r ∈ reg, r.bottom ≤ line := by
  intro r hr
  have := ((h.points _ _).mp (h.banded.end_mem hr)).2
  omega

/-- Lines without points need no rectangles. -/
theorem Built.skip (h : Built R line (reg, k)) (hle : line ≤ line')
    (hR : ∀ x y, line ≤ y → y < line' → (x, y) ∉ R) : Built R line' (reg, k) where
  banded := h.banded
  last := h.last
  points x y := by
    rw [h.points]
    have := hR x y
    grind

theorem coalesceNew_nil : coalesceNew reg reg k = (reg, k) := if_neg fun h => h rfl

/-- Bands are added below the line. -/
theorem Built.coalesce (h : Built R line (reg, k)) (hout : Banded out)
    (htop : ∀ r ∈ out, line ≤ r.top) :
    Banded (coalesceNew reg (reg ++ out) k).1 ∧
      Regions.points (coalesceNew reg (reg ++ out) k).1 = Regions.points (reg ++ out) ∧
      (otherBands out = [] → LastBand (coalesceNew reg (reg ++ out) k).1
        (coalesceNew reg (reg ++ out) k).2) := by
  have hsep : ∀ r ∈ reg, ∀ s ∈ out, r.bottom ≤ s.top :=
    fun r hr s hs => (h.below r hr).trans (htop s hs)
  have hb : Banded (reg ++ out) := banded_append.mpr ⟨h.banded, hout,
    fun r hr s hs => .inr (hsep r hr s hs)⟩
  by_cases hnil : out = []
  · subst hnil
    rw [List.append_nil] at hb ⊢
    rw [coalesceNew_nil]
    exact ⟨hb, rfl, fun _ => h.last⟩
  · have hlen : (reg ++ out).length ≠ reg.length := by simpa using hnil
    rw [coalesceNew, if_pos hlen]
    exact coalesce_spec hb hnil hsep h.last

/-- A band is added. -/
theorem Built.emit (h : Built R line (reg, k)) (hlt : line < line') (hout : IsBand line line' out)
    (hR : ∀ x y, line ≤ y → y < line' → ((x, y) ∈ R ↔ Covers out x)) :
    Built R line' (coalesceNew reg (reg ++ out) k) := by
  have hsingle : otherBands out = [] := by
    cases out with
    | nil => rfl
    | cons a as =>
      rw [otherBands_eq, List.dropWhile_eq_nil_iff]
      intro r hr
      exact decide_eq_true ((hout.tops r hr).1.trans (hout.tops a List.mem_cons_self).1.symm)
  obtain ⟨hb, hp, hlast⟩ := h.coalesce (hout.banded hlt) fun r hr => (hout.tops r hr).1.ge
  refine ⟨hb, hlast hsingle, fun x y => ?_⟩
  rw [hp, points_append, Set.mem_union, h.points, hout.mem_points]
  have := hR x y
  grind

/-- The lines down to `bot` that only one of the regions has points on. -/
theorem Built.alone (h : Built R line (reg, k)) (hband : IsBand top bottom band)
    (hf : f = some nonOverlapping ∧ o ∨ f = none ∧ ¬o) (hbot : max top line ≤ bot)
    (hR : ∀ x y, line ≤ y → y < bot → ((x, y) ∈ R ↔ o ∧ Covers band x ∧ top ≤ y)) :
    Built R bot (coalesceNew reg (callNonOverlap f reg band (max top line) bot) k) := by
  have hskip : Built R (max top line) (reg, k) := by
    refine h.skip (le_max_right ..) fun x y hy hy' hp => ?_
    have := ((hR x y hy (by omega)).mp hp).2.2
    omega
  rcases hf with ⟨rfl, ho⟩ | ⟨rfl, ho⟩ <;> rw [callNonOverlap]
  · by_cases heq : max top line = bot
    · rw [if_neg (not_not.mpr heq), coalesceNew_nil]
      exact heq ▸ hskip
    · rw [if_pos heq]
      refine hskip.emit (by omega) (hband.map fun _ _ => rfl) fun x y hy hy' => ?_
      rw [hR x y (by omega) hy', covers_map (by exact fun _ => ⟨rfl, rfl⟩)]
      exact ⟨fun hx => hx.2.1, fun hx => ⟨ho, hx, by omega⟩⟩
  · rw [coalesceNew_nil]
    exact hskip.skip hbot fun x y hy hy' hp => ho ((hR x y (by omega) hy').mp hp).1

/-! ## The loop -/

/-- The points that the operation makes of those of two regions. -/
def result (op : Prop → Prop → Prop) (A B : List Rect) : Set (ℤ × ℤ) :=
  {p | op (p ∈ points A) (p ∈ points B)}

/-- What is left of a region below the line. -/
structure Rest (A : List Rect) (line : ℤ) (rects : List Rect) : Prop where
  banded : Banded rects
  below : ∀ r ∈ rects, line < r.bottom
  points : ∀ x y, line ≤ y → ((x, y) ∈ points A ↔ (x, y) ∈ points rects)

theorem Rest.start (h : Banded rects) (htop : ∀ r ∈ rects, line' ≤ r.top) (hle : line ≤ line') :
    Rest rects line rects :=
  ⟨h, fun r hr => (hle.trans (htop r hr)).trans_lt (h.nonempty r hr).2, fun _ _ _ => Iff.rfl⟩

structure Inv (op : Prop → Prop → Prop) (A B : List Rect) (s : OpState) : Prop where
  built : Built (result op A B) s.ybot (s.reg, s.prevBand)
  rest1 : Rest A s.ybot s.r1
  rest2 : Rest B s.ybot s.r2
  heads : ∀ a ∈ s.r1.head?, ∀ b ∈ s.r2.head?, s.ybot ≤ max a.top b.top

theorem op_congr (op : Prop → Prop → Prop) {p p' q q' : Prop} (hp : p ↔ p') (hq : q ↔ q') :
    op p q ↔ op p' q' := by
  rw [propext hp, propext hq]

/-- Below the line the rectangles that are left decide. -/
theorem Inv.mem_result (h : Inv op A B s) (hy : s.ybot ≤ y) :
    (x, y) ∈ result op A B ↔ op ((x, y) ∈ points s.r1) ((x, y) ∈ points s.r2) :=
  op_congr op (h.rest1.points x y hy) (h.rest2.points x y hy)

/-- On a line of its first band a region has the points of that band. -/
theorem points_firstBand (h : Banded (a :: as)) (hy : y < a.bottom) :
    (x, y) ∈ points (a :: as) ↔ Covers (firstBand (a :: as)) x ∧ a.top ≤ y := by
  rw [points_cons h, or_iff_left (not_mem_of_above (otherBands_below h) hy)]
  exact ⟨fun hp => ⟨hp.1, hp.2.1⟩, fun hp => ⟨hp.1, hp.2, hy⟩⟩

/-- The loop goes on with the band of a region that is not yet over, or with the one below it. -/
theorem Rest.next (h : Rest A line (a :: as)) (hle : line ≤ line') (hbot : line' ≤ a.bottom) :
    Rest A line' (if a.bottom = line' then otherBands (a :: as) else a :: as) := by
  split_ifs with heq
  · refine ⟨h.banded.otherBands, fun r hr => ?_, fun x y hy => ?_⟩
    · have hne := h.banded.nonempty r (List.mem_of_mem_drop hr)
      have := otherBands_below h.banded r hr
      omega
    · rw [h.points x y (hle.trans hy), points_cons h.banded]
      refine or_iff_right fun hp => ?_
      omega
  · refine ⟨h.banded, fun r hr => ?_, fun x y hy => h.points x y (hle.trans hy)⟩
    have := head_le h.banded r hr
    omega

theorem op_first (hc : Computes fs op) {p : Prop} : op p False ↔ op True False ∧ p := by
  by_cases hp : p <;> simp [hp, hc.neither]

theorem op_second (hc : Computes fs op) {p : Prop} : op False p ↔ op False True ∧ p := by
  by_cases hp : p <;> simp [hp, hc.neither]

/-- The lines above both bands that only one of them has points on. -/
theorem Inv.upper (hc : Computes fs op) (h : Inv op A B s) (h1 : s.r1 = a :: as)
    (h2 : s.r2 = b :: bs) :
    Built (result op A B) (min (max a.top b.top) (min a.bottom b.bottom))
      (coalesceNew s.reg
        (if a.top < b.top then
          callNonOverlap fs.nonOverlap1 s.reg (firstBand s.r1) (max a.top s.ybot)
            (min a.bottom b.top)
        else if b.top < a.top then
          callNonOverlap fs.nonOverlap2 s.reg (firstBand s.r2) (max b.top s.ybot)
            (min b.bottom a.top)
        else s.reg) s.prevBand) := by
  have hrest1 := h.rest1
  have hrest2 := h.rest2
  have hheads := h.heads
  have hmem := fun x y => h.mem_result (x := x) (y := y)
  rw [h1] at hrest1 hheads hmem ⊢
  rw [h2] at hrest2 hheads hmem ⊢
  have hhead := hheads a rfl b rfl
  have ha := hrest1.banded.nonempty a List.mem_cons_self
  have hb := hrest2.banded.nonempty b List.mem_cons_self
  have hbelow1 := hrest1.below a List.mem_cons_self
  have hbelow2 := hrest2.below b List.mem_cons_self
  split_ifs with hlt hlt'
  · have hline : min (max a.top b.top) (min a.bottom b.bottom) = min a.bottom b.top := by omega
    rw [hline]
    refine h.built.alone (firstBand_cons hrest1.banded) hc.first (by omega) fun x y hy hy' => ?_
    rw [hmem x y hy, op_congr op (points_firstBand hrest1.banded (by omega))
      (iff_false_intro (not_mem_above hrest2.banded (by omega))), op_first hc]
  · have hline : min (max a.top b.top) (min a.bottom b.bottom) = min b.bottom a.top := by omega
    rw [hline]
    refine h.built.alone (firstBand_cons hrest2.banded) hc.second (by omega) fun x y hy hy' => ?_
    rw [hmem x y hy, op_congr op (iff_false_intro (not_mem_above hrest1.banded (by omega)))
      (points_firstBand hrest2.banded (by omega)), op_second hc]
  · rw [coalesceNew_nil]
    refine h.built.skip (by omega) fun x y hy hy' hp => ?_
    rw [hmem x y hy, op_congr op (iff_false_intro (not_mem_above hrest1.banded (by omega)))
      (iff_false_intro (not_mem_above hrest2.banded (by omega)))] at hp
    exact hc.neither hp

theorem Inv.step (hc : Computes fs op) (h : Inv op A B s) (h1 : s.r1 = a :: as)
    (h2 : s.r2 = b :: bs) : Inv op A B (regionStep fs a b s) := by
  have hupper := h.upper hc h1 h2
  have hrest1 := h.rest1
  have hrest2 := h.rest2
  rw [h1] at hrest1
  rw [h2] at hrest2
  have ha := hrest1.banded.nonempty a List.mem_cons_self
  have hb := hrest2.banded.nonempty b List.mem_cons_self
  have hbelow1 := hrest1.below a List.mem_cons_self
  have hbelow2 := hrest2.below b List.mem_cons_self
  have hline : s.ybot ≤ min a.bottom b.bottom := by omega
  have hhead : s.ybot ≤ max a.top b.top := h.heads a (by rw [h1]; rfl) b (by rw [h2]; rfl)
  refine ⟨?_, ?_, ?_, ?_⟩
  · unfold regionStep
    dsimp only
    generalize coalesceNew s.reg _ s.prevBand = mid at hupper ⊢
    obtain ⟨reg, prevBand⟩ := mid
    dsimp only
    by_cases hlt : max a.top b.top < min a.bottom b.bottom
    · rw [min_eq_left hlt.le] at hupper
      obtain ⟨out, hout, hband, hcov⟩ := hc.overlap reg (firstBand s.r1) (firstBand s.r2)
        (max a.top b.top) (min a.bottom b.bottom) hupper.below hlt
        (h1 ▸ (firstBand_cons hrest1.banded).spaced) (h2 ▸ (firstBand_cons hrest2.banded).spaced)
      rw [if_pos hlt, hout]
      refine hupper.emit hlt hband fun x y hy hy' => ?_
      rw [hcov, h.mem_result (by omega), h1, h2]
      refine op_congr op ?_ ?_
      · rw [points_firstBand hrest1.banded (by omega)]
        exact and_iff_left (by omega)
      · rw [points_firstBand hrest2.banded (by omega)]
        exact and_iff_left (by omega)
    · rw [min_eq_right (Int.not_lt.mp hlt)] at hupper
      rw [if_neg hlt, coalesceNew_nil]
      exact hupper
  · unfold regionStep
    rw [h1]
    exact hrest1.next hline (min_le_left ..)
  · unfold regionStep
    rw [h2]
    exact hrest2.next hline (min_le_right ..)
  · unfold regionStep
    rw [h1, h2]
    dsimp only
    intro a' ha' b' hb'
    by_cases hle : a.bottom ≤ b.bottom
    · rw [min_eq_left hle, if_pos rfl] at ha'
      have := otherBands_below hrest1.banded a' (List.mem_of_mem_head? ha')
      omega
    · rw [min_eq_right (Int.not_le.mp hle).le, if_pos rfl] at hb'
      have := otherBands_below hrest2.banded b' (List.mem_of_mem_head? hb')
      omega

theorem Inv.loop (hc : Computes fs op) (h : Inv op A B s) :
    Inv op A B (regionLoop fs s) ∧ ((regionLoop fs s).r1 = [] ∨ (regionLoop fs s).r2 = []) := by
  fun_induction regionLoop fs s with
  | case1 s a as b bs h1 h2 ih => exact ih (h.step hc h1 h2)
  | case2 s hne =>
    refine ⟨h, ?_⟩
    rcases hr1 : s.r1 with _ | ⟨a, as⟩
    · exact .inl rfl
    · rcases hr2 : s.r2 with _ | ⟨b, bs⟩
      · exact .inr rfl
      · exact absurd hr2 (hne a as b bs hr1)

/-! ## The bands that are left -/

theorem remainingBands_eq (h : Banded rects) : remainingBands nonOverlapping line reg rects =
    reg ++ rects.map fun r => { r with top := max r.top line } := by
  fun_induction remainingBands nonOverlapping line reg rects with
  | case1 reg => exact (List.append_nil reg).symm
  | case2 reg a as ih =>
    have hband := firstBand_cons h
    have hclip : nonOverlapping reg (firstBand (a :: as)) (max a.top line) a.bottom =
        reg ++ (firstBand (a :: as)).map fun r => { r with top := max r.top line } := by
      refine congrArg (reg ++ ·) (List.map_congr_left fun r hr => ?_)
      obtain ⟨htop, hbot⟩ := hband.tops r hr
      rw [htop, ← hbot]
    rw [ih h.otherBands, hclip, List.append_assoc, ← List.map_append, firstBand_append]

theorem Rest.clip (h : Rest A line rects) :
    Banded (rects.map fun r => { r with top := max r.top line }) := by
  refine ⟨List.forall_mem_map.mpr fun r hr => ?_, List.pairwise_map.mpr ?_⟩
  · have hbelow := h.below r hr
    have hne := h.banded.nonempty r hr
    exact ⟨hne.1, max_lt hne.2 hbelow⟩
  · refine h.banded.before.imp fun hrs => ?_
    unfold Before at hrs ⊢
    dsimp only
    omega

theorem points_clip : (x, y) ∈ points (rects.map fun r => { r with top := max r.top line }) ↔
    (x, y) ∈ points rects ∧ line ≤ y := by
  simp only [mem_points, List.mem_map, exists_exists_and_eq_and, Rect.Mem]
  constructor
  · rintro ⟨r, hr, hl, hrt, htop, hbot⟩
    exact ⟨⟨r, hr, hl, hrt, by omega, hbot⟩, by omega⟩
  · rintro ⟨⟨r, hr, hl, hrt, htop, hbot⟩, hy⟩
    exact ⟨r, hr, hl, hrt, by omega, hbot⟩

theorem Built.finish (h : Built R line (reg, k)) (hout : Banded out)
    (htop : ∀ r ∈ out, line ≤ r.top)
    (hR : ∀ x y, (x, y) ∈ Regions.points out ↔ (x, y) ∈ R ∧ line ≤ y) :
    Banded (coalesceNew reg (reg ++ out) k).1 ∧
      Regions.points (coalesceNew reg (reg ++ out) k).1 = R := by
  obtain ⟨hb, hp, -⟩ := h.coalesce hout htop
  refine ⟨hb, hp.trans (Set.ext fun p => ?_)⟩
  rw [points_append, Set.mem_union, h.points, hR, ← and_or_left]
  exact and_iff_left (lt_or_ge _ _)

/-- What a function for the bands of one region makes of those that are left. -/
theorem Built.remaining (h : Built R line (reg, k)) (hrest : Rest A line rects)
    (hf : f = some nonOverlapping ∧ o ∨ f = none ∧ ¬o)
    (hR : ∀ x y, line ≤ y → ((x, y) ∈ R ↔ o ∧ (x, y) ∈ Regions.points rects)) :
    Banded (coalesceNew reg (callRemaining f line reg rects) k).1 ∧
      Regions.points (coalesceNew reg (callRemaining f line reg rects) k).1 = R := by
  rcases hf with ⟨rfl, ho⟩ | ⟨rfl, ho⟩
  · rw [callRemaining, remainingBands_eq hrest.banded]
    refine h.finish hrest.clip ?_ fun x y => ?_
    · exact List.forall_mem_map.mpr fun _ _ => le_max_right ..
    · rw [points_clip]
      exact and_congr_left fun hy => ((hR x y hy).trans (and_iff_right ho)).symm
  · have hfin := h.finish Banded.nil (by simp) fun x y => ?_
    · rwa [List.append_nil] at hfin
    · rw [points_nil]
      exact iff_of_false (Set.notMem_empty _) fun hp => ho ((hR x y hp.2).mp hp.1).1

/-- The operation on two regions that are not empty. -/
theorem regionOp_spec (hc : Computes fs op) {reg1 reg2 : Region} (h1 : Banded reg1.rects)
    (h2 : Banded reg2.rects) (htop1 : ∀ r ∈ reg1.rects, reg1.extents.top ≤ r.top)
    (htop2 : ∀ r ∈ reg2.rects, reg2.extents.top ≤ r.top) :
    Banded (regionOp fs reg1 reg2) ∧
      points (regionOp fs reg1 reg2) = result op reg1.rects reg2.rects := by
  have hinit : Inv op reg1.rects reg2.rects
      ⟨reg1.rects, reg2.rects, min reg1.extents.top reg2.extents.top, [], 0⟩ := by
    refine ⟨⟨.nil, .nil, fun x y => ?_⟩, .start h1 htop1 (min_le_left ..),
      .start h2 htop2 (min_le_right ..), fun a ha b hb => ?_⟩
    · rw [points_nil]
      refine iff_of_false (Set.notMem_empty _) fun ⟨hp, hy⟩ => hc.neither ?_
      dsimp only at hy
      refine (op_congr op (iff_false_intro ?_) (iff_false_intro ?_)).mp hp
      · exact not_mem_of_above htop1 (by omega)
      · exact not_mem_of_above htop2 (by omega)
    · have := htop1 a (List.mem_of_mem_head? ha)
      dsimp only
      omega
  obtain ⟨hinv, hend⟩ := hinit.loop hc
  unfold regionOp
  dsimp only
  generalize regionLoop fs _ = s at hinv hend ⊢
  by_cases hr1 : s.r1 = []
  · rw [if_neg (not_not.mpr hr1)]
    refine hinv.built.remaining hinv.rest2 hc.second fun x y hy => ?_
    rw [hinv.mem_result hy, hr1, points_nil,
      op_congr op (iff_false_intro (Set.notMem_empty (x, y))) Iff.rfl, op_second hc]
  · rw [if_pos hr1]
    have hr2 := hend.resolve_left hr1
    refine hinv.built.remaining hinv.rest1 hc.first fun x y hy => ?_
    rw [hinv.mem_result hy, hr2, points_nil,
      op_congr op Iff.rfl (iff_false_intro (Set.notMem_empty (x, y))), op_first hc]

end Wine.Regions
