import Wine.Regions.Rects

/-!
# Bands of rectangles

On one line a band is a list of intervals that do not touch. The functions for bands that meet
compute the intersection, the difference and the union of two such lists.
-/

namespace Wine.Regions

/-- The band reaches over `x`. -/
def Covers (band : List Rect) (x : ℤ) : Prop := ∃ r ∈ band, r.left ≤ x ∧ x < r.right

/-- The rectangles are not empty and each ends before the next one begins. -/
def Spaced (band : List Rect) : Prop :=
  (∀ r ∈ band, r.left < r.right) ∧ band.Pairwise fun r s => r.right < s.left

/-- The rectangles of a band from `top` to `bottom`. -/
@[mk_iff]
structure IsBand (top bottom : ℤ) (band : List Rect) : Prop where
  tops : ∀ r ∈ band, r.top = top ∧ r.bottom = bottom
  spaced : Spaced band

variable {reg r1 r2 band as bs rects : List Rect} {top bottom left right x : ℤ} {a b r : Rect}

@[simp] theorem covers_nil : ¬Covers [] x := fun ⟨_, h, _⟩ => List.not_mem_nil h

theorem covers_cons : Covers (a :: as) x ↔ a.left ≤ x ∧ x < a.right ∨ Covers as x := by
  simp only [Covers, List.mem_cons, exists_eq_or_imp]

theorem covers_append : Covers (as ++ bs) x ↔ Covers as x ∨ Covers bs x := by
  simp only [Covers, List.mem_append, or_and_right, exists_or]

theorem IsBand.nil : IsBand top bottom [] :=
  ⟨by simp, by simp, .nil⟩

theorem spaced_cons : Spaced (a :: as) ↔
    a.left < a.right ∧ (∀ r ∈ as, a.right < r.left) ∧ Spaced as := by
  unfold Spaced
  rw [List.forall_mem_cons, List.pairwise_cons]
  tauto

theorem Spaced.tail (h : Spaced (a :: as)) : Spaced as := (spaced_cons.mp h).2.2

theorem Spaced.le_of_mem (h : Spaced (a :: as)) : ∀ r ∈ a :: as, a.left ≤ r.left := by
  obtain ⟨ha, hnext, -⟩ := spaced_cons.mp h
  exact List.forall_mem_cons.mpr ⟨le_rfl, fun r hr => (ha.trans (hnext r hr)).le⟩

/-- The rectangles behind the first one begin behind it. -/
@[grind →] theorem Spaced.lt_of_covers (h : Spaced (a :: as)) (hx : Covers as x) : a.right < x := by
  obtain ⟨r, hr, hle, -⟩ := hx
  have hlt := (spaced_cons.mp h).2.1 r hr
  omega

theorem Spaced.left_le (h : Spaced (a :: as)) (hx : Covers (a :: as) x) : a.left ≤ x := by
  obtain ⟨r, hr, hle, -⟩ := hx
  exact (h.le_of_mem r hr).trans hle

theorem spaced_append : Spaced (as ++ bs) ↔
    Spaced as ∧ Spaced bs ∧ ∀ r ∈ as, ∀ s ∈ bs, r.right < s.left := by
  unfold Spaced
  rw [List.forall_mem_append, List.pairwise_append]
  tauto

/-- A band that is moved to other lines. -/
theorem IsBand.map {top' bottom' : ℤ} {f : Rect → Rect} (h : IsBand top bottom band)
    (hf : ∀ r ∈ band, f r = ⟨r.left, top', r.right, bottom'⟩) : IsBand top' bottom' (band.map f) := by
  rw [List.map_congr_left hf]
  exact ⟨List.forall_mem_map.mpr fun _ _ => ⟨rfl, rfl⟩, List.forall_mem_map.mpr h.spaced.1,
    List.pairwise_map.mpr h.spaced.2⟩

theorem covers_map {f : Rect → Rect} (hf : ∀ r, (f r).left = r.left ∧ (f r).right = r.right) :
    Covers (band.map f) x ↔ Covers band x := by
  simp only [Covers, List.mem_map, exists_exists_and_eq_and, hf]

/-! ## Intersection -/

/-- `res` is `reg` with a band that covers the points of `S`. -/
def Emits (reg res : List Rect) (top bottom : ℤ) (S : ℤ → Prop) : Prop :=
  ∃ out, res = reg ++ out ∧ IsBand top bottom out ∧ ∀ x, Covers out x ↔ S x

theorem Emits.none {S : ℤ → Prop} (h : ∀ x, ¬S x) : Emits reg reg top bottom S :=
  ⟨[], (List.append_nil reg).symm, .nil, fun x => iff_of_false covers_nil (h x)⟩

theorem Emits.congr {S S' : ℤ → Prop} {res : List Rect} (h : Emits reg res top bottom S')
    (hS : ∀ x, S x ↔ S' x) : Emits reg res top bottom S := by
  rwa [show S = S' from funext fun x => propext (hS x)]

/-- One rectangle is emitted, and the rest lies behind it. -/
theorem Emits.cons {S S' : ℤ → Prop} {res : List Rect}
    (h : Emits (reg ++ [⟨left, top, right, bottom⟩]) res top bottom S') (hlt : left < right)
    (hS : ∀ x, S x ↔ left ≤ x ∧ x < right ∨ S' x) (hS' : ∀ x, S' x → right < x) :
    Emits reg res top bottom S := by
  obtain ⟨out, hres, hband, hcov⟩ := h
  refine ⟨_, hres.trans (List.append_assoc ..), ⟨List.forall_mem_cons.mpr ⟨⟨rfl, rfl⟩, hband.tops⟩,
    spaced_cons.mpr ⟨hlt, fun r hr => hS' _ ((hcov _).mp ?_), hband.spaced⟩⟩, fun x => ?_⟩
  · exact ⟨r, hr, le_rfl, hband.spaced.1 r hr⟩
  · rw [List.singleton_append, covers_cons, hcov, hS]

/-- One rectangle is emitted unless it is empty. -/
theorem Emits.step {S S' : ℤ → Prop} {res : List Rect}
    (h : Emits (if left < right then reg ++ [⟨left, top, right, bottom⟩] else reg) res top bottom S')
    (hS : ∀ x, S x ↔ left ≤ x ∧ x < right ∨ S' x) (hS' : ∀ x, S' x → right < x) :
    Emits reg res top bottom S := by
  split_ifs at h with hlt
  · exact h.cons hlt hS hS'
  · exact h.congr fun x => (hS x).trans (or_iff_right fun hx => by omega)

theorem intersect_spec (h1 : Spaced r1) (h2 : Spaced r2) :
    Emits reg (intersectOverlapping reg r1 r2 top bottom) top bottom
      fun x => Covers r1 x ∧ Covers r2 x := by
  fun_induction intersectOverlapping reg r1 r2 top bottom with
  | case1 reg a as b bs left right _ hlt ih =>
    refine (ih h1.tail h2).step (fun x => ?_) fun x hx => ?_
    · simp only [covers_cons, left, right, max_le_iff, lt_min_iff]
      grind
    · exact (min_le_left ..).trans_lt (h1.lt_of_covers hx.1)
  | case2 reg a as b bs left right _ hnlt hlt ih =>
    refine (ih h1 h2.tail).step (fun x => ?_) fun x hx => ?_
    · simp only [covers_cons, left, right, max_le_iff, lt_min_iff]
      grind
    · exact (min_le_right ..).trans_lt (h2.lt_of_covers hx.2)
  | case3 reg a as b bs left right _ hnlt hnlt' ih =>
    refine (ih h1.tail h2.tail).step (fun x => ?_) fun x hx => ?_
    · simp only [covers_cons, left, right, max_le_iff, lt_min_iff]
      grind
    · exact (min_le_left ..).trans_lt (h1.lt_of_covers hx.1)
  | case4 reg r1 r2 hne =>
    refine .none fun x hx => ?_
    obtain ⟨⟨r, hr, -⟩, ⟨s, hs, -⟩⟩ := hx
    obtain ⟨a, as, rfl⟩ := List.exists_cons_of_ne_nil (List.ne_nil_of_mem hr)
    obtain ⟨b, bs, rfl⟩ := List.exists_cons_of_ne_nil (List.ne_nil_of_mem hs)
    exact hne a as b bs rfl rfl

/-! ## Difference -/

/-- The place that the subtraction has come to lies in the first rectangle. -/
def Inside (left : ℤ) (r1 : List Rect) : Prop := ∀ a ∈ r1.head?, a.left ≤ left ∧ left < a.right

theorem inside_cons : Inside left (a :: as) ↔ a.left ≤ left ∧ left < a.right := by
  simp [Inside]

theorem inside_nextLeft (h : Spaced as) (left : ℤ) : Inside (nextLeft as left) as := by
  cases as with
  | nil => exact fun _ ha => by cases ha
  | cons a as => exact inside_cons.mpr ⟨le_rfl, (spaced_cons.mp h).1⟩

theorem nextLeft_le (h : Spaced as) (hx : Covers as x) (left : ℤ) : nextLeft as left ≤ x := by
  cases as with
  | nil => exact absurd hx covers_nil
  | cons a as => exact h.left_le hx

/-- What the subtraction has still to emit. -/
def Remains (left : ℤ) (r1 r2 : List Rect) (x : ℤ) : Prop :=
  left ≤ x ∧ Covers r1 x ∧ ¬Covers r2 x

/-- Behind the first rectangle of `r1` the subtraction goes on with the next one. -/
theorem remains_next (h1 : Spaced (a :: as)) (x : ℤ) :
    Remains (nextLeft as left) as r2 x ↔ Covers as x ∧ ¬Covers r2 x ∧ a.right < x := by
  unfold Remains
  constructor
  · rintro ⟨-, hx, hn⟩
    exact ⟨hx, hn, h1.lt_of_covers hx⟩
  · rintro ⟨hx, hn, -⟩
    exact ⟨nextLeft_le h1.tail hx left, hx, hn⟩

theorem subtractFrom_spec (h1 : Spaced r1) (h2 : Spaced r2) (hin : Inside left r1) :
    Emits reg (subtractFrom left reg r1 r2 top bottom) top bottom (Remains left r1 r2) := by
  fun_induction subtractFrom left reg r1 r2 top bottom with
  | case1 left reg r2 => exact .none fun x hx => covers_nil hx.2.1
  | case2 left reg a as ih =>
    obtain ⟨ha, hlt⟩ := inside_cons.mp hin
    refine (ih h1.tail h2 (inside_nextLeft h1.tail _)).cons hlt (fun x => ?_) fun x hx => ?_
    · rw [remains_next h1, Remains, covers_cons]
      grind [covers_nil]
    · exact ((remains_next h1 x).mp hx).2.2
  | case3 left reg a as b bs hle ih =>
    refine (ih h1 h2.tail hin).congr fun x => ?_
    simp only [Remains, covers_cons]
    grind
  | case4 left reg a as b bs hnle hle hright ih =>
    obtain ⟨ha, hlt⟩ := inside_cons.mp hin
    refine (ih h1.tail h2 (inside_nextLeft h1.tail _)).congr fun x => ?_
    rw [remains_next h1]
    simp only [Remains, covers_cons]
    grind
  | case5 left reg a as b bs hnle hle hright ih =>
    obtain ⟨ha, hlt⟩ := inside_cons.mp hin
    refine (ih h1 h2.tail (inside_cons.mpr (by omega))).congr fun x => ?_
    simp only [Remains, covers_cons]
    grind
  | case6 left reg a as b bs hnle hnle' hlt reg' hright ih =>
    obtain ⟨ha, hlt'⟩ := inside_cons.mp hin
    refine (ih h1.tail h2 (inside_nextLeft h1.tail _)).cons (by omega) (fun x => ?_) fun x hx => ?_
    · rw [remains_next h1]
      simp only [Remains, covers_cons]
      grind
    · exact hlt.trans ((remains_next h1 x).mp hx).2.2
  | case7 left reg a as b bs hnle hnle' hlt reg' hright ih =>
    obtain ⟨ha, hlt'⟩ := inside_cons.mp hin
    have hb := (spaced_cons.mp h2).1
    refine (ih h1 h2.tail (inside_cons.mpr (by omega))).cons (by omega) (fun x => ?_)
      fun x hx => hb.trans_le hx.1
    simp only [Remains, covers_cons]
    grind
  | case8 left reg a as b bs hnle hnle' hnlt reg' ih =>
    obtain ⟨ha, hlt⟩ := inside_cons.mp hin
    have hb := (spaced_cons.mp h2).1
    refine (ih h1.tail h2 (inside_nextLeft h1.tail _)).step (fun x => ?_) fun x hx => ?_
    · rw [remains_next h1]
      simp only [Remains, covers_cons]
      grind
    · exact ((remains_next h1 x).mp hx).2.2

theorem subtract_spec (h1 : Spaced r1) (h2 : Spaced r2) :
    Emits reg (subtractOverlapping reg r1 r2 top bottom) top bottom
      fun x => Covers r1 x ∧ ¬Covers r2 x :=
  (subtractFrom_spec h1 h2 (inside_nextLeft h1 0)).congr fun _ =>
    ⟨fun hx => ⟨nextLeft_le h1 hx.1 0, hx⟩, fun hx => hx.2⟩

/-! ## Union -/

theorem isBand_append : IsBand top bottom (as ++ bs) ↔
    IsBand top bottom as ∧ IsBand top bottom bs ∧ ∀ r ∈ as, ∀ s ∈ bs, r.right < s.left := by
  simp only [isBand_iff, List.forall_mem_append, spaced_append]
  tauto

theorem isBand_singleton (h : left < right) : IsBand top bottom [⟨left, top, right, bottom⟩] :=
  ⟨List.forall_mem_singleton.mpr ⟨rfl, rfl⟩,
    List.forall_mem_singleton.mpr h, List.pairwise_singleton _ _⟩

theorem covers_singleton : Covers [r] x ↔ r.left ≤ x ∧ x < r.right := by
  rw [covers_cons, or_iff_left covers_nil]

/-- `res` is `reg` with a band that covers `S` and has no rectangle that begins behind `left`. -/
def Begun (reg res : List Rect) (top bottom : ℤ) (S : ℤ → Prop) (left : ℤ) : Prop :=
  ∃ out, res = reg ++ out ∧ IsBand top bottom out ∧ (∀ x, Covers out x ↔ S x) ∧
    ∀ s ∈ out, s.left ≤ left

variable {res : List Rect} {S : ℤ → Prop}

theorem Begun.emits (h : Begun reg res top bottom S left) : Emits reg res top bottom S :=
  h.imp fun _ ⟨hres, hband, hcov, _⟩ => ⟨hres, hband, hcov⟩

theorem mergeRect_concat (ha : a.top = top ∧ a.bottom = bottom) :
    mergeRect (reg ++ [a]) top bottom r =
      if r.left ≤ a.right then reg ++ [{ a with right := max a.right r.right }]
      else reg ++ [a] ++ [⟨r.left, top, r.right, bottom⟩] := by
  rw [mergeRect, List.getLast?_concat]
  simp only [ha, true_and, List.dropLast_concat]
  split_ifs with htouch hgrow
  · rw [max_eq_right hgrow.le]
  · rw [max_eq_left (Int.not_lt.mp hgrow), ← ha.1, ← ha.2]
  · rfl

/-- A band gets a rectangle that does not begin before one of its others. -/
theorem Begun.mergeRect (h : Begun reg res top bottom S left) (hreg : ∀ s ∈ reg, s.bottom ≤ top)
    (htb : top < bottom) (hleft : left ≤ r.left) (hr : r.left < r.right) :
    Begun reg (mergeRect res top bottom r) top bottom (fun x => S x ∨ r.left ≤ x ∧ x < r.right)
      r.left := by
  obtain ⟨out, rfl, hout, hcov, hle⟩ := h
  have hbegin : ∀ s ∈ out, s.left ≤ r.left := fun s hs => (hle s hs).trans hleft
  have hnew (hright : ∀ s ∈ out, s.right < r.left) : Begun reg
      (reg ++ out ++ [⟨r.left, top, r.right, bottom⟩]) top bottom
      (fun x => S x ∨ r.left ≤ x ∧ x < r.right) r.left := by
    refine ⟨_, List.append_assoc .., isBand_append.mpr ⟨hout, isBand_singleton hr, ?_⟩, fun x => ?_,
      List.forall_mem_append.mpr ⟨hbegin, List.forall_mem_singleton.mpr le_rfl⟩⟩
    · exact fun s hs => List.forall_mem_singleton.mpr (hright s hs)
    · rw [covers_append, covers_singleton, hcov]
  rcases List.eq_nil_or_concat out with rfl | ⟨init, l, rfl⟩
  · rw [List.append_nil] at hnew ⊢
    rw [Regions.mergeRect]
    cases hlast : reg.getLast? with
    | none => exact hnew (by simp)
    | some l =>
      have hl := hreg l (List.mem_of_getLast? hlast)
      dsimp only
      rw [if_neg fun hc => by omega]
      exact hnew (by simp)
  · rw [List.concat_eq_append] at hout hcov hbegin hnew ⊢
    obtain ⟨hinit, hlast, hapart⟩ := isBand_append.mp hout
    obtain ⟨hinitb, hl⟩ := List.forall_mem_append.mp hbegin
    simp only [List.forall_mem_singleton] at hapart hl
    obtain ⟨rfl, rfl⟩ := hlast.tops l (List.mem_singleton_self l)
    have hlr := hlast.spaced.1 l (List.mem_singleton_self l)
    rw [← List.append_assoc, mergeRect_concat ⟨rfl, rfl⟩]
    split_ifs with htouch
    · refine ⟨_, List.append_assoc .., isBand_append.mpr ⟨hinit, isBand_singleton ?_, ?_⟩,
        fun x => ?_, List.forall_mem_append.mpr ⟨hinitb, List.forall_mem_singleton.mpr hl⟩⟩
      · exact hlr.trans_le (le_max_left ..)
      · exact fun s hs => List.forall_mem_singleton.mpr (hapart s hs)
      · dsimp only
        rw [← hcov, covers_append, covers_append, covers_singleton, covers_singleton, or_assoc]
        refine or_congr_right ?_
        dsimp only
        omega
    · rw [List.append_assoc reg]
      refine hnew (List.forall_mem_append.mpr ⟨fun s hs => ?_, ?_⟩)
      · have := hapart s hs
        omega
      · exact List.forall_mem_singleton.mpr (Int.lt_of_not_ge htouch)

theorem Begun.foldl (h : Begun reg res top bottom S left) (hreg : ∀ s ∈ reg, s.bottom ≤ top)
    (htb : top < bottom) (h1 : Spaced r1) (hleft : ∀ t ∈ r1, left ≤ t.left) :
    Emits reg (r1.foldl (fun reg r => Regions.mergeRect reg top bottom r) res) top bottom
      fun x => S x ∨ Covers r1 x := by
  induction r1 generalizing res S left with
  | nil => exact h.emits.congr fun x => or_iff_left covers_nil
  | cons a as ih =>
    obtain ⟨ha, hnext, has⟩ := spaced_cons.mp h1
    have hmerge := h.mergeRect hreg htb (hleft a List.mem_cons_self) ha
    refine (ih hmerge has fun t ht => (ha.trans (hnext t ht)).le).congr fun x => ?_
    rw [covers_cons, or_assoc]

theorem Begun.union (h : Begun reg res top bottom S left) (hreg : ∀ s ∈ reg, s.bottom ≤ top)
    (htb : top < bottom) (h1 : Spaced r1) (h2 : Spaced r2) (hleft1 : ∀ t ∈ r1, left ≤ t.left)
    (hleft2 : ∀ t ∈ r2, left ≤ t.left) :
    Emits reg (unionOverlapping res r1 r2 top bottom) top bottom
      fun x => S x ∨ Covers r1 x ∨ Covers r2 x := by
  fun_induction unionOverlapping res r1 r2 top bottom generalizing S left with
  | case1 res a as b bs hlt ih =>
    obtain ⟨ha, hnext, has⟩ := spaced_cons.mp h1
    have hmerge := h.mergeRect hreg htb (hleft1 a List.mem_cons_self) ha
    refine (ih hmerge has h2 (fun t ht => (ha.trans (hnext t ht)).le)
      fun t ht => hlt.le.trans (h2.le_of_mem t ht)).congr fun x => ?_
    rw [covers_cons (a := a)]
    tauto
  | case2 res a as b bs hnlt ih =>
    obtain ⟨hb, hnext, hbs⟩ := spaced_cons.mp h2
    have hmerge := h.mergeRect hreg htb (hleft2 b List.mem_cons_self) hb
    refine (ih hmerge h1 hbs (fun t ht => (Int.not_lt.mp hnlt).trans (h1.le_of_mem t ht))
      fun t ht => (hb.trans (hnext t ht)).le).congr fun x => ?_
    rw [covers_cons (a := b)]
    tauto
  | case3 res r1 =>
    refine (h.foldl hreg htb h1 hleft1).congr fun x => ?_
    rw [or_iff_left (b := Covers [] x) covers_nil]
  | case4 res r2 hne =>
    refine (h.foldl hreg htb h2 hleft2).congr fun x => ?_
    rw [or_iff_right (a := Covers [] x) covers_nil]

theorem union_spec (hreg : ∀ s ∈ reg, s.bottom ≤ top) (htb : top < bottom) (h1 : Spaced r1)
    (h2 : Spaced r2) : Emits reg (unionOverlapping reg r1 r2 top bottom) top bottom
      fun x => Covers r1 x ∨ Covers r2 x := by
  have hlow {l : List Rect} (h : Spaced l) : ∀ t ∈ l, nextLeft l 0 ≤ t.left :=
    fun t ht => nextLeft_le h ⟨t, ht, le_rfl, h.1 t ht⟩ 0
  have hstart : Begun reg reg top bottom (fun _ => False) (min (nextLeft r1 0) (nextLeft r2 0)) :=
    ⟨[], (List.append_nil reg).symm, .nil, fun _ => iff_of_false covers_nil id, by simp⟩
  refine (hstart.union hreg htb h1 h2 (fun t ht => (min_le_left ..).trans (hlow h1 t ht))
    fun t ht => (min_le_right ..).trans (hlow h2 t ht)).congr fun x => ?_
  rw [false_or]

end Wine.Regions
