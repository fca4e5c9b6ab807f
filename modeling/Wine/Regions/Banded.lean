import Wine.Regions.Bands
import Mathlib.Data.List.TakeWhile

/-!
# Lists of bands

A region that passes the validation is a list of bands, each above the next one. Two bands that the
coalescing makes into one cover what they covered before.
-/

namespace Wine.Regions

/-- The points of a rectangle. -/
def Rect.Mem (x y : ℤ) (r : Rect) : Prop := r.left ≤ x ∧ x < r.right ∧ r.top ≤ y ∧ y < r.bottom

/-- The points of a list of rectangles. -/
def points (rects : List Rect) : Set (ℤ × ℤ) := {p | ∃ r ∈ rects, r.Mem p.1 p.2}

/-- `s` comes after `r`, in the same band or in one below. -/
def Before (r s : Rect) : Prop :=
  r.top = s.top ∧ r.bottom = s.bottom ∧ r.right < s.left ∨ r.bottom ≤ s.top

@[mk_iff]
structure Banded (rects : List Rect) : Prop where
  nonempty : ∀ r ∈ rects, r.left < r.right ∧ r.top < r.bottom
  before : rects.Pairwise Before

variable {rects as bs ps out reg band last : List Rect} {a b p r s : Rect}
  {x y top bottom : ℤ} {k : ℕ}

theorem mem_points {p : ℤ × ℤ} : p ∈ points rects ↔ ∃ r ∈ rects, r.Mem p.1 p.2 := Iff.rfl

@[simp] theorem points_nil : points [] = ∅ :=
  Set.eq_empty_of_forall_notMem fun _ ⟨_, h, _⟩ => List.not_mem_nil h

theorem mem_points_cons : (x, y) ∈ points (a :: as) ↔ a.Mem x y ∨ (x, y) ∈ points as := by
  simp only [mem_points, List.mem_cons, exists_eq_or_imp]

theorem points_append : points (as ++ bs) = points as ∪ points bs := by
  ext p
  simp only [mem_points, List.mem_append, Set.mem_union, or_and_right, exists_or]

theorem Before.trans (h : Before a b) (hb : b.left < b.right ∧ b.top < b.bottom)
    (h' : Before b r) : Before a r := by
  unfold Before at *
  omega

theorem Banded.nil : Banded [] := ⟨by simp, .nil⟩

theorem banded_cons : Banded (a :: as) ↔
    (a.left < a.right ∧ a.top < a.bottom) ∧ (∀ r ∈ as, Before a r) ∧ Banded as := by
  simp only [banded_iff, List.forall_mem_cons, List.pairwise_cons]
  tauto

theorem banded_append : Banded (as ++ bs) ↔
    Banded as ∧ Banded bs ∧ ∀ r ∈ as, ∀ s ∈ bs, Before r s := by
  simp only [banded_iff, List.forall_mem_append, List.pairwise_append]
  tauto

/-! ## Validation -/

theorem isEmpty_iff : r.isEmpty = false ↔ r.left < r.right ∧ r.top < r.bottom := by
  simp [Rect.isEmpty]

theorem validateRectangles_iff : validateRectangles rects = true ↔ Banded rects := by
  fun_induction validateRectangles rects with
  | case1 => exact iff_of_true rfl .nil
  | case2 r =>
    rw [Bool.not_eq_true', isEmpty_iff]
    exact ⟨fun h => ⟨List.forall_mem_singleton.mpr h, List.pairwise_singleton _ _⟩,
      fun h => h.nonempty r (List.mem_singleton_self r)⟩
  | case3 r s rects ih =>
    simp only [Bool.and_eq_true, Bool.not_eq_true', ih, banded_cons (a := r)]
    rw [isEmpty_iff, and_assoc]
    refine and_congr_right fun hne => ?_
    have hlink : (if r.top = s.top then decide (r.bottom = s.bottom) && decide (r.right < s.left)
        else decide (r.bottom ≤ s.top)) = true ↔ Before r s := by
      unfold Before
      split_ifs with htop <;> simp only [Bool.and_eq_true, decide_eq_true_eq] <;> omega
    rw [hlink]
    refine and_congr_left fun hb => ⟨fun hrs => ?_, fun h => h s List.mem_cons_self⟩
    obtain ⟨hs, hbefore, -⟩ := banded_cons.mp hb
    exact List.forall_mem_cons.mpr ⟨hrs, fun t ht => hrs.trans hs (hbefore t ht)⟩

theorem IsBand.banded (h : IsBand top bottom band) (htb : top < bottom) : Banded band where
  nonempty r hr := by
    obtain ⟨rfl, rfl⟩ := h.tops r hr
    exact ⟨h.spaced.1 r hr, htb⟩
  before := by
    refine h.spaced.2.imp_of_mem fun hr hs hlt => .inl ?_
    obtain ⟨hrt, hrb⟩ := h.tops _ hr
    obtain ⟨hst, hsb⟩ := h.tops _ hs
    exact ⟨hrt.trans hst.symm, hrb.trans hsb.symm, hlt⟩

theorem IsBand.mem_points (h : IsBand top bottom band) :
    (x, y) ∈ points band ↔ Covers band x ∧ top ≤ y ∧ y < bottom := by
  constructor
  · rintro ⟨r, hr, hl, hrt, ht, hb⟩
    obtain ⟨rfl, rfl⟩ := h.tops r hr
    exact ⟨⟨r, hr, hl, hrt⟩, ht, hb⟩
  · rintro ⟨⟨r, hr, hl, hrt⟩, ht, hb⟩
    obtain ⟨htop, hbot⟩ := h.tops r hr
    exact ⟨r, hr, hl, hrt, by rwa [htop], by rwa [hbot]⟩

/-! ## The first band -/

theorem firstBand_append (rects : List Rect) : firstBand rects ++ otherBands rects = rects := by
  have hprefix : firstBand rects <+: rects := by
    cases rects with
    | nil => exact List.prefix_rfl
    | cons r rects => exact List.takeWhile_prefix _
  rw [otherBands, List.prefix_iff_eq_append.mp hprefix]

theorem firstBand_eq (a : Rect) (as : List Rect) :
    firstBand (a :: as) = (a :: as).takeWhile fun s => s.top = a.top := rfl

theorem otherBands_eq (a : Rect) (as : List Rect) :
    otherBands (a :: as) = (a :: as).dropWhile fun s => s.top = a.top := by
  have happ := firstBand_append (a :: as)
  have heq := List.takeWhile_append_dropWhile (p := fun s : Rect => s.top = a.top) (l := a :: as)
  rw [firstBand_eq] at happ
  exact List.append_cancel_left (happ.trans heq.symm)

theorem firstBand_cons (h : Banded (a :: as)) : IsBand a.top a.bottom (firstBand (a :: as)) := by
  have htop : ∀ r ∈ firstBand (a :: as), r.top = a.top := by
    intro r hr
    exact of_decide_eq_true (List.mem_takeWhile_imp (p := fun s : Rect => s.top = a.top) hr)
  have hsub : (firstBand (a :: as)).Sublist (a :: as) := List.takeWhile_sublist _
  obtain ⟨ha, hbefore, has⟩ := banded_cons.mp h
  refine ⟨fun r hr => ⟨htop r hr, ?_⟩, fun r hr => (h.nonempty r (hsub.subset hr)).1, ?_⟩
  · obtain rfl | hmem := List.mem_cons.mp (hsub.subset hr)
    · rfl
    · have hb := hbefore r hmem
      have ht := htop r hr
      unfold Before at hb
      omega
  · refine (h.before.sublist hsub).imp_of_mem fun hr hs hb => ?_
    have hrt := htop _ hr
    have hst := htop _ hs
    have hne := h.nonempty _ (hsub.subset hr)
    unfold Before at hb
    omega

theorem Banded.otherBands (h : Banded rects) : Banded (otherBands rects) := by
  have happ := firstBand_append rects
  rw [← happ] at h
  exact (banded_append.mp h).2.1

/-- No rectangle begins or ends above the first one. -/
theorem head_le (h : Banded (a :: as)) : ∀ r ∈ a :: as, a.top ≤ r.top ∧ a.bottom ≤ r.bottom := by
  obtain ⟨ha, hbefore, -⟩ := banded_cons.mp h
  refine List.forall_mem_cons.mpr ⟨⟨le_rfl, le_rfl⟩, fun r hr => ?_⟩
  have hb := hbefore r hr
  have hne := h.nonempty r (List.mem_cons_of_mem a hr)
  unfold Before at hb
  omega

/-- Behind the first band all rectangles are below it. -/
theorem otherBands_below (h : Banded (a :: as)) : ∀ r ∈ otherBands (a :: as), a.bottom ≤ r.top := by
  have hsub : (otherBands (a :: as)).Sublist (a :: as) := List.drop_sublist ..
  have hb := h.otherBands
  have heq := otherBands_eq a as
  cases hother : otherBands (a :: as) with
  | nil => simp
  | cons b bs =>
    rw [hother] at hsub hb heq
    have htop : b.top ≠ a.top := by
      have hhead := List.head?_dropWhile_not (fun s : Rect => decide (s.top = a.top)) (a :: as)
      rw [← heq] at hhead
      exact of_decide_eq_false hhead
    have hab : a.bottom ≤ b.top := by
      obtain rfl | hmem := List.mem_cons.mp (hsub.subset List.mem_cons_self)
      · exact absurd rfl htop
      · have := (banded_cons.mp h).2.1 b hmem
        unfold Before at this
        omega
    exact fun r hr => hab.trans (head_le hb r hr).1

/-- The points of a region are those of its first band and those below. -/
theorem points_cons (h : Banded (a :: as)) : (x, y) ∈ points (a :: as) ↔
    Covers (firstBand (a :: as)) x ∧ a.top ≤ y ∧ y < a.bottom ∨
      (x, y) ∈ points (otherBands (a :: as)) := by
  rw [← (firstBand_cons h).mem_points, ← Set.mem_union, ← points_append, firstBand_append]

theorem not_mem_of_above (h : ∀ r ∈ reg, top ≤ r.top) (hy : y < top) : (x, y) ∉ points reg := by
  rintro ⟨r, hr, -, -, hle, -⟩
  exact hy.not_ge ((h r hr).trans hle)

/-- No point lies above the first band. -/
theorem not_mem_above (h : Banded (a :: as)) (hy : y < a.top) : (x, y) ∉ points (a :: as) :=
  not_mem_of_above (fun r hr => (head_le h r hr).1) hy

/-- The corner of a rectangle is one of its points. -/
theorem Banded.corner_mem (h : Banded rects) (hr : r ∈ rects) : (r.left, r.top) ∈ points rects :=
  ⟨r, hr, le_rfl, (h.nonempty r hr).1, le_rfl, (h.nonempty r hr).2⟩

/-- The opposite corner is another one. -/
theorem Banded.end_mem (h : Banded rects) (hr : r ∈ rects) :
    (r.right - 1, r.bottom - 1) ∈ points rects := by
  have hne := h.nonempty r hr
  refine ⟨r, hr, ?_⟩
  unfold Rect.Mem
  dsimp only
  omega

/-! ## Coalescing

When a band is added, it is made one with the band before it if that band ends where it begins and
has the same intervals.
-/

/-- The last band of `reg` begins behind `k` rectangles. -/
def LastBand (reg : List Rect) (k : ℕ) : Prop :=
  ∃ front last top, reg = front ++ last ∧ front.length = k ∧ (∀ r ∈ last, r.top = top) ∧
    ∀ r ∈ front, r.bottom ≤ top

theorem LastBand.nil : LastBand [] 0 := ⟨[], [], 0, rfl, rfl, by simp, by simp⟩

/-- What is added below a region is its last band, if it is a single one. -/
theorem LastBand.append (hband : IsBand top bottom out) (hsep : ∀ r ∈ reg, r.bottom ≤ top) :
    LastBand (reg ++ out) reg.length :=
  ⟨reg, out, top, rfl, rfl, fun r hr => (hband.tops r hr).1, hsep⟩

theorem isBand_of_tops (h : Banded (p :: ps)) (htops : ∀ r ∈ p :: ps, r.top = p.top) :
    IsBand p.top p.bottom (p :: ps) := by
  have hfirst : firstBand (p :: ps) = p :: ps := by
    rw [firstBand_eq, List.takeWhile_eq_self_iff]
    exact fun r hr => decide_eq_true (htops r hr)
  exact hfirst ▸ firstBand_cons h

theorem zipWith_bottom (hlen : as.length = bs.length) (hb : ∀ r ∈ bs, r.bottom = bottom) :
    List.zipWith (fun p c : Rect => { p with bottom := c.bottom }) as bs =
      as.map fun p => { p with bottom := bottom } := by
  refine List.ext_getElem (by simp [hlen]) fun i h1 h2 => ?_
  simp [hb]

theorem covers_congr
    (h : as.map (fun r => (r.left, r.right)) = bs.map fun r => (r.left, r.right)) :
    Covers as x ↔ Covers bs x := by
  have hmap := congrArg (∃ q ∈ ·, q.1 ≤ x ∧ x < q.2) h
  simpa [Covers] using hmap

/-- The band `cur` begins where `prev` ends and has the same intervals. -/
def Joins (prev cur : List Rect) : Prop :=
  cur.length = prev.length ∧ cur ≠ [] ∧ prev.head?.map (·.bottom) = cur.head?.map (·.top) ∧
    prev.map (fun r => (r.left, r.right)) = cur.map (fun r => (r.left, r.right))

/-- What the coalescing does with a region and the bands below it. -/
theorem coalesceRegion_eq (front last out : List Rect) :
    (Joins last (firstBand out) →
      coalesceRegion (front ++ last ++ out) front.length (front ++ last).length =
        (front ++ List.zipWith (fun p c : Rect => { p with bottom := c.bottom }) last
          (firstBand out) ++ otherBands out,
          if otherBands out = [] then front.length else lastBandStart (front ++ last ++ out))) ∧
    (¬Joins last (firstBand out) →
      coalesceRegion (front ++ last ++ out) front.length (front ++ last).length =
        (front ++ last ++ out, if otherBands out = [] then (front ++ last).length
          else lastBandStart (front ++ last ++ out))) := by
  have hprev : ((front ++ last ++ out).drop front.length).take
      ((front ++ last).length - front.length) = last := by simp
  have hfront : (front ++ last ++ out).take front.length = front := by simp
  unfold coalesceRegion
  simp only [List.drop_left, hprev, hfront]
  refine ⟨fun h => ?_, fun h => if_neg h⟩
  unfold Joins at h
  rw [if_pos h]
  split_ifs <;> rfl

/-- The last band and the one below it, which begins where it ends and has the same intervals. -/
structure Mergeable (band cur : List Rect) (top middle bottom : ℤ) : Prop where
  last : IsBand top middle band
  next : IsBand middle bottom cur
  covers : ∀ x, Covers band x ↔ Covers cur x
  lt : top < middle

theorem mergeable (hlast : Banded last) (hout : Banded (a :: as)) (htops : ∀ r ∈ last, r.top = top)
    (hj : Joins last (firstBand (a :: as))) :
    Mergeable last (firstBand (a :: as)) top a.top a.bottom := by
  obtain ⟨-, -, hhead, hmap⟩ := hj
  have hfirst : (firstBand (a :: as)).head?.map (·.top) = some a.top := by
    rw [firstBand_eq, List.takeWhile_cons_of_pos (p := fun s : Rect => s.top = a.top)
      (decide_eq_true rfl)]
    rfl
  rw [hfirst] at hhead
  cases last with
  | nil => cases hhead
  | cons p ps =>
    obtain rfl : p.top = top := htops p List.mem_cons_self
    have hbot : p.bottom = a.top := Option.some.inj hhead
    exact ⟨hbot ▸ isBand_of_tops hlast htops, firstBand_cons hout, fun x => covers_congr hmap,
      (hlast.nonempty p List.mem_cons_self).2.trans_eq hbot⟩

theorem Mergeable.points {cur : List Rect} {middle : ℤ} (h : Mergeable band cur top middle bottom)
    (hlt : middle < bottom) :
    points (band.map fun r => { r with bottom := bottom }) = points band ∪ points cur := by
  ext ⟨x, y⟩
  have hlt' := h.lt
  have hband : IsBand top bottom (band.map fun r => { r with bottom := bottom }) :=
    h.last.map fun r hr => by rw [(h.last.tops r hr).1]
  rw [Set.mem_union, h.last.mem_points, h.next.mem_points, hband.mem_points,
    covers_map (by exact fun _ => ⟨rfl, rfl⟩), h.covers]
  by_cases hx : Covers cur x
  · simp only [hx, true_and]
    omega
  · simp only [hx, false_and, or_false]

theorem coalesce_spec (hb : Banded (reg ++ out)) (hne : out ≠ [])
    (hsep : ∀ r ∈ reg, ∀ s ∈ out, r.bottom ≤ s.top) (hl : LastBand reg k) :
    Banded (coalesceRegion (reg ++ out) k reg.length).1 ∧
      points (coalesceRegion (reg ++ out) k reg.length).1 = points (reg ++ out) ∧
      (otherBands out = [] → LastBand (coalesceRegion (reg ++ out) k reg.length).1
        (coalesceRegion (reg ++ out) k reg.length).2) := by
  obtain ⟨front, last, top, rfl, rfl, htops, habove⟩ := hl
  obtain ⟨a, as, rfl⟩ := List.exists_cons_of_ne_nil hne
  obtain ⟨hreg, hout, hbefore⟩ := banded_append.mp hb
  obtain ⟨hfront, hlast, -⟩ := banded_append.mp hreg
  have hcur := firstBand_cons hout
  by_cases hj : Joins last (firstBand (a :: as))
  · have hm := mergeable hlast hout htops hj
    have ha := (hout.nonempty a List.mem_cons_self).2
    have hband : IsBand top a.bottom (last.map fun r => { r with bottom := a.bottom }) :=
      hm.last.map fun r hr => by rw [(hm.last.tops r hr).1]
    rw [(coalesceRegion_eq ..).1 hj, zipWith_bottom hj.1.symm fun r hr => (hcur.tops r hr).2]
    refine ⟨banded_append.mpr ⟨banded_append.mpr ⟨hfront, hband.banded (hm.lt.trans ha), ?_⟩,
      hout.otherBands, List.forall_mem_append.mpr ⟨fun r hr s hs => ?_, fun r hr s hs => .inr ?_⟩⟩,
      ?_, fun hrest => ?_⟩
    · exact fun r hr s hs => .inr ((habove r hr).trans_eq (hband.tops s hs).1.symm)
    · exact hbefore r (List.mem_append_left _ hr) s (List.mem_of_mem_drop hs)
    · exact (hband.tops r hr).2.trans_le (otherBands_below hout s hs)
    · rw [points_append, points_append, hm.points ha]
      conv_rhs => rw [points_append, points_append, ← firstBand_append (a :: as), points_append]
      simp only [Set.union_assoc]
    · rw [if_pos hrest, hrest, List.append_nil]
      exact .append hband habove
  · rw [(coalesceRegion_eq ..).2 hj]
    refine ⟨hb, rfl, fun hrest => ?_⟩
    have happ := firstBand_append (a :: as)
    rw [hrest, List.append_nil] at happ
    rw [if_pos hrest]
    exact .append (happ ▸ hcur) fun r hr => hsep r hr a List.mem_cons_self

end Wine.Regions
