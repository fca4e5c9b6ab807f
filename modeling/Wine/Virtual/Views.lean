import Mathlib.Data.List.TakeWhile
import Mathlib.Tactic.Common

/-!
# The list of memory views

The views are a list by base address. A new view is inserted before the first view that starts behind
its base; of the views that overlap it, which are system views that got unmapped, at most one before it
and one behind it are deleted.
-/

namespace Wine.Virtual

/-- One more than the greatest address. -/
def addressLimit : ℕ := 0x100000000

def pageSize : ℕ := 0x1000

/-- A range of pages. Its end is an address, so that the sum of base and size does not wrap. -/
structure Range where
  base : ℕ
  size : ℕ
  base_aligned : base % pageSize = 0
  size_aligned : size % pageSize = 0
  size_pos : 0 < size
  limit_lt : base + size < addressLimit
  deriving DecidableEq

def Range.limit (r : Range) : ℕ := r.base + r.size

/-- The flags `VFLAG_SYSTEM` and `VFLAG_VALLOC` of a view, and its protection. -/
structure View extends Range where
  system : Bool
  valloc : Bool
  protect : BitVec 8
  deriving DecidableEq

inductive Failure where
  | noMemory
  | assertion
  deriving DecidableEq, Repr

/-- `VIRTUAL_FindView` -/
def virtualFindView (addr : ℕ) : List View → Option View
  | [] => none
  | view :: views =>
    if addr < view.base then none
    else if addr < view.limit then some view
    else virtualFindView addr views

/-- `find_view_range` -/
def findViewRange (addr size : ℕ) : List View → Option View
  | [] => none
  | view :: views =>
    if addr + size ≤ view.base then none
    else if addr < view.limit then some view
    else findViewRange addr size views

/-- The views before the insertion point without the last one if it overlaps `r`. -/
def dropPrev (r : Range) (before : List View) : Except Failure (List View) :=
  match before.getLast? with
  | none => .ok before
  | some prev =>
    if r.base < prev.limit then
      if prev.system then .ok before.dropLast else .error .assertion
    else .ok before

/-- The views behind the insertion point without the first one if it overlaps `r`. -/
def dropNext (r : Range) : List View → Except Failure (List View)
  | [] => .ok []
  | next :: behind =>
    if next.base < r.limit then
      if next.system then .ok behind else .error .assertion
    else .ok (next :: behind)

/-- `create_view`; `allocated` tells whether there was memory for the view. -/
def createView (allocated : Bool) (r : Range) (vprot : BitVec 8) (views : List View) :
    Except Failure (View × List View) :=
  if allocated then do
    let view : View := { r with system := false, valloc := false, protect := vprot }
    let before ← dropPrev r (views.takeWhile fun next => next.base ≤ r.base)
    let behind ← dropNext r (views.dropWhile fun next => next.base ≤ r.base)
    return (view, before ++ view :: behind)
  else .error .noMemory

variable {r : Range} {v w view : View} {views before behind : List View} {a : ℕ} {p : BitVec 8}

/-- Two ranges share an address. -/
def Overlap (r r' : Range) : Prop := r.base < r'.limit ∧ r'.base < r.limit

instance (r r' : Range) : Decidable (Overlap r r') := by
  unfold Overlap
  infer_instance

/-- A list that is sorted by base and has pairwise disjoint views. -/
structure Tidy (views : List View) : Prop where
  sorted : views.Pairwise fun v w => v.base ≤ w.base
  disjoint : views.Pairwise fun v w => ¬Overlap v.toRange w.toRange

/-- The lookup returns the view that contains an address. -/
def Finds (views : List View) : Prop :=
  ∀ a v, virtualFindView a views = some v ↔ v ∈ views ∧ v.base ≤ a ∧ a < v.limit

theorem Range.base_lt_limit (r : Range) : r.base < r.limit := by
  have hpos := r.size_pos
  unfold Range.limit
  omega

theorem tidy_iff : Tidy views ↔ views.Pairwise fun v w => v.limit ≤ w.base := by
  constructor
  · intro h
    refine (h.sorted.and h.disjoint).imp ?_
    rintro v w ⟨hle, hdisjoint⟩
    have hlt := w.toRange.base_lt_limit
    unfold Overlap at hdisjoint
    omega
  · intro h
    refine ⟨h.imp fun {v w} hle => ?_, h.imp fun {v w} hle => ?_⟩
    · exact Nat.le_trans (Nat.le_of_lt v.toRange.base_lt_limit) hle
    · exact fun hoverlap => absurd hoverlap.2 (Nat.not_lt.mpr hle)

/-- In a tidy list the lookup is right. -/
theorem Tidy.finds (h : Tidy views) : Finds views := by
  rw [tidy_iff] at h
  intro a v
  induction views with
  | nil => exact iff_of_false (fun h => by cases h) fun h => absurd h.1 List.not_mem_nil
  | cons w views ih =>
    obtain ⟨hfirst, hrest⟩ := List.pairwise_cons.mp h
    have hlt := w.toRange.base_lt_limit
    rw [virtualFindView]
    split
    · next hbelow =>
      refine iff_of_false (fun h => by cases h) ?_
      rintro ⟨hv, hle, -⟩
      rcases List.mem_cons.mp hv with rfl | hv
      · omega
      · have hafter := hfirst v hv
        omega
    · next hbelow =>
      split
      · next hin =>
        constructor
        · rintro heq
          obtain rfl := Option.some.inj heq
          exact ⟨List.mem_cons_self, by omega, hin⟩
        · rintro ⟨hv, hle, -⟩
          rcases List.mem_cons.mp hv with rfl | hv
          · rfl
          · have hafter := hfirst v hv
            omega
      · next hout =>
        rw [ih hrest, List.mem_cons]
        constructor
        · exact fun ⟨hv, hle⟩ => ⟨Or.inr hv, hle⟩
        · rintro ⟨rfl | hv, hle⟩
          · omega
          · exact ⟨hv, hle⟩

/-- The views that start inside a range. -/
def startingIn (r : Range) (views : List View) : List View :=
  views.filter fun v => r.base < v.base ∧ v.base < r.limit

/-- Only system views overlap the range. -/
def OverlapsOnlySystem (r : Range) (views : List View) : Prop :=
  ∀ v ∈ views, Overlap v.toRange r → v.system = true

/-- The insertion point: what stands before it and behind it. -/
structure Split (r : Range) (before behind : List View) : Prop where
  before_le : ∀ v ∈ before, v.base ≤ r.base
  behind_gt : ∀ v ∈ behind, r.base < v.base

theorem Tidy.split (h : Tidy views) : Split r (views.takeWhile fun next => next.base ≤ r.base)
    (views.dropWhile fun next => next.base ≤ r.base) := by
  refine ⟨fun v hv => ?_, ?_⟩
  · have hle := List.mem_takeWhile_imp hv
    exact of_decide_eq_true hle
  have hsorted := h.sorted
  clear h
  induction views with
  | nil => exact fun v hv => absurd hv List.not_mem_nil
  | cons w views ih =>
    obtain ⟨hfirst, hrest⟩ := List.pairwise_cons.mp hsorted
    rw [List.dropWhile_cons]
    split
    · exact ih hrest
    · next hw =>
      have hgt : r.base < w.base := Nat.lt_of_not_le (of_decide_eq_false (Bool.eq_false_iff.mpr hw))
      intro v hv
      rcases List.mem_cons.mp hv with rfl | hv
      · exact hgt
      · exact Nat.lt_of_lt_of_le hgt (hfirst v hv)

/-- Of the views before the insertion point only the last one can overlap, and it is deleted then. -/
theorem dropPrev_spec (htidy : before.Pairwise fun v w => v.limit ≤ w.base)
    (hle : ∀ v ∈ before, v.base ≤ r.base) (hsystem : OverlapsOnlySystem r before) :
    ∃ kept, dropPrev r before = .ok kept ∧ kept.Sublist before ∧ ∀ v ∈ kept, v.limit ≤ r.base := by
  rcases List.eq_nil_or_concat before with rfl | ⟨front, prev, rfl⟩
  · exact ⟨[], rfl, List.Sublist.refl [], fun v hv => absurd hv List.not_mem_nil⟩
  · rw [List.concat_eq_append] at *
    obtain ⟨-, -, hlast⟩ := List.pairwise_append.mp htidy
    have hfront : ∀ v ∈ front, v.limit ≤ r.base := fun v hv =>
      Nat.le_trans (hlast v hv prev (List.mem_singleton.mpr rfl))
        (hle prev (List.mem_append_right _ (List.mem_singleton.mpr rfl)))
    have hmem : prev ∈ front ++ [prev] := List.mem_append_right _ (List.mem_singleton.mpr rfl)
    rw [dropPrev, List.getLast?_append, List.getLast?_singleton, Option.some_or]
    dsimp only
    by_cases hover : r.base < prev.limit
    · have hbase := hle prev hmem
      have hlt := r.base_lt_limit
      rw [if_pos hover, hsystem prev hmem ⟨by omega, hover⟩, if_pos rfl, List.dropLast_concat]
      exact ⟨front, rfl, List.sublist_append_left front [prev], hfront⟩
    · rw [if_neg hover]
      refine ⟨front ++ [prev], rfl, List.Sublist.refl _, fun v hv => ?_⟩
      rcases List.mem_append.mp hv with hv | hv
      · exact hfront v hv
      · rw [List.mem_singleton.mp hv]
        exact Nat.le_of_not_lt hover

/-- Behind the insertion point the first view is deleted if it overlaps. -/
theorem dropNext_spec (htidy : behind.Pairwise fun v w => v.limit ≤ w.base)
    (hgt : ∀ v ∈ behind, r.base < v.base) (hsystem : OverlapsOnlySystem r behind) :
    ∃ kept, dropNext r behind = .ok kept ∧ kept.Sublist behind ∧
      ((∀ v ∈ kept, r.limit ≤ v.base) ↔ (startingIn r behind).length ≤ 1) := by
  cases behind with
  | nil =>
    exact ⟨[], rfl, List.Sublist.refl [],
      iff_of_true (fun v hv => absurd hv List.not_mem_nil) (Nat.zero_le 1)⟩
  | cons next behind =>
    obtain ⟨hfirst, hrest⟩ := List.pairwise_cons.mp htidy
    have hbase := hgt next List.mem_cons_self
    have hlt := next.toRange.base_lt_limit
    rw [dropNext]
    by_cases hover : next.base < r.limit
    · rw [if_pos hover, hsystem next List.mem_cons_self ⟨hover, by omega⟩, if_pos rfl]
      refine ⟨behind, rfl, List.sublist_cons_self next behind, ?_⟩
      have hin : decide (r.base < next.base ∧ next.base < r.limit) = true :=
        decide_eq_true ⟨hbase, hover⟩
      rw [startingIn, List.filter_cons, if_pos hin, List.length_cons, Nat.succ_le_succ_iff,
        Nat.le_zero, List.length_eq_zero_iff, List.filter_eq_nil_iff]
      refine forall₂_congr fun v hv => ?_
      have hv' := hgt v (List.mem_cons_of_mem _ hv)
      rw [decide_eq_true_eq]
      omega
    · rw [if_neg hover]
      have hall : ∀ v ∈ next :: behind, r.limit ≤ v.base := by
        intro v hv
        rcases List.mem_cons.mp hv with rfl | hv
        · exact Nat.le_of_not_lt hover
        · have hafter := hfirst v hv
          omega
      refine ⟨next :: behind, rfl, List.Sublist.refl _, iff_of_true hall ?_⟩
      have hnil : startingIn r (next :: behind) = [] := by
        rw [startingIn, List.filter_eq_nil_iff]
        intro v hv
        have hv' := hall v hv
        rw [decide_eq_true_eq]
        omega
      rw [hnil]
      exact Nat.zero_le 1

theorem startingIn_append : startingIn r (before ++ behind) =
    startingIn r before ++ startingIn r behind := List.filter_append ..

/-- The list after a successful call is tidy, contains the new view and the lookup is right. -/
def Kept (r : Range) (view : View) (views : List View) : Prop :=
  view.toRange = r ∧ view ∈ views ∧ Tidy views ∧ Finds views

/-- With only system views in the way the call succeeds, and the list stays sorted and disjoint exactly
when at most one view starts behind the base of the new one and before its end. -/
theorem createView_keeps_iff (views : List View) (r : Range) (vprot : BitVec 8) (htidy : Tidy views)
    (hsystem : OverlapsOnlySystem r views) :
    ∃ view views', createView true r vprot views = .ok (view, views') ∧
      (Kept r view views' ↔ (startingIn r views).length ≤ 1) := by
  obtain ⟨before, hbefore⟩ : ∃ l, (views.takeWhile fun next => next.base ≤ r.base) = l := ⟨_, rfl⟩
  obtain ⟨behind, hbehind⟩ : ∃ l, (views.dropWhile fun next => next.base ≤ r.base) = l := ⟨_, rfl⟩
  have hviews : before ++ behind = views := by
    rw [← hbefore, ← hbehind]
    exact List.takeWhile_append_dropWhile
  have hsplit : Split r before behind := by
    rw [← hbefore, ← hbehind]
    exact htidy.split
  rw [tidy_iff, ← hviews] at htidy
  obtain ⟨hleft, hright, hcross⟩ := List.pairwise_append.mp htidy
  rw [← hviews] at hsystem
  obtain ⟨kept, hkept, hsub, hlimit⟩ := dropPrev_spec hleft hsplit.before_le
    fun v hv => hsystem v (List.mem_append_left _ hv)
  obtain ⟨kept', hkept', hsub', hiff⟩ := dropNext_spec hright hsplit.behind_gt
    fun v hv => hsystem v (List.mem_append_right _ hv)
  let view : View := { r with system := false, valloc := false, protect := vprot }
  refine ⟨view, kept ++ view :: kept', ?_, ?_⟩
  · rw [createView, if_pos rfl, hbefore, hbehind, hkept, hkept']
    rfl
  · have hnone : startingIn r before = [] := by
      rw [startingIn, List.filter_eq_nil_iff]
      intro v hv
      have hle := hsplit.before_le v hv
      rw [decide_eq_true_eq]
      omega
    rw [← hviews, startingIn_append, hnone, List.nil_append, ← hiff]
    have htidy' : Tidy (kept ++ view :: kept') ↔ ∀ v ∈ kept', r.limit ≤ v.base := by
      rw [tidy_iff, List.pairwise_append, List.pairwise_cons]
      constructor
      · exact fun h => h.2.1.1
      · intro h
        refine ⟨hleft.sublist hsub, ⟨h, hright.sublist hsub'⟩, fun v hv w hw => ?_⟩
        rcases List.mem_cons.mp hw with rfl | hw
        · exact hlimit v hv
        · exact hcross v (hsub.subset hv) w (hsub'.subset hw)
    rw [Kept, htidy']
    constructor
    · exact fun h => h.2.2.1
    · exact fun h => ⟨rfl, List.mem_append_right _ List.mem_cons_self, h, (htidy'.mpr h).finds⟩

section Samples

/-- The pages from `base` on. -/
def pages (base size : ℕ) (h : base % pageSize = 0 ∧ size % pageSize = 0 ∧ 0 < size ∧
    base + size < addressLimit) : Range := ⟨base, size, h.1, h.2.1, h.2.2.1, h.2.2.2⟩

def stale (r : Range) : View := { r with system := true, valloc := true, protect := 0 }

def longRange : Range := pages 0x10000 0x10000 (by decide)

/-- A system view that overlaps the range from below and one inside it. -/
def twoStale : List View :=
  [stale (pages 0xf000 0x2000 (by decide)), stale (pages 0x12000 0x1000 (by decide))]

/-- Two system views inside the range. -/
def swallowed : List View :=
  [stale (pages 0x11000 0x1000 (by decide)), stale (pages 0x12000 0x1000 (by decide))]

instance (views : List View) : Decidable (Tidy views) := decidable_of_iff _ tidy_iff.symm

instance (r : Range) (views : List View) : Decidable (OverlapsOnlySystem r views) := by
  unfold OverlapsOnlySystem
  infer_instance

theorem createView_keeps_sample : ∃ view views',
    createView true longRange 0 twoStale = .ok (view, views') ∧ Kept longRange view views' := by
  obtain ⟨view, views', hcreate, hiff⟩ :=
    createView_keeps_iff twoStale longRange 0 (by decide) (by decide)
  exact ⟨view, views', hcreate, hiff.mpr (by decide)⟩

/-- The second of two views inside the new one stays in the list. -/
theorem not_createView_keeps_swallowed : Tidy swallowed ∧ OverlapsOnlySystem longRange swallowed ∧
    ∃ view views', createView true longRange 0 swallowed = .ok (view, views') ∧ ¬Tidy views' :=
  ⟨by decide, by decide, _, _, rfl, by decide⟩

end Samples

end Wine.Virtual
