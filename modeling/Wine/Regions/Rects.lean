import Mathlib.Order.MinMax
import Mathlib.Data.Set.Basic
import Mathlib.Tactic.Common

/-!
# Regions of the server

A region is a list of rectangles in bands: the rectangles of a band have one top and one bottom and
do not touch, and each band ends before the next one begins.
-/

namespace Wine.Regions

/-- `rectangle_t` -/
structure Rect where
  left : ℤ
  top : ℤ
  right : ℤ
  bottom : ℤ
  deriving DecidableEq, Repr

/-- `empty_rect` -/
def emptyRect : Rect := ⟨0, 0, 0, 0⟩

/-- `num_rects` is the length of `rects`. -/
structure Region where
  rects : List Rect
  extents : Rect
  deriving DecidableEq, Repr

def Rect.isEmpty (r : Rect) : Bool := r.right ≤ r.left || r.bottom ≤ r.top

/-- `validate_rectangles` -/
def validateRectangles : List Rect → Bool
  | [] => true
  | [r] => !r.isEmpty
  | r :: s :: rects => !r.isEmpty &&
      (if r.top = s.top then r.bottom = s.bottom && r.right < s.left else r.bottom ≤ s.top) &&
      validateRectangles (s :: rects)

/-- The rectangles of the first band. -/
def firstBand (rects : List Rect) : List Rect :=
  match rects with
  | [] => []
  | r :: _ => rects.takeWhile fun s => s.top = r.top

/-- The rectangles behind the first band. -/
def otherBands (rects : List Rect) : List Rect := rects.drop (firstBand rects).length

/-- The number of rectangles before the last band. -/
def lastBandStart (rects : List Rect) : ℕ :=
  rects.length - (firstBand rects.reverse).length

/-- `coalesce_region`: the rectangles behind `curStart` are the new ones. -/
def coalesceRegion (rects : List Rect) (prevStart curStart : ℕ) : List Rect × ℕ :=
  let cur := firstBand (rects.drop curStart)
  let rest := otherBands (rects.drop curStart)
  let start := if rest = [] then curStart else lastBandStart rects
  let prev := (rects.drop prevStart).take (curStart - prevStart)
  if cur.length = prev.length ∧ cur ≠ [] ∧
      prev.head?.map (·.bottom) = cur.head?.map (·.top) ∧
      prev.map (fun r => (r.left, r.right)) = cur.map (fun r => (r.left, r.right)) then
    (rects.take prevStart ++ List.zipWith (fun p c => { p with bottom := c.bottom }) prev cur ++
      rest, if rest = [] then prevStart else start)
  else (rects, start)

/-! ## Bands that meet -/

/-- `intersect_overlapping` -/
def intersectOverlapping (reg r1 r2 : List Rect) (top bottom : ℤ) : List Rect :=
  match r1, r2 with
  | a :: as, b :: bs =>
    let left := max a.left b.left
    let right := min a.right b.right
    let reg := if left < right then reg ++ [⟨left, top, right, bottom⟩] else reg
    if a.right < b.right then intersectOverlapping reg as (b :: bs) top bottom
    else if b.right < a.right then intersectOverlapping reg (a :: as) bs top bottom
    else intersectOverlapping reg as bs top bottom
  | _, _ => reg
termination_by r1.length + r2.length

/-- Where the next rectangle begins; behind the last one the value is not used. -/
def nextLeft (r1 : List Rect) (left : ℤ) : ℤ :=
  match r1 with
  | [] => left
  | a :: _ => a.left

/-- The loops of `subtract_overlapping`. -/
def subtractFrom (left : ℤ) (reg r1 r2 : List Rect) (top bottom : ℤ) : List Rect :=
  match r1, r2 with
  | [], _ => reg
  | a :: as, [] =>
    subtractFrom (nextLeft as left) (reg ++ [⟨left, top, a.right, bottom⟩]) as [] top bottom
  | a :: as, b :: bs =>
    if b.right ≤ left then subtractFrom left reg (a :: as) bs top bottom
    else if b.left ≤ left then
      if a.right ≤ b.right then subtractFrom (nextLeft as b.right) reg as (b :: bs) top bottom
      else subtractFrom b.right reg (a :: as) bs top bottom
    else if b.left < a.right then
      let reg := reg ++ [⟨left, top, b.left, bottom⟩]
      if a.right ≤ b.right then subtractFrom (nextLeft as b.right) reg as (b :: bs) top bottom
      else subtractFrom b.right reg (a :: as) bs top bottom
    else
      let reg := if left < a.right then reg ++ [⟨left, top, a.right, bottom⟩] else reg
      subtractFrom (nextLeft as left) reg as (b :: bs) top bottom
termination_by r1.length + r2.length

/-- `subtract_overlapping` -/
def subtractOverlapping (reg r1 r2 : List Rect) (top bottom : ℤ) : List Rect :=
  subtractFrom (nextLeft r1 0) reg r1 r2 top bottom

/-- `MERGERECT` -/
def mergeRect (reg : List Rect) (top bottom : ℤ) (r : Rect) : List Rect :=
  match reg.getLast? with
  | some l =>
    if l.top = top ∧ l.bottom = bottom ∧ r.left ≤ l.right then
      if l.right < r.right then reg.dropLast ++ [{ l with right := r.right }] else reg
    else reg ++ [⟨r.left, top, r.right, bottom⟩]
  | none => reg ++ [⟨r.left, top, r.right, bottom⟩]

/-- `union_overlapping` -/
def unionOverlapping (reg r1 r2 : List Rect) (top bottom : ℤ) : List Rect :=
  match r1, r2 with
  | a :: as, b :: bs =>
    if a.left < b.left then unionOverlapping (mergeRect reg top bottom a) as (b :: bs) top bottom
    else unionOverlapping (mergeRect reg top bottom b) (a :: as) bs top bottom
  | r1, [] => r1.foldl (fun reg r => mergeRect reg top bottom r) reg
  | [], r2 => r2.foldl (fun reg r => mergeRect reg top bottom r) reg
termination_by r1.length + r2.length

/-- `subtract_non_overlapping` and `union_non_overlapping` -/
def nonOverlapping (reg r : List Rect) (top bottom : ℤ) : List Rect :=
  reg ++ r.map fun s => ⟨s.left, top, s.right, bottom⟩

/-! ## The operation -/

/-- What `region_op` does with the bands of the two regions; a null pointer is no function. -/
structure BandFuncs where
  overlap : List Rect → List Rect → List Rect → ℤ → ℤ → List Rect
  nonOverlap1 : Option (List Rect → List Rect → ℤ → ℤ → List Rect)
  nonOverlap2 : Option (List Rect → List Rect → ℤ → ℤ → List Rect)

structure OpState where
  r1 : List Rect
  r2 : List Rect
  ybot : ℤ
  reg : List Rect
  prevBand : ℕ

/-- The call of a function for a band of one region, if there is one. -/
def callNonOverlap (f : Option (List Rect → List Rect → ℤ → ℤ → List Rect))
    (reg band : List Rect) (top bot : ℤ) : List Rect :=
  match f with
  | some f => if top ≠ bot then f reg band top bot else reg
  | none => reg

/-- `coalesce_region`, if rectangles were added to `reg`. -/
def coalesceNew (reg new : List Rect) (prevBand : ℕ) : List Rect × ℕ :=
  if new.length ≠ reg.length then coalesceRegion new prevBand reg.length else (new, prevBand)

/-- The round of the loop of `region_op` for bands that begin with `a` and `b`. -/
def regionStep (fs : BandFuncs) (a b : Rect) (s : OpState) : OpState :=
  let band1 := firstBand s.r1
  let band2 := firstBand s.r2
  let new :=
    if a.top < b.top then
      callNonOverlap fs.nonOverlap1 s.reg band1 (max a.top s.ybot) (min a.bottom b.top)
    else if b.top < a.top then
      callNonOverlap fs.nonOverlap2 s.reg band2 (max b.top s.ybot) (min b.bottom a.top)
    else s.reg
  let ytop := max a.top b.top
  let (reg, prevBand) := coalesceNew s.reg new s.prevBand
  let ybot := min a.bottom b.bottom
  let new := if ytop < ybot then fs.overlap reg band1 band2 ytop ybot else reg
  let (reg, prevBand) := coalesceNew reg new prevBand
  { r1 := if a.bottom = ybot then otherBands s.r1 else s.r1
    r2 := if b.bottom = ybot then otherBands s.r2 else s.r2
    ybot, reg, prevBand }

theorem length_otherBands_lt {rects : List Rect} (h : rects ≠ []) :
    (otherBands rects).length < rects.length := by
  cases rects with
  | nil => exact absurd rfl h
  | cons r rects =>
    have hband : 0 < (firstBand (r :: rects)).length := by simp [firstBand]
    rw [otherBands, List.length_drop]
    exact Nat.sub_lt (Nat.succ_pos _) hband

/-- The loop of `region_op`. -/
def regionLoop (fs : BandFuncs) (s : OpState) : OpState :=
  match _h1 : s.r1, _h2 : s.r2 with
  | a :: _, b :: _ => regionLoop fs (regionStep fs a b s)
  | _, _ => s
termination_by s.r1.length + s.r2.length
decreasing_by
  have hlt1 : (otherBands s.r1).length < s.r1.length :=
    length_otherBands_lt (by rw [_h1]; exact List.cons_ne_nil _ _)
  have hlt2 : (otherBands s.r2).length < s.r2.length :=
    length_otherBands_lt (by rw [_h2]; exact List.cons_ne_nil _ _)
  simp only [regionStep]
  split_ifs with ha hb <;> omega

/-- The loops over the bands of one region that are left. -/
def remainingBands (f : List Rect → List Rect → ℤ → ℤ → List Rect) (ybot : ℤ) (reg r : List Rect) :
    List Rect :=
  match _h : r with
  | [] => reg
  | a :: _ => remainingBands f ybot (f reg (firstBand r) (max a.top ybot) a.bottom) (otherBands r)
termination_by r.length
decreasing_by
  subst _h
  exact length_otherBands_lt (List.cons_ne_nil _ _)

/-- What is done with the bands of one region that are left, if there is a function for them. -/
def callRemaining (f : Option (List Rect → List Rect → ℤ → ℤ → List Rect)) (ybot : ℤ)
    (reg r : List Rect) : List Rect :=
  match f with
  | some f => remainingBands f ybot reg r
  | none => reg

/-- `region_op` on regions that are not empty. -/
def regionOp (fs : BandFuncs) (reg1 reg2 : Region) : List Rect :=
  let s := regionLoop fs ⟨reg1.rects, reg2.rects, min reg1.extents.top reg2.extents.top, [], 0⟩
  let new :=
    if s.r1 ≠ [] then callRemaining fs.nonOverlap1 s.ybot s.reg s.r1
    else callRemaining fs.nonOverlap2 s.ybot s.reg s.r2
  (coalesceNew s.reg new s.prevBand).1

/-- `set_region_extents` -/
def setRegionExtents (rects : List Rect) : Rect :=
  match rects with
  | [] => emptyRect
  | r :: rs =>
    ⟨(r :: rs).foldl (fun left s => min left s.left) r.left, r.top,
      (r :: rs).foldl (fun right s => max right s.right) ((rs.getLast?).getD r).right,
      ((rs.getLast?).getD r).bottom⟩

def Region.empty : Region := ⟨[], emptyRect⟩

/-- `create_region_from_req_data` -/
def createRegion (rects : List Rect) : Option Region :=
  let rects := if rects = [emptyRect] then [] else rects
  if validateRectangles rects then some ⟨rects, setRegionExtents rects⟩ else none

/-- `get_region_data`: the size of the data, and the data if there is room for it. -/
def getRegionData (reg : Region) (maxSize : ℕ) : ℕ × Option (List Rect) :=
  let data := if reg.rects = [] then [emptyRect] else reg.rects
  (16 * data.length, if 16 * data.length ≤ maxSize then some data else none)

/-- `EXTENTCHECK` -/
def extentCheck (r1 r2 : Rect) : Bool :=
  r2.left < r1.right && r1.left < r2.right && r2.top < r1.bottom && r1.top < r2.bottom

def intersectFuncs : BandFuncs := ⟨intersectOverlapping, none, none⟩
def subtractFuncs : BandFuncs := ⟨subtractOverlapping, some nonOverlapping, none⟩
def unionFuncs : BandFuncs := ⟨unionOverlapping, some nonOverlapping, some nonOverlapping⟩

/-- `intersect_region` -/
def intersectRegion (src1 src2 : Region) : Region :=
  if src1.rects = [] ∨ src2.rects = [] ∨ !extentCheck src1.extents src2.extents then Region.empty
  else
    let rects := regionOp intersectFuncs src1 src2
    ⟨rects, setRegionExtents rects⟩

/-- `subtract_region` -/
def subtractRegion (src1 src2 : Region) : Region :=
  if src1.rects = [] ∨ src2.rects = [] ∨ !extentCheck src1.extents src2.extents then src1
  else
    let rects := regionOp subtractFuncs src1 src2
    ⟨rects, setRegionExtents rects⟩

/-- The extents of `r1` reach as far as those of `r2` on every side. -/
def Rect.contains (r1 r2 : Rect) : Bool :=
  r1.left ≤ r2.left && r1.top ≤ r2.top && r2.right ≤ r1.right && r2.bottom ≤ r1.bottom

/-- `union_region`; `same` says that the two sources are one region. -/
def unionRegion (same : Bool) (src1 src2 : Region) : Region :=
  if same then src1
  else if src1.rects = [] then src2
  else if src2.rects = [] then src1
  else if src1.rects.length = 1 ∧ src1.extents.contains src2.extents then src1
  else if src2.rects.length = 1 ∧ src2.extents.contains src1.extents then src2
  else
    ⟨regionOp unionFuncs src1 src2,
      ⟨min src1.extents.left src2.extents.left, min src1.extents.top src2.extents.top,
        max src1.extents.right src2.extents.right, max src1.extents.bottom src2.extents.bottom⟩⟩

/-- `xor_region` -/
def xorRegion (src1 src2 : Region) : Region :=
  unionRegion false (subtractRegion src2 src1) (subtractRegion src1 src2)

/-- `point_in_region` -/
def pointInRegion (x y : ℤ) : List Rect → Bool
  | [] => false
  | r :: rects =>
    if y < r.top then false
    else if r.bottom ≤ y then pointInRegion x y rects
    else if x < r.left then false
    else if r.right ≤ x then pointInRegion x y rects
    else true

/-- `rect_in_region` -/
def rectInRegion (rect : Rect) : List Rect → Bool
  | [] => false
  | r :: rects =>
    if rect.bottom ≤ r.top then false
    else if r.bottom ≤ rect.top then rectInRegion rect rects
    else if rect.right ≤ r.left then rectInRegion rect rects
    else if r.right ≤ rect.left then rectInRegion rect rects
    else true

end Wine.Regions
