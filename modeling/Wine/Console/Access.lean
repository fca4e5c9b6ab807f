import Wine.Console.Buffers

/-!
# Accesses to the cells of a screen buffer

The requests that write, fill, read and move cells, and the one that reads a line of the history. The
functions check some of the numbers of the request and compute pointers from them; every cell and
every line that they touch is recorded. A pointer to a cell is its index, which may leave the buffer.
-/

namespace Wine.Console.Access
open Wine.Server (Status statusInvalidParameter)

structure CharInfo where
  ch : BitVec 16
  attr : BitVec 16
  deriving DecidableEq, Repr

/-- `other` is a mode that no function knows. -/
inductive CharInfoMode
  | text | attr | textattr | textstdattr | other
  deriving DecidableEq, Repr

/-- A screen buffer, the history of its console and what was touched of both. The size comes from
`short`s that are not smaller than the window. -/
structure Screen where
  width : ℤ
  height : ℤ
  width_pos : 0 < width
  width_le : width < 0x8000
  height_pos : 0 < height
  height_le : height < 0x8000
  data : ℤ → CharInfo
  attr : BitVec 16
  /-- Whether it is the active buffer of its console. -/
  active : Bool
  history : List (List (BitVec 16))
  events : List RendererEvent
  cells : List ℤ
  lines : List ℤ
  error : Option Status

/-- Conversion to `int`. -/
def int (n : ℤ) : ℤ := n.bmod 0x100000000

def Screen.setError (s : Screen) (e : Status) : Screen := { s with error := some e }

def Screen.modify (s : Screen) (pos : ℤ) (f : CharInfo → CharInfo) : Screen :=
  { s with data := Function.update s.data pos (f (s.data pos)), cells := s.cells ++ [pos] }

def Screen.update (s : Screen) (top bottom : ℤ) : Screen :=
  { s with events :=
      consoleInputEventsAppend s.events (.update (BitVec.ofInt 16 top) (BitVec.ofInt 16 bottom)) }

def Screen.start (s : Screen) (x y : ℤ) : ℤ := int (y * s.width) + x

def Screen.limit (s : Screen) (y : ℤ) (wrap : Bool) : ℤ :=
  if wrap then s.height * s.width else int ((y + 1) * s.width)

/-- The size of an element of the data, in 16-bit words. -/
def CharInfoMode.words : CharInfoMode → ℕ
  | .textattr => 2
  | _ => 1

/-- The cell that the `i`th element of the data makes of an old one. -/
def newCell (mode : CharInfoMode) (attr : BitVec 16) (data : List (BitVec 16)) (i : ℕ)
    (old : CharInfo) : CharInfo :=
  match mode with
  | .text => { old with ch := data.getD i 0 }
  | .attr => { old with attr := data.getD i 0 }
  | .textattr => ⟨data.getD (2 * i) 0, data.getD (2 * i + 1) 0⟩
  | .textstdattr => ⟨data.getD i 0, attr⟩
  | .other => old

/-- `left` elements are left. -/
def writeLoop (f : ℕ → CharInfo → CharInfo) (limit : ℤ) : ℕ → ℕ → ℤ → Screen → ℕ × Screen
  | 0, i, _, s => (i, s)
  | left + 1, i, dest, s =>
    if dest < limit then writeLoop f limit left (i + 1) (dest + 1) (s.modify dest (f i)) else (i, s)

def writeConsoleOutput (s : Screen) (data : List (BitVec 16)) (mode : CharInfoMode) (x y : ℤ)
    (wrap : Bool) : Screen × ℤ :=
  if s.height ≤ y then (s, 0)
  else if mode = .other then (s.setError statusInvalidParameter, 0)
  else
    let r := writeLoop (newCell mode s.attr data) (s.limit y wrap) (data.length / mode.words) 0
      (s.start x y) s
    if r.1 ≠ 0 ∧ s.active then
      -- the count is unsigned, and so is the division by it
      (r.2.update (y + x.tdiv s.width) (y + (x + r.1 - 1) % 0x100000000 / s.width), r.1)
    else (r.2, r.1)

def fillLoop (f : CharInfo → CharInfo) : ℕ → ℤ → Screen → Screen
  | 0, _, s => s
  | left + 1, dest, s => fillLoop f left (dest + 1) (s.modify dest f)

/-- The number of cells that a fill is cut down to. -/
def fillCount (count room : ℤ) : ℤ := if count > room then int room else count

def fillConsoleOutput (s : Screen) (data : CharInfo) (mode : CharInfoMode) (x y count : ℤ)
    (wrap : Bool) : Screen × ℤ :=
  if s.height ≤ y then (s, 0)
  else
    let dest := s.start x y
    let count := fillCount count (s.limit y wrap - dest)
    if mode = .other then (s.setError statusInvalidParameter, 0)
    else
      let s' := fillLoop (newCell mode s.attr (if mode = .attr then [data.attr]
        else [data.ch, data.attr]) 0) count.toNat dest s
      if count ≠ 0 ∧ s.active then
        (s'.update y ((int (y * s.width + x + count - 1)).tdiv s.width), count.toNat)
      else (s', count.toNat)

/-- A negative room is a large unsigned number. -/
def readCount (room : ℤ) (max : ℕ) : ℕ := if room < 0 then max else min room.toNat max

def cellsFrom (pos : ℤ) (n : ℕ) : List ℤ := (List.range n).map fun i : ℕ => pos + (i : ℤ)

/-- What a cell is in the reply. -/
def CharInfo.read (mode : CharInfoMode) (c : CharInfo) : List (BitVec 16) :=
  match mode with
  | .text => [c.ch]
  | .attr => [c.attr]
  | _ => [c.ch, c.attr]

def Screen.readCells (s : Screen) (src : ℤ) (count : ℕ) (mode : CharInfoMode) :
    Screen × List (BitVec 16) :=
  ({ s with cells := s.cells ++ cellsFrom src count },
    (cellsFrom src count).flatMap fun i => (s.data i).read mode)

/-- `maxSize` is the size of the reply and `mem` the outcome of its allocation. -/
def readConsoleOutput (s : Screen) (x y : ℤ) (mode : CharInfoMode) (wrap : Bool) (maxSize : ℕ)
    (mem : Bool) : Screen × List (BitVec 16) :=
  if s.height ≤ y then (s, [])
  else if mode = .other ∨ mode = .textstdattr then (s.setError statusInvalidParameter, [])
  else
    let src := s.start x y
    let count := readCount (s.limit y wrap - src) (maxSize / (2 * mode.words))
    if count ≠ 0 ∧ mem then s.readCells src count mode else (s, [])

/-- `memcpy` or `memmove` of `n` cells. -/
def Screen.copy (s : Screen) (dst src : ℤ) (n : ℕ) : Screen :=
  { s with
    data := fun i => if dst ≤ i ∧ i < dst + n then s.data (src + (i - dst)) else s.data i
    cells := s.cells ++ (cellsFrom src n ++ cellsFrom dst n) }

/-- `left` rows are left, each `stride` behind the one before it. -/
def copyRows (n : ℕ) (stride : ℤ) : ℕ → ℤ → ℤ → Screen → Screen
  | 0, _, _, s => s
  | left + 1, dst, src, s =>
    copyRows n stride left (dst + stride) (src + stride) (s.copy dst src n)

/-- The number of cells in `w * sizeof(char_info_t)` bytes, an unsigned 32-bit number. -/
def rowCells (w : ℤ) : ℕ := (w * 4 % 0x100000000 / 4).toNat

/-- The fields of the request, all of them `short`s. -/
structure Move where
  xSrc : BitVec 16
  ySrc : BitVec 16
  xDst : BitVec 16
  yDst : BitVec 16
  w : BitVec 16
  h : BitVec 16
  deriving DecidableEq, Repr

def Move.Rejected (s : Screen) (m : Move) : Prop :=
  m.xSrc.toInt < 0 ∨ m.ySrc.toInt < 0 ∨ m.xDst.toInt < 0 ∨ m.yDst.toInt < 0 ∨
    s.width < m.xSrc.toInt + m.w.toInt ∨ s.width < m.xDst.toInt + m.w.toInt ∨
    s.height < m.ySrc.toInt + m.h.toInt ∨ s.height < m.yDst.toInt + m.h.toInt ∨
    m.w.toInt = 0 ∨ m.h.toInt = 0

instance (s : Screen) (m : Move) : Decidable (m.Rejected s) := by
  unfold Move.Rejected
  infer_instance

def scrollConsoleOutput (s : Screen) (m : Move) : Screen :=
  if m.Rejected s then s.setError statusInvalidParameter
  else
    let rows := m.h.toInt.toNat
    let n := rowCells m.w.toInt
    let s := if m.ySrc.toInt < m.yDst.toInt then
        copyRows n (-s.width) rows ((m.yDst.toInt + m.h.toInt - 1) * s.width + m.xDst.toInt)
          ((m.ySrc.toInt + m.h.toInt - 1) * s.width + m.xSrc.toInt) s
      else
        copyRows n s.width rows (m.yDst.toInt * s.width + m.xDst.toInt)
          (m.ySrc.toInt * s.width + m.xSrc.toInt) s
    s.update (min m.ySrc.toInt m.yDst.toInt) (max m.ySrc.toInt m.yDst.toInt + m.h.toInt - 1)

/-- The line of the history, and its length in bytes. -/
def consoleInputGetHist (s : Screen) (index : ℤ) (maxSize : ℕ) :
    Screen × List (BitVec 16) × ℕ :=
  if (s.history.length : ℤ) ≤ index then (s.setError statusInvalidParameter, [], 0)
  else
    let line := s.history.getD index.toNat []
    ({ s with lines := s.lines ++ [index] }, line.take (maxSize / 2), line.length * 2)

/-! ## Requests -/

inductive Request
  | writeConsoleOutput (data : List (BitVec 16)) (mode : CharInfoMode) (x y : ℤ) (wrap : Bool)
  | fillConsoleOutput (data : CharInfo) (mode : CharInfoMode) (x y count : ℤ) (wrap : Bool)
  | readConsoleOutput (x y : ℤ) (mode : CharInfoMode) (wrap : Bool) (maxSize : ℕ) (mem : Bool)
  | moveConsoleOutput (m : Move)
  | getConsoleInputHistory (index : ℤ) (maxSize : ℕ)

def handle (s : Screen) : Request → Screen
  | .writeConsoleOutput data mode x y wrap => (writeConsoleOutput s data mode x y wrap).1
  | .fillConsoleOutput data mode x y count wrap => (fillConsoleOutput s data mode x y count wrap).1
  | .readConsoleOutput x y mode wrap maxSize mem =>
    (readConsoleOutput s x y mode wrap maxSize mem).1
  | .moveConsoleOutput m => scrollConsoleOutput s m
  | .getConsoleInputHistory index maxSize => (consoleInputGetHist s index maxSize).1

/-- What was touched lies in the buffer and in the history. -/
def Screen.Inside (s : Screen) : Prop :=
  (∀ i ∈ s.cells, 0 ≤ i ∧ i < s.width * s.height) ∧
    ∀ i ∈ s.lines, 0 ≤ i ∧ i < s.history.length

/-- Nothing was touched yet. -/
def Screen.fresh (s : Screen) : Screen := { s with cells := [], lines := [] }

/-! ## What is touched -/

/-- The cells and lines that are touched on the way from `s` to `s'`. -/
structure Touched (s s' : Screen) (cells lines : List ℤ) : Prop where
  width : s'.width = s.width
  height : s'.height = s.height
  history : s'.history = s.history
  cells : s'.cells = s.cells ++ cells
  lines : s'.lines = s.lines ++ lines

namespace Touched

variable {s s' s'' : Screen} {l l' m m' : List ℤ}

theorem refl (s : Screen) : Touched s s [] [] :=
  ⟨rfl, rfl, rfl, (List.append_nil _).symm, (List.append_nil _).symm⟩

theorem trans (h : Touched s s' l m) (h' : Touched s' s'' l' m') :
    Touched s s'' (l ++ l') (m ++ m') where
  width := h'.width.trans h.width
  height := h'.height.trans h.height
  history := h'.history.trans h.history
  cells := by rw [h'.cells, h.cells, List.append_assoc]
  lines := by rw [h'.lines, h.lines, List.append_assoc]

theorem setError (h : Touched s s' l m) (e : Status) : Touched s (s'.setError e) l m :=
  ⟨h.width, h.height, h.history, h.cells, h.lines⟩

theorem update (h : Touched s s' l m) (top bottom : ℤ) : Touched s (s'.update top bottom) l m :=
  ⟨h.width, h.height, h.history, h.cells, h.lines⟩

theorem modify (s : Screen) (pos : ℤ) (f : CharInfo → CharInfo) :
    Touched s (s.modify pos f) [pos] [] :=
  ⟨rfl, rfl, rfl, rfl, (List.append_nil _).symm⟩

theorem readCells (s : Screen) (src : ℤ) (count : ℕ) (mode : CharInfoMode) :
    Touched s (s.readCells src count mode).1 (cellsFrom src count) [] :=
  ⟨rfl, rfl, rfl, rfl, (List.append_nil _).symm⟩

theorem copy (s : Screen) (dst src : ℤ) (n : ℕ) :
    Touched s (s.copy dst src n) (cellsFrom src n ++ cellsFrom dst n) [] :=
  ⟨rfl, rfl, rfl, rfl, (List.append_nil _).symm⟩

theorem touched_inside (h : Touched s.fresh s' l m) : s'.Inside ↔
    (∀ i ∈ l, 0 ≤ i ∧ i < s.width * s.height) ∧ ∀ i ∈ m, 0 ≤ i ∧ i < s.history.length := by
  unfold Screen.Inside
  rw [h.cells, h.lines, h.width, h.height, h.history]
  rfl

end Touched

theorem cellsFrom_succ (pos : ℤ) (n : ℕ) : cellsFrom pos (n + 1) = pos :: cellsFrom (pos + 1) n := by
  unfold cellsFrom
  rw [List.range_succ_eq_map, List.map_cons, List.map_map]
  congr 1
  · simp
  · apply List.map_congr_left
    intro i _
    simp only [Function.comp_apply]
    omega

theorem cellsFrom_inside_iff (pos : ℤ) (n : ℕ) (size : ℤ) :
    (∀ i ∈ cellsFrom pos n, 0 ≤ i ∧ i < size) ↔ n = 0 ∨ 0 ≤ pos ∧ pos + n ≤ size := by
  unfold cellsFrom
  simp only [List.forall_mem_map, List.mem_range]
  constructor
  · intro h
    by_cases hn : n = 0
    · exact Or.inl hn
    · have hfirst := h 0 (Nat.pos_of_ne_zero hn)
      have hlast := h (n - 1) (by omega)
      refine Or.inr ⟨?_, ?_⟩ <;> omega
  · rintro (rfl | ⟨hpos, hsize⟩) i hi
    · omega
    · constructor <;> omega

theorem touched_writeLoop (f : ℕ → CharInfo → CharInfo) (limit : ℤ) (left i : ℕ) (dest : ℤ)
    (s : Screen) : Touched s (writeLoop f limit left i dest s).2
      (cellsFrom dest (min left (limit - dest).toNat)) [] := by
  induction left generalizing i dest s with
  | zero =>
    rw [Nat.zero_min]
    exact Touched.refl s
  | succ left ih =>
    rw [writeLoop]
    split
    · have hmin : min (left + 1) (limit - dest).toNat =
          min left (limit - (dest + 1)).toNat + 1 := by omega
      rw [hmin, cellsFrom_succ]
      exact (Touched.modify s dest (f i)).trans (ih (i + 1) (dest + 1) _)
    · have hmin : min (left + 1) (limit - dest).toNat = 0 := by omega
      rw [hmin]
      exact Touched.refl s

theorem touched_fillLoop (f : CharInfo → CharInfo) (left : ℕ) (dest : ℤ) (s : Screen) :
    Touched s (fillLoop f left dest s) (cellsFrom dest left) [] := by
  induction left generalizing dest s with
  | zero => exact Touched.refl s
  | succ left ih =>
    rw [cellsFrom_succ]
    exact (Touched.modify s dest f).trans (ih (dest + 1) _)

/-! ## Moving cells -/

/-- All rows are touched, the first source row in any case. -/
theorem touched_copyRows (n : ℕ) (stride size : ℤ) (left : ℕ) (dst src : ℤ) (s : Screen) :
    ∃ l, Touched s (copyRows n stride left dst src s) l [] ∧
      ((∀ j : ℕ, j < left → (0 ≤ src + j * stride ∧ src + j * stride + n ≤ size) ∧
        0 ≤ dst + j * stride ∧ dst + j * stride + n ≤ size) → ∀ i ∈ l, 0 ≤ i ∧ i < size) ∧
      (0 < left → ∀ i ∈ cellsFrom src n, i ∈ l) := by
  induction left generalizing dst src s with
  | zero => exact ⟨[], Touched.refl s, by simp, by simp⟩
  | succ left ih =>
    obtain ⟨l, hl, hinside, -⟩ := ih (dst + stride) (src + stride) (s.copy dst src n)
    refine ⟨_, (Touched.copy s dst src n).trans hl, ?_, ?_⟩
    · intro hrows
      have hfirst := hrows 0 (Nat.succ_pos _)
      simp only [Int.natCast_zero, Int.zero_mul, Int.add_zero] at hfirst
      rw [List.forall_mem_append, List.forall_mem_append]
      refine ⟨⟨?_, ?_⟩, hinside fun j hj => ?_⟩
      · exact (cellsFrom_inside_iff src n size).mpr (Or.inr hfirst.1)
      · exact (cellsFrom_inside_iff dst n size).mpr (Or.inr hfirst.2)
      · have hnext := hrows (j + 1) (by omega)
        simp only [Int.natCast_succ, Int.add_mul, Int.one_mul] at hnext
        omega
    · intro _ i hi
      exact List.mem_append_left _ (List.mem_append_left _ hi)

/-- A row of a rectangle lies in the buffer. -/
theorem row_inside {width height row col n : ℤ} (hrow : 0 ≤ row) (hheight : row < height)
    (hcol : 0 ≤ col) (hwidth : col + n ≤ width) (hn : 0 ≤ n) :
    0 ≤ row * width + col ∧ row * width + col + n ≤ width * height := by
  have hwidth0 : 0 ≤ width := by omega
  have hlow : 0 ≤ row * width := Int.mul_nonneg hrow hwidth0
  have hhigh : (row + 1) * width ≤ height * width :=
    Int.mul_le_mul_of_nonneg_right (by omega) hwidth0
  rw [Int.add_mul, Int.one_mul] at hhigh
  rw [Int.mul_comm width height]
  omega

theorem rowCells_pos {w : ℤ} (h : 0 < w) (hw : w < 0x8000) : (rowCells w : ℤ) = w := by
  unfold rowCells
  omega

theorem rowCells_neg {w : ℤ} (h : w < 0) (hw : -0x8000 ≤ w) :
    (rowCells w : ℤ) = 0x40000000 + w := by
  unfold rowCells
  omega

/-- The buffer is smaller than the rows that a negative width stands for. -/
theorem size_lt (s : Screen) : s.width * s.height < 0x40000000 - 0x8000 := by
  have hmul : s.width * s.height ≤ 0x7fff * 0x7fff := by
    apply Int.mul_le_mul
    · have hle := s.width_le
      omega
    · have hle := s.height_le
      omega
    · exact Int.le_of_lt s.height_pos
    · omega
  omega

theorem toInt_short (b : BitVec 16) : -0x8000 ≤ b.toInt ∧ b.toInt < 0x8000 := by
  have hle := BitVec.le_toInt b
  have hlt := BitVec.toInt_lt (x := b)
  omega

theorem copyRows_inside_iff (s : Screen) {w h stride dst src : ℤ} (hw : w ≠ 0)
    (hlow : -0x8000 ≤ w) (hhigh : w < 0x8000) (hh : h ≠ 0) (top bottom : ℤ)
    (hrows : 0 < w → ∀ j : ℕ, (j : ℤ) < h →
      (0 ≤ src + j * stride ∧ src + j * stride + w ≤ s.width * s.height) ∧
        0 ≤ dst + j * stride ∧ dst + j * stride + w ≤ s.width * s.height) :
    ((copyRows (rowCells w) stride h.toNat dst src s.fresh).update top bottom).Inside ↔
      h < 0 ∨ 0 < w := by
  obtain ⟨l, hl, hinside, hfirst⟩ := touched_copyRows (rowCells w) stride (s.width * s.height)
    h.toNat dst src s.fresh
  rw [(hl.update top bottom).touched_inside]
  have hlines : ∀ i ∈ ([] : List ℤ), 0 ≤ i ∧ i < (s.history.length : ℤ) := by simp
  rw [and_iff_left hlines]
  constructor
  · intro hall
    by_contra hnot
    have hneg : w < 0 := by omega
    have hsrc := (cellsFrom_inside_iff src (rowCells w) _).mp fun i hi =>
      hall i (hfirst (by omega) i hi)
    have hcells := rowCells_neg hneg hlow
    have hsize := size_lt s
    omega
  · rintro (hneg | hpos)
    · exact hinside fun j hj => by omega
    · apply hinside
      intro j hj
      rw [rowCells_pos hpos hhigh]
      exact hrows hpos j (by omega)

theorem scroll_inside_iff (s : Screen) (m : Move) :
    (scrollConsoleOutput s.fresh m).Inside ↔ m.Rejected s ∨ m.h.toInt < 0 ∨ 0 < m.w.toInt := by
  by_cases hrej : m.Rejected s
  · have hrej' : m.Rejected s.fresh := hrej
    rw [scrollConsoleOutput, if_pos hrej', ((Touched.refl _).setError _).touched_inside]
    simp [hrej]
  · have hrej' : ¬ m.Rejected s.fresh := hrej
    rw [scrollConsoleOutput, if_neg hrej', or_iff_right hrej]
    unfold Move.Rejected at hrej
    simp only [not_or, Int.not_lt] at hrej
    obtain ⟨hxs, hys, hxd, hyd, hws, hwd, hhs, hhd, hw, hh⟩ := hrej
    have hshort := toInt_short m.w
    -- in both orders the `j`th row copied is a row of the rectangle
    have hrow : ∀ row col : ℤ, 0 < m.w.toInt → 0 ≤ row → row < s.height → 0 ≤ col →
        col + m.w.toInt ≤ s.width → 0 ≤ row * s.width + col ∧
          row * s.width + col + m.w.toInt ≤ s.width * s.height :=
      fun row col hpos h₁ h₂ h₃ h₄ => row_inside h₁ h₂ h₃ h₄ (Int.le_of_lt hpos)
    by_cases hdown : m.ySrc.toInt < m.yDst.toInt
    · simp only [hdown, if_true]
      apply copyRows_inside_iff s hw hshort.1 hshort.2 hh
      intro hpos j hj
      have hsrc := hrow (m.ySrc.toInt + m.h.toInt - 1 - j) m.xSrc.toInt hpos (by omega) (by omega)
        hxs hws
      have hdst := hrow (m.yDst.toInt + m.h.toInt - 1 - j) m.xDst.toInt hpos (by omega) (by omega)
        hxd hwd
      rw [Int.sub_mul] at hsrc hdst
      have hstep : (j : ℤ) * -s.width = -(j * s.width) := Int.mul_neg _ _
      have hwidth : s.fresh.width = s.width := rfl
      rw [hwidth, hstep]
      constructor <;> constructor <;> omega
    · simp only [hdown, if_false]
      apply copyRows_inside_iff s hw hshort.1 hshort.2 hh
      intro hpos j hj
      have hsrc := hrow (m.ySrc.toInt + j) m.xSrc.toInt hpos (by omega) (by omega) hxs hws
      have hdst := hrow (m.yDst.toInt + j) m.xDst.toInt hpos (by omega) (by omega) hxd hwd
      rw [Int.add_mul] at hsrc hdst
      have hwidth : s.fresh.width = s.width := rfl
      rw [hwidth]
      constructor <;> constructor <;> omega

/-! ## Which requests stay inside -/

section

variable (s : Screen)

/-- Nothing is written, or the position is not before the buffer and the cells up to the limit do not
reach beyond it. -/
def WriteInRange (data : List (BitVec 16)) (mode : CharInfoMode) (x y : ℤ) (wrap : Bool) : Prop :=
  s.height ≤ y ∨ mode = .other ∨ data.length / mode.words = 0 ∨
    s.limit y wrap ≤ s.start x y ∨ 0 ≤ s.start x y ∧
      min (s.start x y + (data.length / mode.words : ℕ)) (s.limit y wrap) ≤ s.width * s.height

def FillInRange (mode : CharInfoMode) (x y count : ℤ) (wrap : Bool) : Prop :=
  let n := fillCount count (s.limit y wrap - s.start x y)
  s.height ≤ y ∨ mode = .other ∨ n ≤ 0 ∨ 0 ≤ s.start x y ∧ s.start x y + n ≤ s.width * s.height

def ReadInRange (x y : ℤ) (mode : CharInfoMode) (wrap : Bool) (maxSize : ℕ) (mem : Bool) : Prop :=
  let n := readCount (s.limit y wrap - s.start x y) (maxSize / (2 * mode.words))
  s.height ≤ y ∨ (mode = .other ∨ mode = .textstdattr) ∨ mem = false ∨ n = 0 ∨
    0 ≤ s.start x y ∧ s.start x y + n ≤ s.width * s.height

def MoveInRange (m : Move) : Prop := m.Rejected s ∨ m.h.toInt < 0 ∨ 0 < m.w.toInt

def HistInRange (index : ℤ) : Prop := (s.history.length : ℤ) ≤ index ∨ 0 ≤ index

def InRange : Request → Prop
  | .writeConsoleOutput data mode x y wrap => WriteInRange s data mode x y wrap
  | .fillConsoleOutput _ mode x y count wrap => FillInRange s mode x y count wrap
  | .readConsoleOutput x y mode wrap maxSize mem => ReadInRange s x y mode wrap maxSize mem
  | .moveConsoleOutput m => MoveInRange s m
  | .getConsoleInputHistory index _ => HistInRange s index

end

theorem no_lines (s : Screen) : ∀ i ∈ ([] : List ℤ), 0 ≤ i ∧ i < (s.history.length : ℤ) := by simp

theorem write_inside_iff (s : Screen) (data : List (BitVec 16)) (mode : CharInfoMode) (x y : ℤ)
    (wrap : Bool) : (writeConsoleOutput s.fresh data mode x y wrap).1.Inside ↔
      WriteInRange s data mode x y wrap := by
  unfold writeConsoleOutput WriteInRange
  by_cases hy : s.height ≤ y
  · rw [if_pos (show s.fresh.height ≤ y from hy), (Touched.refl _).touched_inside]
    simp [hy]
  rw [if_neg (show ¬ s.fresh.height ≤ y from hy), or_iff_right hy]
  by_cases hmode : mode = .other
  · rw [if_pos hmode, ((Touched.refl _).setError _).touched_inside]
    simp [hmode]
  rw [if_neg hmode, or_iff_right hmode]
  dsimp only
  generalize data.length / mode.words = n
  have htouched := touched_writeLoop (newCell mode s.fresh.attr data) (s.limit y wrap) n 0
    (s.start x y) s.fresh
  have hinside : ∀ s' : Screen, Touched s.fresh s' (cellsFrom (s.start x y)
      (min n (s.limit y wrap - s.start x y).toNat)) [] →
      (s'.Inside ↔ n = 0 ∨ s.limit y wrap ≤ s.start x y ∨
        0 ≤ s.start x y ∧ min (s.start x y + n) (s.limit y wrap) ≤ s.width * s.height) := by
    intro s' hs'
    rw [hs'.touched_inside, and_iff_left (no_lines s), cellsFrom_inside_iff]
    omega
  split
  · exact hinside _ (htouched.update _ _)
  · exact hinside _ htouched

theorem fill_inside_iff (s : Screen) (data : CharInfo) (mode : CharInfoMode) (x y count : ℤ)
    (wrap : Bool) : (fillConsoleOutput s.fresh data mode x y count wrap).1.Inside ↔
      FillInRange s mode x y count wrap := by
  unfold fillConsoleOutput FillInRange
  dsimp only
  by_cases hy : s.height ≤ y
  · rw [if_pos (show s.fresh.height ≤ y from hy), (Touched.refl _).touched_inside]
    simp [hy]
  rw [if_neg (show ¬ s.fresh.height ≤ y from hy), or_iff_right hy]
  by_cases hmode : mode = .other
  · simp only [hmode, if_true]
    rw [((Touched.refl _).setError _).touched_inside]
    simp
  simp only [hmode, if_false, false_or]
  have hroom : s.fresh.limit y wrap - s.fresh.start x y = s.limit y wrap - s.start x y := rfl
  rw [hroom]
  generalize fillCount count (s.limit y wrap - s.start x y) = n
  have htouched := touched_fillLoop (newCell mode s.fresh.attr (if mode = .attr then [data.attr]
    else [data.ch, data.attr]) 0) n.toNat (s.start x y) s.fresh
  have hinside : ∀ s' : Screen, Touched s.fresh s' (cellsFrom (s.start x y) n.toNat) [] →
      (s'.Inside ↔ n ≤ 0 ∨ 0 ≤ s.start x y ∧ s.start x y + n ≤ s.width * s.height) := by
    intro s' hs'
    rw [hs'.touched_inside, and_iff_left (no_lines s), cellsFrom_inside_iff]
    omega
  split
  · exact hinside _ (htouched.update _ _)
  · exact hinside _ htouched

theorem read_inside_iff (s : Screen) (x y : ℤ) (mode : CharInfoMode) (wrap : Bool) (maxSize : ℕ)
    (mem : Bool) : (readConsoleOutput s.fresh x y mode wrap maxSize mem).1.Inside ↔
      ReadInRange s x y mode wrap maxSize mem := by
  unfold readConsoleOutput ReadInRange
  dsimp only
  by_cases hy : s.height ≤ y
  · rw [if_pos (show s.fresh.height ≤ y from hy), (Touched.refl _).touched_inside]
    simp [hy]
  rw [if_neg (show ¬ s.fresh.height ≤ y from hy), or_iff_right hy]
  by_cases hmode : mode = .other ∨ mode = .textstdattr
  · rw [if_pos hmode, ((Touched.refl _).setError _).touched_inside]
    simp [hmode]
  rw [if_neg hmode, or_iff_right hmode]
  have hroom : s.fresh.limit y wrap - s.fresh.start x y = s.limit y wrap - s.start x y := rfl
  simp only [hroom]
  generalize readCount (s.limit y wrap - s.start x y) (maxSize / (2 * mode.words)) = n
  by_cases hread : n ≠ 0 ∧ mem = true
  · rw [if_pos hread, (Touched.readCells _ _ _ _).touched_inside, and_iff_left (no_lines s),
      cellsFrom_inside_iff, or_iff_right hread.1, hread.2]
    simp [hread.1]
    rfl
  · rw [if_neg hread, (Touched.refl _).touched_inside]
    have hnot : mem = false ∨ n = 0 := by
      cases mem <;> simp_all
    rw [← or_assoc, iff_true_right (Or.inl hnot)]
    simp

theorem hist_inside_iff (s : Screen) (index : ℤ) (maxSize : ℕ) :
    (consoleInputGetHist s.fresh index maxSize).1.Inside ↔ HistInRange s index := by
  unfold consoleInputGetHist HistInRange
  by_cases hindex : (s.history.length : ℤ) ≤ index
  · rw [if_pos (show (s.fresh.history.length : ℤ) ≤ index from hindex),
      ((Touched.refl _).setError _).touched_inside]
    simp [hindex]
  · rw [if_neg (show ¬ (s.fresh.history.length : ℤ) ≤ index from hindex), or_iff_right hindex]
    have htouched : Touched s.fresh { s.fresh with lines := s.fresh.lines ++ [index] } [] [index] :=
      ⟨rfl, rfl, rfl, (List.append_nil _).symm, rfl⟩
    rw [htouched.touched_inside]
    simp
    omega

section

variable {s : Screen} {x y : ℤ}

end

/-- The first screen buffer of a console. -/
def sampleScreen : Screen where
  width := 80
  height := 150
  width_pos := by decide
  width_le := by decide
  height_pos := by decide
  height_le := by decide
  data _ := ⟨0, 0⟩
  attr := 0x0F
  active := true
  history := []
  events := []
  cells := []
  lines := []
  error := none

end Wine.Console.Access
