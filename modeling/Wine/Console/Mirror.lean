import Mathlib.Order.Lattice
import Wine.Console.Buffers

/-!
# The renderer's view of the active screen buffer

What one request tells the renderer of the screen buffer that it changes. A new size scrolls the window
without an event and announces the cursor position of the request in place of that of the buffer.
-/

namespace Wine.Console
open Wine.Lib

/-! ## Cursors and windows inside the buffer -/

/-- A nonempty part of a buffer of that size. -/
def Rect.Inside (win : Rect) (width height : ℤ) : Prop :=
  (0 ≤ win.left ∧ win.left ≤ win.right ∧ win.right < width) ∧
    0 ≤ win.top ∧ win.top ≤ win.bottom ∧ win.bottom < height

instance (win : Rect) (width height : ℤ) : Decidable (win.Inside width height) :=
  inferInstanceAs (Decidable (_ ∧ _))

structure ScreenBuffer.Inside (b : ScreenBuffer) : Prop where
  size : b.width < 0x8000 ∧ b.height < 0x8000
  win : b.win.Inside b.width b.height
  cursorX : 0 ≤ b.cursorX ∧ b.cursorX < b.width
  cursorY : 0 ≤ b.cursorY ∧ b.cursorY < b.height

theorem newScreenBuffer_inside : newScreenBuffer.Inside :=
  ⟨by decide, by decide, by decide, by decide⟩

theorem Rect.Inside.scroll {win : Rect} {width height width' height' : ℤ}
    (h : win.Inside width height) (hw : win.right - win.left + 1 ≤ width')
    (hh : win.bottom - win.top + 1 ≤ height') : (win.scroll width' height').Inside width' height' := by
  unfold Rect.Inside at h ⊢
  simp only [Rect.scroll]
  refine ⟨?_, ?_⟩ <;> split <;> omega

/-! ## Events -/

def viewOf (b : ScreenBuffer) : View where
  width := b.width
  height := b.height
  left := b.win.left
  top := b.win.top
  winWidth := b.win.right - b.win.left + 1
  winHeight := b.win.bottom - b.win.top + 1
  cursorSize := b.cursorSize
  cursorVisible := b.cursorVisible
  cursorX := b.cursorX
  cursorY := b.cursorY

/-- A view of the same buffer with another window. -/
def View.withWin (v : View) (win : Rect) : View :=
  { v with
    left := win.left
    top := win.top
    winWidth := win.right - win.left + 1
    winHeight := win.bottom - win.top + 1 }

theorem foldl_consoleInputEventsAppend (events : List RendererEvent) (evt : RendererEvent)
    (v : View) : (consoleInputEventsAppend events evt).foldl View.apply v =
      (events.foldl View.apply v).apply evt := by
  have happend : (events ++ [evt]).foldl View.apply v = (events.foldl View.apply v).apply evt := by
    rw [List.foldl_append, List.foldl_cons, List.foldl_nil]
  unfold consoleInputEventsAppend
  split
  · rename_i top bottom top' bottom' hlast
    split
    · have hsplit := List.dropLast_append_getLast? _ hlast
      conv_rhs => rw [← hsplit]
      simp only [List.foldl_append, List.foldl_cons, List.foldl_nil, View.apply]
    · exact happend
  · exact happend

theorem toInt_ofInt {x : ℤ} (h : 0 ≤ x) (h' : x < 0x8000) : (BitVec.ofInt 16 x).toInt = x := by
  rw [BitVec.toInt_ofInt]
  exact Int.bmod_eq_of_le (by omega) (by omega)

/-! ## The stages of a request -/

/-- A stage that ends well leads to `Q`, one that ends in an error to `E`. -/
def Stage.Leads (stage : Stage) (Q E : Output → Prop) : Prop :=
  match stage with
  | .ok o => Q o
  | .error (_, o) => E o

theorem Stage.leads_bind {stage : Stage} {f : Output → Stage} {Q E : Output → Prop} :
    Stage.Leads (stage >>= f) Q E ↔ stage.Leads (fun o => (f o).Leads Q E) E := by
  cases stage <;> rfl

theorem Stage.Leads.mono {stage : Stage} {Q E Q' E' : Output → Prop} (h : stage.Leads Q E)
    (hq : ∀ o, Q o → Q' o) (he : ∀ o, E o → E' o) : stage.Leads Q' E' := by
  cases stage with
  | ok o => exact hq o h
  | error r => exact he r.2 h

theorem Stage.leads_output {stage : Stage} {P : Output → Prop} :
    stage.Leads P P ↔ P stage.output := by
  cases stage <;> rfl

/-- What the renderer knows after the events. -/
def Output.shown (v : View) (o : Output) : View := o.events.foldl View.apply v

theorem shown_append (v : View) (o : Output) (evt : RendererEvent) :
    (o.append evt).shown v = (o.shown v).apply evt :=
  foldl_consoleInputEventsAppend o.events evt v

def GeomOk (req : OutputInfo) : Prop :=
  req.has setCursorGeom = true → 1 ≤ req.cursorSize.toInt ∧ req.cursorSize.toInt ≤ 100

def PosOk (b : ScreenBuffer) (req : OutputInfo) : Prop :=
  req.has setCursorPos = true → (0 ≤ req.cursorX.toInt ∧ req.cursorX.toInt < b.width) ∧
    0 ≤ req.cursorY.toInt ∧ req.cursorY.toInt < b.height

def SizeOk (b : ScreenBuffer) (req : OutputInfo) : Prop :=
  b.win.right - b.win.left + 1 ≤ req.width.toInt ∧ b.win.bottom - b.win.top + 1 ≤ req.height.toInt ∧
    req.mem = true

/-- The cursor once its position was set. -/
def OutputInfo.cursor (req : OutputInfo) (b : ScreenBuffer) : ℤ × ℤ :=
  if req.has setCursorPos then (req.cursorX.toInt, req.cursorY.toInt) else (b.cursorX, b.cursorY)

section
variable {v : View} {o : Output} {req : OutputInfo}

theorem changeCursorGeom_leads : (changeCursorGeom req o).Leads
    (fun o' => GeomOk req ∧ (o.shown v = viewOf o.buffer → o'.shown v = viewOf o'.buffer) ∧
      ∃ size visible, o'.buffer = { o.buffer with cursorSize := size, cursorVisible := visible })
    (fun o' => ¬ GeomOk req ∧ o' = o) := by
  unfold changeCursorGeom
  split
  · rename_i hhas
    split
    · refine ⟨fun hok => ?_, rfl⟩
      have := hok hhas
      omega
    · have hok : GeomOk req := fun _ => by omega
      split
      · refine ⟨hok, fun hv => ?_, _, _, rfl⟩
        rw [shown_append]
        exact congrArg (fun w => View.apply w (.cursorGeom req.cursorVisible req.cursorSize)) hv
      · exact ⟨hok, id, _, _, rfl⟩
  · rename_i hhas
    exact ⟨fun h => absurd h hhas, id, _, _, rfl⟩

theorem changeCursorPos_leads : (changeCursorPos req o).Leads
    (fun o' => PosOk o.buffer req ∧
      (o.shown v = viewOf o.buffer → o'.shown v = viewOf o'.buffer) ∧ o'.buffer =
        { o.buffer with cursorX := (req.cursor o.buffer).1, cursorY := (req.cursor o.buffer).2 })
    (fun o' => ¬ PosOk o.buffer req ∧ o' = o) := by
  unfold changeCursorPos
  split
  · rename_i hhas
    split
    · refine ⟨fun hok => ?_, rfl⟩
      have := hok hhas
      omega
    · have hok : PosOk o.buffer req := fun _ => by omega
      simp only [OutputInfo.cursor, hhas, if_true]
      split
      · refine ⟨hok, fun hv => ?_, rfl⟩
        rw [shown_append]
        exact congrArg (fun w => View.apply w (.cursorPos req.cursorX req.cursorY)) hv
      · rename_i hsame
        obtain ⟨hx, hy⟩ := not_or.mp hsame
        refine ⟨hok, id, ?_⟩
        rw [← not_not.mp hx, ← not_not.mp hy]
  · rename_i hhas
    refine ⟨fun h => absurd h hhas, id, ?_⟩
    simp only [OutputInfo.cursor, hhas, Bool.false_eq_true, if_false]

/-- The buffer after a change of its size. -/
def ScreenBuffer.resized (b : ScreenBuffer) (req : OutputInfo) : ScreenBuffer :=
  { b with
    width := req.width.toInt
    height := req.height.toInt
    win := b.win.scroll req.width.toInt req.height.toInt
    cursorX := if req.width.toInt ≤ b.cursorX then req.width.toInt - 1 else b.cursorX
    cursorY := if req.height.toInt ≤ b.cursorY then req.height.toInt - 1 else b.cursorY }

theorem ScreenBuffer.Inside.resized {b : ScreenBuffer} (h : b.Inside) (hok : SizeOk b req) :
    (b.resized req).Inside := by
  obtain ⟨hw, hh, -⟩ := hok
  have hwin := h.win
  have hx := h.cursorX
  have hy := h.cursorY
  have hwlt : req.width.toInt < 0x8000 := by simpa using @BitVec.toInt_lt 16 req.width
  have hhlt : req.height.toInt < 0x8000 := by simpa using @BitVec.toInt_lt 16 req.height
  unfold Rect.Inside at hwin
  refine ⟨⟨hwlt, hhlt⟩, h.win.scroll hw hh, ?_, ?_⟩
  · simp only [ScreenBuffer.resized]
    split <;> omega
  · simp only [ScreenBuffer.resized]
    split <;> omega

/-- What the renderer is told of the cursor of a buffer that gets smaller: nothing where it stays. -/
def toldCursor (b : ScreenBuffer) (req : OutputInfo) : ℤ × ℤ :=
  if req.width.toInt ≤ b.cursorX ∨ req.height.toInt ≤ b.cursorY then
    (req.cursorX.toInt, req.cursorY.toInt)
  else (b.cursorX, b.cursorY)

/-- The view of a resized buffer as the events of the change leave it. -/
def ScreenBuffer.told (b : ScreenBuffer) (req : OutputInfo) : View :=
  { (viewOf (b.resized req)).withWin b.win with
    cursorX := (toldCursor b req).1
    cursorY := (toldCursor b req).2 }

theorem changeSize_leads : (changeSize req o).Leads
    (fun o' => (req.has setSize = false ∧ o' = o) ∨ (req.has setSize = true ∧ SizeOk o.buffer req ∧
      o'.buffer = o.buffer.resized req ∧
        (o.shown v = viewOf o.buffer → o'.shown v = o.buffer.told req)))
    (fun o' => req.has setSize = true ∧ ¬ SizeOk o.buffer req ∧ o' = o) := by
  unfold changeSize
  split
  · rename_i hhas
    split
    · exact ⟨hhas, fun hok => by unfold SizeOk at hok; omega, rfl⟩
    · split
      · rename_i hmem
        exact ⟨hhas, fun hok => by simp [hok.2.2] at hmem, rfl⟩
      · rename_i hfit hmem
        have hok : SizeOk o.buffer req := ⟨by omega, by omega, by simpa using hmem⟩
        refine Or.inr ⟨hhas, hok, ?_, fun hv => ?_⟩
        · simp only [ScreenBuffer.resized, Output.append, decide_eq_true_eq]
          split <;> rfl
        · simp only [decide_eq_true_eq, ScreenBuffer.told, toldCursor]
          split
          · refine (shown_append _ _ _).trans ?_
            rw [shown_append, shown_append]
            exact congrArg (fun w => View.apply (View.apply (View.apply w
              (.sbResize req.width req.height)) (.update 0 0)) (.cursorPos req.cursorX req.cursorY)) hv
          · refine (shown_append _ _ _).trans ?_
            rw [shown_append]
            exact congrArg (fun w => View.apply (View.apply w
              (.sbResize req.width req.height)) (.update 0 0)) hv
  · rename_i hhas
    exact Or.inl ⟨by simpa using hhas, rfl⟩

theorem changeDisplayWindow_leads (hin : o.buffer.Inside) : (changeDisplayWindow req o).Leads
    (fun o' => if req.has setDisplayWindow then
      req.win.Inside o.buffer.width o.buffer.height ∧ o'.buffer = { o.buffer with win := req.win } ∧
        o'.shown v = if o.buffer.win = req.win then o.shown v else (o.shown v).withWin req.win
      else o' = o)
    (fun o' => req.has setDisplayWindow = true ∧ ¬ req.win.Inside o.buffer.width o.buffer.height ∧
      o' = o) := by
  unfold changeDisplayWindow
  by_cases hhas : req.has setDisplayWindow = true
  · simp only [hhas, if_true]
    split
    · exact ⟨trivial, fun hwin => by unfold Rect.Inside at hwin; omega, rfl⟩
    · have hwin : req.win.Inside o.buffer.width o.buffer.height := by
        unfold Rect.Inside
        omega
      split
      · refine ⟨hwin, rfl, ?_⟩
        obtain ⟨⟨hl, hlr, hr⟩, ht, htb, hb⟩ := hwin
        obtain ⟨hw, hh⟩ := hin.size
        simp only [OutputInfo.win] at hl hlr hr ht htb hb
        rw [shown_append]
        simp only [View.apply, View.withWin, OutputInfo.win]
        rw [toInt_ofInt (by omega) (by omega), toInt_ofInt (by omega) (by omega)]
        rfl
      · rename_i heq
        have heq := not_not.mp heq
        refine ⟨hwin, ?_, by rw [if_pos heq]⟩
        rw [← heq]
  · simp only [hhas]
    rfl

/-! ## Requests -/

/-- The request changes the size of the buffer. -/
def Resizes (b : ScreenBuffer) (req : OutputInfo) : Prop :=
  GeomOk req ∧ PosOk b req ∧ req.has setSize = true ∧ SizeOk b req

/-- The events of the request tell all that it changes. A new size that moves the cursor must move it
to the position in the request, and one that scrolls the window needs another window from the same
request. -/
def Announced (b : ScreenBuffer) (req : OutputInfo) : Prop :=
  Resizes b req →
    (req.width.toInt ≤ (req.cursor b).1 ∨ req.height.toInt ≤ (req.cursor b).2 →
      req.cursorX.toInt = min (req.cursor b).1 (req.width.toInt - 1) ∧
        req.cursorY.toInt = min (req.cursor b).2 (req.height.toInt - 1)) ∧
    (b.win.scroll req.width.toInt req.height.toInt ≠ b.win →
      req.has setDisplayWindow = true ∧ req.win.Inside req.width.toInt req.height.toInt ∧
        req.win ≠ b.win.scroll req.width.toInt req.height.toInt)

theorem changeMaxSize_leads : (changeMaxSize req o).Leads
    (fun o' => o'.shown v = o.shown v ∧ ∃ w h, o'.buffer = { o.buffer with maxWidth := w, maxHeight := h })
    (fun o' => o' = o) := by
  unfold changeMaxSize
  split
  · split
    · rfl
    · exact ⟨rfl, _, _, rfl⟩
  · exact ⟨rfl, _, _, rfl⟩

/-- The view of a buffer with another window and another cursor. -/
def ScreenBuffer.seen (b : ScreenBuffer) (win : Rect) (x y : ℤ) : View :=
  { (viewOf b).withWin win with cursorX := x, cursorY := y }

theorem seen_eq_iff {b : ScreenBuffer} {win : Rect} {x y : ℤ} :
    b.seen win x y = viewOf b ↔ win = b.win ∧ x = b.cursorX ∧ y = b.cursorY := by
  obtain ⟨left, top, right, bottom⟩ := win
  constructor
  · intro h
    simp only [ScreenBuffer.seen, View.withWin, viewOf, View.mk.injEq] at h
    obtain ⟨-, -, hl, ht, hw, hh, -, -, hx, hy⟩ := h
    refine ⟨?_, hx, hy⟩
    cases hb : b.win
    simp only [hb, Rect.mk.injEq] at hl ht hw hh ⊢
    omega
  · rintro ⟨h, rfl, rfl⟩
    simp only [ScreenBuffer.seen, View.withWin, viewOf, ← h]

/-- What `o` leads to where its buffer is shown with the window `win` and the cursor at `x` and `y`. -/
def Settled (v : View) (req : OutputInfo) (o : Output) (win : Rect) (x y : ℤ) (o' : Output) :
    Prop :=
  o'.buffer.Inside ∧ (o.shown v = o.buffer.seen win x y → (o'.shown v = viewOf o'.buffer ↔
    (x = o.buffer.cursorX ∧ y = o.buffer.cursorY) ∧
      (win = o.buffer.win ∨ req.has setDisplayWindow = true ∧
        req.win.Inside o.buffer.width o.buffer.height ∧ req.win ≠ o.buffer.win)))

/-- The stages behind the change of the size. Another window of the request tells the renderer the
right one. -/
theorem changeRest_leads {win : Rect} {x y : ℤ} (hin : o.buffer.Inside) :
    Stage.Leads (do
      let o ← changeAttr req o
      let o ← changeDisplayWindow req o
      changeMaxSize req o)
    (Settled v req o win x y) (Settled v req o win x y) := by
  obtain ⟨attr, o₁, hattr, ho₁⟩ : ∃ attr o₁, changeAttr req o = .ok o₁ ∧
      o₁ = { o with buffer := { o.buffer with attr := attr } } := by
    unfold changeAttr
    split
    · exact ⟨_, _, rfl, rfl⟩
    · exact ⟨o.buffer.attr, _, rfl, rfl⟩
  have hin₁ : o₁.buffer.Inside := by
    subst ho₁
    exact ⟨hin.size, hin.win, hin.cursorX, hin.cursorY⟩
  have hv₁ : o.shown v = o.buffer.seen win x y → o₁.shown v = o₁.buffer.seen win x y := by
    subst ho₁
    exact id
  have hgoal : ∀ o₂ : Output, ∀ win₂ : Rect, o₂.buffer.Inside →
      (o.shown v = o.buffer.seen win x y → o₂.shown v = o₂.buffer.seen win₂ x y) →
      o₂.buffer.cursorX = o.buffer.cursorX →
      o₂.buffer.cursorY = o.buffer.cursorY →
      (win₂ = o₂.buffer.win ↔ win = o.buffer.win ∨ req.has setDisplayWindow = true ∧
        req.win.Inside o.buffer.width o.buffer.height ∧ req.win ≠ o.buffer.win) →
      (changeMaxSize req o₂).Leads (Settled v req o win x y)
        (Settled v req o win x y) := by
    intro o₂ win₂ hin₂ hv₂ hx hy hwin
    refine (changeMaxSize_leads (v := v)).mono ?_ ?_
    · rintro o' ⟨hs, w, h, hb⟩
      refine ⟨by rw [hb]; exact ⟨hin₂.size, hin₂.win, hin₂.cursorX, hin₂.cursorY⟩, fun hv => ?_⟩
      rw [hs, hv₂ hv, hb]
      refine seen_eq_iff.trans ?_
      rw [hwin, hx, hy, and_comm]
    · rintro o' rfl
      refine ⟨hin₂, fun hv => ?_⟩
      rw [hv₂ hv, seen_eq_iff, hwin, hx, hy, and_comm]
  rw [Stage.leads_bind, hattr]
  refine Stage.leads_bind.mpr ?_
  refine (changeDisplayWindow_leads (v := v) hin₁).mono ?_ ?_
  · intro o₂ ho₂
    by_cases hhas : req.has setDisplayWindow = true
    · simp only [hhas, if_true] at ho₂
      obtain ⟨hwin, hb, hs⟩ := ho₂
      have hin₂ : o₂.buffer.Inside := by
        rw [hb]
        exact ⟨hin₁.size, hwin, hin₁.cursorX, hin₁.cursorY⟩
      by_cases hsame : o₁.buffer.win = req.win
      · refine hgoal o₂ win hin₂ (fun hv => ?_) ?_ ?_ ?_
        · rw [hs, if_pos hsame, hv₁ hv, hb]
          rfl
        · rw [hb, ho₁]
        · rw [hb, ho₁]
        · rw [ho₁] at hsame
          simp only [hb, ← hsame, ne_eq, not_true_eq_false, and_false, or_false]
      · refine hgoal o₂ req.win hin₂ (fun hv => ?_) ?_ ?_ ?_
        · rw [hs, if_neg hsame, hv₁ hv, hb]
          rfl
        · rw [hb, ho₁]
        · rw [hb, ho₁]
        · rw [ho₁] at hsame hwin
          simp only [hb, hhas, true_and, true_iff]
          exact Or.inr ⟨hwin, Ne.symm hsame⟩
    · simp only [hhas] at ho₂
      obtain rfl : o₂ = o₁ := ho₂
      refine hgoal o₂ win hin₁ hv₁ (by rw [ho₁]) (by rw [ho₁]) ?_
      simp only [hhas, Bool.false_eq_true, false_and, or_false, ho₁]
  · rintro o₂ ⟨hhas, hwin, rfl⟩
    refine ⟨hin₁, fun hv => ?_⟩
    rw [hv₁ hv, seen_eq_iff]
    rw [ho₁] at hwin
    simp only [hhas, true_and, hwin, false_and, or_false, ho₁]
    rw [and_comm]

theorem inside_withCursor {b : ScreenBuffer} (hin : b.Inside) (hpos : PosOk b req) (size visible : ℤ) :
    ScreenBuffer.Inside { b with
      cursorSize := size
      cursorVisible := visible
      cursorX := (req.cursor b).1
      cursorY := (req.cursor b).2 } := by
  unfold OutputInfo.cursor
  split
  · rename_i hhas
    exact ⟨hin.size, hin.win, (hpos hhas).1, (hpos hhas).2⟩
  · exact ⟨hin.size, hin.win, hin.cursorX, hin.cursorY⟩

/-- A request keeps the cursor and the window inside the buffer, and a renderer that knows all of the
buffer does so afterwards exactly when the request announces its changes. -/
theorem changeOutput_leads (v : View) (req : OutputInfo) {o : Output} (hin : o.buffer.Inside) :
    (changeOutput req o).output.buffer.Inside ∧ (o.shown v = viewOf o.buffer →
      ((changeOutput req o).output.shown v = viewOf (changeOutput req o).output.buffer ↔
        Announced o.buffer req)) := by
  refine (Stage.leads_output (P := fun o' => o'.buffer.Inside ∧ (o.shown v = viewOf o.buffer →
    (o'.shown v = viewOf o'.buffer ↔ Announced o.buffer req)))).mp ?_
  have hfail : ∀ o' : Output, o'.buffer.Inside →
      (o.shown v = viewOf o.buffer → o'.shown v = viewOf o'.buffer) → ¬ Resizes o.buffer req →
      o'.buffer.Inside ∧ (o.shown v = viewOf o.buffer →
        (o'.shown v = viewOf o'.buffer ↔ Announced o.buffer req)) :=
    fun o' hin' hv' hno => ⟨hin', fun hv => iff_of_true (hv' hv) fun h => absurd h hno⟩
  rw [changeOutput, Stage.leads_bind]
  refine (changeCursorGeom_leads (v := v)).mono ?_ ?_
  swap
  · rintro o' ⟨hgeom, rfl⟩
    exact hfail _ hin id fun h => hgeom h.1
  rintro o₁ ⟨hgeom, hv₁, size, visible, hb₁⟩
  have hin₁ : o₁.buffer.Inside := by
    rw [hb₁]
    exact ⟨hin.size, hin.win, hin.cursorX, hin.cursorY⟩
  have hpos₁ : PosOk o₁.buffer req ↔ PosOk o.buffer req := by rw [hb₁]; rfl
  refine Stage.leads_bind.mpr ((changeCursorPos_leads (v := v)).mono ?_ ?_)
  swap
  · rintro o' ⟨hpos, rfl⟩
    exact hfail _ hin₁ hv₁ fun h => hpos (hpos₁.mpr h.2.1)
  rintro o₂ ⟨hpos, hv₂, hb₂⟩
  have hb₂' : o₂.buffer = { o.buffer with
      cursorSize := size
      cursorVisible := visible
      cursorX := (req.cursor o.buffer).1
      cursorY := (req.cursor o.buffer).2 } := by
    rw [hb₂, hb₁]
    rfl
  have hin₂ : o₂.buffer.Inside := hb₂' ▸ inside_withCursor hin (hpos₁.mp hpos) size visible
  have hsize₂ : SizeOk o₂.buffer req ↔ SizeOk o.buffer req := by rw [hb₂']; rfl
  refine Stage.leads_bind.mpr ((changeSize_leads (v := v)).mono ?_ ?_)
  swap
  · rintro o' ⟨-, hsize, rfl⟩
    exact hfail _ hin₂ (fun hv => hv₂ (hv₁ hv)) fun h => hsize (hsize₂.mpr h.2.2.2)
  rintro o₃ (⟨hhas, rfl⟩ | ⟨hhas, hsize, hb₃, hv₃⟩)
  · have hsettled : Stage.Leads _
        (Settled v req o₃ o₃.buffer.win o₃.buffer.cursorX o₃.buffer.cursorY)
        (Settled v req o₃ o₃.buffer.win o₃.buffer.cursorX o₃.buffer.cursorY) := changeRest_leads hin₂
    refine hsettled.mono ?_ ?_ <;>
    · rintro o' ⟨hin', hiff⟩
      refine hfail o' hin' (fun hv => ?_) fun h => by simp [h.2.2.1] at hhas
      exact (hiff (hv₂ (hv₁ hv))).mpr ⟨⟨rfl, rfl⟩, Or.inl rfl⟩
  · have hres : Resizes o.buffer req := ⟨hgeom, hpos₁.mp hpos, hhas, hsize₂.mp hsize⟩
    have hin₃ : o₃.buffer.Inside := hb₃ ▸ hin₂.resized hsize
    have hseen : o.shown v = viewOf o.buffer → o₃.shown v = o₃.buffer.seen o₂.buffer.win
        (toldCursor o₂.buffer req).1 (toldCursor o₂.buffer req).2 := by
      intro hv
      rw [hv₃ (hv₂ (hv₁ hv)), hb₃]
      rfl
    have hiff : ((toldCursor o₂.buffer req).1 = o₃.buffer.cursorX ∧
        (toldCursor o₂.buffer req).2 = o₃.buffer.cursorY) ∧
        (o₂.buffer.win = o₃.buffer.win ∨ req.has setDisplayWindow = true ∧
          req.win.Inside o₃.buffer.width o₃.buffer.height ∧ req.win ≠ o₃.buffer.win) ↔
        Announced o.buffer req := by
      rw [Announced, imp_iff_right hres, hb₃, hb₂']
      simp only [ScreenBuffer.resized, toldCursor]
      refine and_congr ?_ ?_
      · split
        · rename_i hout
          rw [imp_iff_right hout]
          refine and_congr ?_ ?_ <;> split <;> omega
        · rename_i hout
          rw [not_or] at hout
          simp only [hout.1, hout.2, or_self, if_false, false_implies, and_self]
      · rw [or_iff_not_imp_left]
        exact imp_congr_left (not_congr eq_comm)
    have hsettled : Stage.Leads _
        (Settled v req o₃ o₂.buffer.win (toldCursor o₂.buffer req).1 (toldCursor o₂.buffer req).2)
        (Settled v req o₃ o₂.buffer.win (toldCursor o₂.buffer req).1 (toldCursor o₂.buffer req).2) :=
      changeRest_leads hin₃
    refine hsettled.mono ?_ ?_ <;>
    · rintro o' ⟨hin', hiff'⟩
      exact ⟨hin', fun hv => (hiff' (hseen hv)).trans hiff⟩

end

end Wine.Console
