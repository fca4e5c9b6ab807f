import Wine.Lib.Runs
import Wine.Server.State

/-!
# Screen buffers

A console with its screen buffers and the queue of events that tell the renderer what to draw. The
fields of requests and events are `short`s, those of a screen buffer `int`s. The cells of a buffer
are left out.
-/

namespace Wine.Console
open Wine.Server (Status statusInvalidParameter statusNoMemory)

abbrev Short := BitVec 16

structure Rect where
  left : ℤ
  top : ℤ
  right : ℤ
  bottom : ℤ
  deriving DecidableEq, Repr

structure ScreenBuffer where
  cursorSize : ℤ
  cursorVisible : ℤ
  cursorX : ℤ
  cursorY : ℤ
  width : ℤ
  height : ℤ
  attr : ℤ
  win : Rect
  maxWidth : ℤ
  maxHeight : ℤ
  deriving DecidableEq, Repr

inductive RendererEvent
  | activeSb
  | sbResize (width height : Short)
  | update (top bottom : Short)
  | cursorPos (x y : Short)
  | cursorGeom (visible size : Short)
  | display (left top width height : Short)
  deriving DecidableEq, Repr

/-- What the renderer knows of the active screen buffer. -/
structure View where
  width : ℤ
  height : ℤ
  left : ℤ
  top : ℤ
  winWidth : ℤ
  winHeight : ℤ
  cursorSize : ℤ
  cursorVisible : ℤ
  cursorX : ℤ
  cursorY : ℤ
  deriving DecidableEq, Repr

def View.apply (v : View) : RendererEvent → View
  | .activeSb => v
  | .sbResize width height => { v with width := width.toInt, height := height.toInt }
  | .update _ _ => v
  | .cursorPos x y => { v with cursorX := x.toInt, cursorY := y.toInt }
  | .cursorGeom visible size =>
    { v with cursorVisible := visible.toInt, cursorSize := size.toInt }
  | .display left top width height =>
    { v with
      left := left.toInt
      top := top.toInt
      winWidth := width.toInt
      winHeight := height.toInt }

def consoleInputEventsAppend (events : List RendererEvent) (evt : RendererEvent) :
    List RendererEvent :=
  match events.getLast?, evt with
  | some (.update top bottom), .update top' bottom' =>
    -- if two update events overlap, collapse them into a single one
    if bottom.toInt + 1 ≥ top'.toInt ∧ bottom'.toInt + 1 ≥ top.toInt then
      events.dropLast ++ [.update (BitVec.ofInt 16 (min top.toInt top'.toInt))
        (BitVec.ofInt 16 (max bottom.toInt bottom'.toInt))]
    else events ++ [evt]
  | _, _ => events ++ [evt]

/-- A `WINDOW_BUFFER_SIZE_EVENT` for the readers of the console. -/
structure InputRecord where
  x : Short
  y : Short
  deriving DecidableEq, Repr

structure ConsoleInput where
  buffers : List ScreenBuffer
  active : Option ℕ
  mode : BitVec 32
  records : List InputRecord
  events : List RendererEvent
  view : View

def enableProcessedInput : BitVec 32 := 0x01
def enableLineInput : BitVec 32 := 0x02
def enableEchoInput : BitVec 32 := 0x04
def enableWindowInput : BitVec 32 := 0x08
def enableMouseInput : BitVec 32 := 0x10

def createConsoleInput (view : View) : ConsoleInput where
  buffers := []
  active := none
  mode := enableProcessedInput ||| enableLineInput ||| enableEchoInput ||| enableMouseInput
  records := []
  events := []
  view := view

/-! ## Creation -/

def newScreenBuffer : ScreenBuffer where
  cursorSize := 100
  cursorVisible := 1
  cursorX := 0
  cursorY := 0
  width := 80
  height := 150
  attr := 0x0F
  win := ⟨0, 0, 79, 24⟩
  maxWidth := 80
  maxHeight := 25

def ScreenBuffer.initialEvents (b : ScreenBuffer) : List RendererEvent :=
  [.activeSb,
    .sbResize (BitVec.ofInt 16 b.width) (BitVec.ofInt 16 b.height),
    .display (BitVec.ofInt 16 b.win.left) (BitVec.ofInt 16 b.win.top)
      (BitVec.ofInt 16 (b.win.right - b.win.left + 1))
      (BitVec.ofInt 16 (b.win.bottom - b.win.top + 1)),
    .update 0 (BitVec.ofInt 16 (b.height - 1)),
    .cursorGeom (BitVec.ofInt 16 b.cursorVisible) (BitVec.ofInt 16 b.cursorSize),
    .cursorPos (BitVec.ofInt 16 b.cursorX) (BitVec.ofInt 16 b.cursorY)]

/-- `mem` is the outcome of the allocations. -/
def createConsoleOutput (c : ConsoleInput) (mem : Bool) : ConsoleInput :=
  if mem then
    let c' := { c with buffers := c.buffers ++ [newScreenBuffer] }
    match c.active with
    | some _ => c'
    | none =>
      { c' with
        active := some c.buffers.length
        events := newScreenBuffer.initialEvents.foldl consoleInputEventsAppend c.events }
  else c

/-! ## Changes -/

def setCursorGeom : BitVec 32 := 0x01
def setCursorPos : BitVec 32 := 0x02
def setSize : BitVec 32 := 0x04
def setAttr : BitVec 32 := 0x08
def setDisplayWindow : BitVec 32 := 0x10
def setMaxSize : BitVec 32 := 0x20

/-- The request. `mem` and `memRecords` are the outcomes of its allocations and `ownConsole` tells
whether it comes from a process of the console. -/
structure OutputInfo where
  mask : BitVec 32
  cursorSize : Short
  cursorVisible : Short
  cursorX : Short
  cursorY : Short
  width : Short
  height : Short
  attr : Short
  winLeft : Short
  winTop : Short
  winRight : Short
  winBottom : Short
  maxWidth : Short
  maxHeight : Short
  mem : Bool
  memRecords : Bool
  ownConsole : Bool

def OutputInfo.has (req : OutputInfo) (bit : BitVec 32) : Bool := req.mask &&& bit ≠ 0

/-- What a request on a screen buffer works on. `reports` tells whether the readers of the console are
told of a new size. -/
structure Output where
  buffer : ScreenBuffer
  events : List RendererEvent
  records : List InputRecord
  reports : Bool

/-- The part of a request that was done before an error stays done. -/
abbrev Stage := Except (Status × Output) Output

def Output.append (o : Output) (evt : RendererEvent) : Output :=
  { o with events := consoleInputEventsAppend o.events evt }

section
variable (req : OutputInfo) (o : Output)

def changeCursorGeom : Stage :=
  if req.has setCursorGeom then
    if req.cursorSize.toInt < 1 ∨ 100 < req.cursorSize.toInt then .error (statusInvalidParameter, o)
    else if o.buffer.cursorSize ≠ req.cursorSize.toInt ∨
        o.buffer.cursorVisible ≠ req.cursorVisible.toInt then
      let buffer := { o.buffer with
        cursorSize := req.cursorSize.toInt
        cursorVisible := req.cursorVisible.toInt }
      .ok ({ o with buffer := buffer }.append (.cursorGeom req.cursorVisible req.cursorSize))
    else .ok o
  else .ok o

def changeCursorPos : Stage :=
  if req.has setCursorPos then
    if req.cursorX.toInt < 0 ∨ o.buffer.width ≤ req.cursorX.toInt ∨
        req.cursorY.toInt < 0 ∨ o.buffer.height ≤ req.cursorY.toInt then
      .error (statusInvalidParameter, o)
    else if o.buffer.cursorX ≠ req.cursorX.toInt ∨ o.buffer.cursorY ≠ req.cursorY.toInt then
      let buffer := { o.buffer with
        cursorX := req.cursorX.toInt
        cursorY := req.cursorY.toInt }
      .ok ({ o with buffer := buffer }.append (.cursorPos req.cursorX req.cursorY))
    else .ok o
  else .ok o

/-- Scroll the window to display the screen buffer. -/
def Rect.scroll (win : Rect) (width height : ℤ) : Rect where
  left := if width ≤ win.right then 0 else win.left
  right := if width ≤ win.right then win.right - win.left else win.right
  top := if height ≤ win.bottom then 0 else win.top
  bottom := if height ≤ win.bottom then win.bottom - win.top else win.bottom

def changeSize : Stage :=
  if req.has setSize then
    -- new screen-buffer cannot be smaller than actual window
    if req.width.toInt < o.buffer.win.right - o.buffer.win.left + 1 ∨
        req.height.toInt < o.buffer.win.bottom - o.buffer.win.top + 1 then
      .error (statusInvalidParameter, o)
    else if req.mem = false then .error (statusNoMemory, o)
    else
      let outX := decide (req.width.toInt ≤ o.buffer.cursorX)
      let outY := decide (req.height.toInt ≤ o.buffer.cursorY)
      let buffer := { o.buffer with
        width := req.width.toInt
        height := req.height.toInt
        win := o.buffer.win.scroll req.width.toInt req.height.toInt
        cursorX := if outX then req.width.toInt - 1 else o.buffer.cursorX
        cursorY := if outY then req.height.toInt - 1 else o.buffer.cursorY }
      let o := ({ o with buffer := buffer }.append (.sbResize req.width req.height)).append
        (.update 0 (BitVec.ofInt 16 (req.height.toInt - 1)))
      let o := if outX ∨ outY then o.append (.cursorPos req.cursorX req.cursorY) else o
      .ok { o with
        records := if o.reports ∧ req.memRecords then o.records ++ [⟨req.width, req.height⟩]
          else o.records }
  else .ok o

def changeAttr : Stage :=
  .ok (if req.has setAttr then { o with buffer := { o.buffer with attr := req.attr.toInt } } else o)

def OutputInfo.win (req : OutputInfo) : Rect :=
  ⟨req.winLeft.toInt, req.winTop.toInt, req.winRight.toInt, req.winBottom.toInt⟩

def changeDisplayWindow : Stage :=
  if req.has setDisplayWindow then
    if req.win.left < 0 ∨ req.win.right < req.win.left ∨ o.buffer.width ≤ req.win.right ∨
        req.win.top < 0 ∨ req.win.bottom < req.win.top ∨ o.buffer.height ≤ req.win.bottom then
      .error (statusInvalidParameter, o)
    else if o.buffer.win ≠ req.win then
      .ok ({ o with buffer := { o.buffer with win := req.win } }.append
        (.display req.winLeft req.winTop
          (BitVec.ofInt 16 (req.winRight.toInt - req.winLeft.toInt + 1))
          (BitVec.ofInt 16 (req.winBottom.toInt - req.winTop.toInt + 1))))
    else .ok o
  else .ok o

def changeMaxSize : Stage :=
  if req.has setMaxSize then
    -- can only be done by renderer
    if req.ownConsole = false then .error (statusInvalidParameter, o)
    else
      .ok { o with buffer := { o.buffer with
        maxWidth := req.maxWidth.toInt
        maxHeight := req.maxHeight.toInt } }
  else .ok o

def changeOutput : Stage := do
  let o ← changeCursorGeom req o
  let o ← changeCursorPos req o
  let o ← changeSize req o
  let o ← changeAttr req o
  let o ← changeDisplayWindow req o
  changeMaxSize req o

end

/-- The output after a request, whether it failed or not. -/
def Stage.output : Stage → Output
  | .ok o => o
  | .error (_, o) => o

def setConsoleOutputInfo (c : ConsoleInput) (buffer : ℕ) (req : OutputInfo) : ConsoleInput :=
  match c.buffers[buffer]? with
  | none => c
  | some b =>
    let reports := decide (c.active = some buffer) && decide (c.mode &&& enableWindowInput ≠ 0)
    let o := (changeOutput req ⟨b, c.events, c.records, reports⟩).output
    { c with
      buffers := c.buffers.set buffer o.buffer
      events := o.events
      records := o.records }

/-! ## Requests one after the other -/

inductive Action
  | createConsoleOutput (mem : Bool)
  | setConsoleOutputInfo (buffer : ℕ) (req : OutputInfo)
  | setConsoleMode (mode : BitVec 32)
  | getConsoleRendererEvents (num : ℕ)

inductive Fault

def step (c : ConsoleInput) : Action → Except Fault ConsoleInput
  | .createConsoleOutput mem => .ok (createConsoleOutput c mem)
  | .setConsoleOutputInfo buffer req => .ok (setConsoleOutputInfo c buffer req)
  | .setConsoleMode mode => .ok { c with mode := mode }
  | .getConsoleRendererEvents num =>
    .ok { c with
      events := c.events.drop num
      view := (c.events.take num).foldl View.apply c.view }

end Wine.Console
