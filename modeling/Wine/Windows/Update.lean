import Mathlib.Data.Int.Notation
import Wine.Lib.Forest

/-!
# Windows to be repainted

A client asks for the windows of a subtree that need painting one at a time, each time handing in the
window that it got before. The server then goes on behind that window: into its children, and up
through the following siblings of each ancestor.
-/

namespace Wine.Windows
open Wine.Lib

abbrev WindowPtr := ℕ
abbrev Flags := BitVec 32

def wsMinimize : Flags := 0x20000000
def wsVisible : Flags := 0x10000000
def wsClipchildren : Flags := 0x02000000

def paintInternal : Flags := 0x01
def paintErase : Flags := 0x02
def paintNonclient : Flags := 0x04

def updateNonclient : Flags := 0x01
def updateErase : Flags := 0x02
def updatePaint : Flags := 0x04
def updateInternalpaint : Flags := 0x08
def updateAllchildren : Flags := 0x10
def updateNochildren : Flags := 0x20

def Has (flags flag : Flags) : Prop := flags &&& flag ≠ 0

instance (flags flag : Flags) : Decidable (Has flags flag) := by unfold Has; infer_instance

/-- The window tree of a desktop, its children in Z-order. A child that is not linked in the Z-order
has a parent and stands in no list. -/
structure WindowTree extends Forest WindowPtr where
  style : WindowPtr → Flags
  /-- Whether the window has an update region. -/
  updateRegion : WindowPtr → Bool
  paintFlags : WindowPtr → Flags

namespace WindowTree

variable (t : WindowTree)

def Visible (w : WindowPtr) : Prop := Has (t.style w) wsVisible

def Minimized (w : WindowPtr) : Prop := Has (t.style w) wsMinimize

instance (w : WindowPtr) : Decidable (t.Visible w) := by unfold Visible; infer_instance

instance (w : WindowPtr) : Decidable (t.Minimized w) := by unfold Minimized; infer_instance

def isVisibleTo : ℕ → WindowPtr → Bool
  | 0, _ => true
  | n + 1, w =>
    match t.parent w with
    | none => true
    | some p =>
      if ¬ t.Visible w then false
      -- if parent is minimized children are not visible
      else if t.Minimized p then false
      else isVisibleTo n p

def isVisible (w : WindowPtr) : Bool := t.isVisibleTo (t.depth w + 1) w

def winNeedsRepaint (w : WindowPtr) : Bool :=
  t.updateRegion w || decide (Has (t.paintFlags w) paintInternal)

def getUpdateFlags (w : WindowPtr) (flags : Flags) : Flags :=
  (if Has flags updateNonclient ∧ Has (t.paintFlags w) paintNonclient ∧ t.updateRegion w then
    updateNonclient else 0) |||
  (if Has flags updateErase ∧ Has (t.paintFlags w) paintErase ∧ t.updateRegion w then
    updateErase else 0) |||
  (if Has flags updatePaint ∧ t.updateRegion w then updatePaint else 0) |||
  (if Has flags updateInternalpaint ∧ Has (t.paintFlags w) paintInternal then
    updateInternalpaint else 0)

/-- A window to be painted and what is to be done with it. `none` is the result 0. -/
abbrev Found := Option (WindowPtr × Flags)

/-- The loop over the children; `descend` is the recursive call on a child. -/
def childLoop (flags : Flags) (descend : WindowPtr → Found) :
    Option WindowPtr → List WindowPtr → Found
  | _, [] => none
  | some skip, ptr :: l =>
    -- skip all children until from_child is found
    childLoop flags descend (if ptr = skip then none else some skip) l
  | none, ptr :: l =>
    if ¬ t.Visible ptr then childLoop flags descend none l
    else if t.getUpdateFlags ptr flags ≠ 0 then some (ptr, t.getUpdateFlags ptr flags)
    else match descend ptr with
      | some found => some found
      | none => childLoop flags descend none l

def getChildUpdateFlagsTo (flags : Flags) : ℕ → WindowPtr → Option WindowPtr → Found
  | 0, _, _ => none
  | n + 1, win, fromChild =>
    -- first make sure we want to iterate children at all
    if t.Minimized win then none
    else if ¬ Has flags updateAllchildren ∧ ¬ Has (t.style win) wsClipchildren then none
    else t.childLoop flags (fun ptr => getChildUpdateFlagsTo flags n ptr none) fromChild
      (t.children win)

/-- The recursion is no deeper than the tree. -/
def getChildUpdateFlags (win : WindowPtr) (fromChild : Option WindowPtr) (flags : Flags) : Found :=
  t.getChildUpdateFlagsTo flags (t.room win) win fromChild

/-- The last window from `ptr` up to `win` that passes the test, or else `mark`. -/
def lastUp (test : WindowPtr → Bool) (win : WindowPtr) :
    ℕ → WindowPtr → Option WindowPtr → Option WindowPtr
  | 0, _, mark => mark
  | n + 1, ptr, mark =>
    let mark := if test ptr then some ptr else mark
    if ptr = win then mark
    else match t.parent ptr with
      | some p => lastUp test win n p mark
      | none => mark

def anyUp (test : WindowPtr → Bool) : ℕ → Option WindowPtr → Bool
  | 0, _ => false
  | _, none => false
  | n + 1, some ptr => test ptr || anyUp test n (t.parent ptr)

/-- Check siblings and parent siblings. -/
def climb (win : WindowPtr) (flags : Flags) : ℕ → WindowPtr → Found
  | 0, _ => none
  | n + 1, fromSibling =>
    match t.parent fromSibling with
    | none => none
    | some p =>
      if fromSibling = win then none
      else match t.getChildUpdateFlags p (some fromSibling) flags with
        | some found => some found
        | none => climb win flags n p

/-- Window that will be repainted over its children. -/
def overpaints (w : WindowPtr) : Bool :=
  decide (¬ Has (t.style w) wsClipchildren) && t.winNeedsRepaint w

def hiddenFrom (w : WindowPtr) : Bool := decide (¬ t.Visible w ∨ t.Minimized w)

def getWindowUpdateFlags (win : WindowPtr) (fromChild : Option WindowPtr) (flags : Flags) : Found :=
  if ¬ t.isVisible win then none
  else
    -- if some parent is not visible start from the next sibling
    let fromSibling := fromChild.bind fun c => t.lastUp t.hiddenFrom win (t.depth c + 1) c none
    -- non-client painting must be delayed if one of the parents is going to be repainted
    let delayed := Has flags updateNonclient ∧ ¬ Has flags (updatePaint ||| updateInternalpaint)
    if delayed ∧ t.anyUp t.overpaints (t.depth win + 1) (t.parent win) then none
    else
      let fromSibling := if delayed ∧ ¬ Has flags updateAllchildren then
          fromChild.bind fun c =>
            let start := fromSibling.getD c
            t.lastUp t.overpaints win (t.depth start + 1) start fromSibling
        else fromSibling
      -- check window itself (only if not restarting from a child)
      if fromChild = none ∧ t.getUpdateFlags win flags ≠ 0 then
        some (win, t.getUpdateFlags win flags)
      else
        let child := fromChild.getD win
        if Has flags updateNochildren then none
        else match fromSibling with
          | some s => t.climb win flags (t.depth s + 1) s
          | none =>
            match t.getChildUpdateFlags child none flags with
            | some found => some found
            | none => t.climb win flags (t.depth child + 1) child

/-- At most `n` calls one after the other, until one returns 0. -/
def calls (win : WindowPtr) (flags : Flags) : ℕ → Option WindowPtr → List (WindowPtr × Flags)
  | 0, _ => []
  | n + 1, fromChild =>
    match t.getWindowUpdateFlags win fromChild flags with
    | none => []
    | some found => found :: calls win flags n (some found.1)

end WindowTree

end Wine.Windows
