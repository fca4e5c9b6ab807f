import Mathlib.Tactic.Common

/-!
# Blocks of cells

An allocated block is the list of its cells. Reading and writing name a place by its distance from
the start of the block, and fail when they reach past its end.
-/

namespace Wine.Lib

variable {α : Type*} {a b c data : List α} {n place : ℕ}

def readAt (cells : List α) (place n : ℕ) : Option (List α) :=
  if place + n ≤ cells.length then some ((cells.drop place).take n) else none

def writeAt (cells : List α) (place : ℕ) (data : List α) : Option (List α) :=
  if place + data.length ≤ cells.length then
    some (cells.take place ++ data ++ cells.drop (place + data.length))
  else none

/-- `memmove` inside one block. -/
def moveWithin (cells : List α) (target source n : ℕ) : Option (List α) :=
  (readAt cells source n).bind (writeAt cells target)

theorem readAt_append (hplace : place = a.length) (hn : n = b.length) :
    readAt (a ++ (b ++ c)) place n = some b := by
  subst hplace hn
  rw [readAt, if_pos (by simp only [List.length_append]; omega), List.drop_left, List.take_left]

theorem writeAt_append (data : List α) (hplace : place = a.length)
    (hn : data.length ≤ b.length) :
    writeAt (a ++ b) place data = some (a ++ (data ++ b.drop data.length)) := by
  subst hplace
  rw [writeAt, if_pos (by simp only [List.length_append]; omega), List.take_left,
    List.drop_append, List.drop_eq_nil_of_le (by omega), List.nil_append,
    Nat.add_sub_cancel_left, List.append_assoc]

theorem writeAt_ahead (data : List α) {k : ℕ} (h : k + data.length ≤ b.length) :
    writeAt (a ++ b) (a.length + k) data =
      some (a ++ (b.take k ++ (data ++ (b.drop k).drop data.length))) := by
  have hlen : (a ++ b.take k).length = a.length + k := by
    rw [List.length_append, List.length_take_of_le (by omega)]
  have hwrite := writeAt_append (a := a ++ b.take k) (b := b.drop k) data rfl
    (by rw [List.length_drop]; omega)
  rwa [List.append_assoc, List.take_append_drop, hlen, List.append_assoc] at hwrite

/-- A write over cells of the same number replaces them. -/
theorem writeAt_replace (hplace : place = a.length) (hn : data.length = b.length) :
    writeAt (a ++ (b ++ c)) place data = some (a ++ (data ++ c)) := by
  rw [writeAt_append data hplace (by rw [List.length_append]; omega), hn, List.drop_left]

end Wine.Lib
