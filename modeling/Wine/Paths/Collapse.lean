import Mathlib.Data.List.TakeWhile
import Wine.Lib.Components
import Wine.Unicode

/-!
# Normalization of paths

The path behind the drive or share is normalized in place, one component after the other. The component
`...` before a backslash loses its last dot like any other directory name, and is a `..` from then on.
-/

namespace Wine.Paths
open Lib.Components

def slash : WChar := 0x2f#16

def backslash : WChar := 0x5c#16

def dot : WChar := 0x2e#16

def space : WChar := 0x20#16

def toBackslash (c : WChar) : WChar := if c = slash then backslash else c

/-- Drops the backslashes that follow one; `last` is the last character that was kept. -/
def dedupFrom : WChar → List WChar → List WChar
  | _, [] => []
  | last, c :: rest =>
    if c ≠ backslash ∨ last ≠ backslash then c :: dedupFrom c rest else dedupFrom last rest

def dedup (path : List WChar) (mark : ℕ) : List WChar :=
  match (path.take (max 1 mark)).getLast? with
  | none => path
  | some last => path.take (max 1 mark) ++ dedupFrom last (path.drop (max 1 mark))

/-- Back to the start of the component before the position. -/
def back (kept : List WChar) : List WChar := kept.tail.dropWhile (· ≠ backslash)

def stripDot (kept : List WChar) : List WChar := if kept.head? = some dot then kept.tail else kept

/-- On to the next component; a dot at the end of a directory name is removed. -/
def skipComponent (kept rest : List WChar) : List WChar × List WChar :=
  match rest.dropWhile (· ≠ backslash) with
  | [] => ((rest.takeWhile (· ≠ backslash)).reverse ++ kept, [])
  | _ :: next =>
    (backslash :: stripDot ((rest.takeWhile (· ≠ backslash)).reverse ++ kept), next)

/-- One round of the loop. `kept` is what lies between the mark and the position, the last character
first, and `rest` is what follows the position. -/
def collapseStep (kept : List WChar) : List WChar → List WChar × List WChar
  | [] => (kept, [])
  | [c] => if c = dot then (kept.tail, []) else skipComponent kept [c]
  | [c, d] =>
    if c = dot ∧ d = backslash then (kept, [])
    else if c = dot ∧ d = dot then ((back kept).tail, [])
    else skipComponent kept [c, d]
  | c :: d :: e :: next =>
    if c = dot ∧ d = backslash then (kept, e :: next)
    else if c = dot ∧ d = dot ∧ e = backslash then (back kept, next)
    else skipComponent kept (c :: d :: e :: next)

def collapseLoop : ℕ → List WChar → List WChar → Option (List WChar)
  | _, kept, [] => some kept
  | 0, _, _ :: _ => none
  | n + 1, kept, c :: rest =>
    collapseLoop n (collapseStep kept (c :: rest)).1 (collapseStep kept (c :: rest)).2

/-- Removes trailing spaces and dots. -/
def trim (kept : List WChar) : List WChar := kept.dropWhile fun c => c = space ∨ c = dot

/-- `collapse_path` -/
def collapsePath (fuel : ℕ) (path : List WChar) (mark : ℕ) : Option (List WChar) :=
  let path := dedup (path.map toBackslash) mark
  (collapseLoop fuel [] (path.drop mark)).map fun kept => path.take mark ++ (trim kept).reverse

/-- The names between the backslashes. -/
def components (path : List WChar) : List (List WChar) := path.splitOn backslash

def here : List WChar := [dot]

def up : List WChar := [dot, dot]

variable {kept rest name next : List WChar} {stack : List (List WChar)} {c : WChar}

theorem here_ne_up : here ≠ up := by decide

theorem skipComponent_last (h : backslash ∉ name) :
    skipComponent kept name = (name.reverse ++ kept, []) := by
  have hall : ∀ c ∈ name, decide (c ≠ backslash) = true := fun c hc =>
    decide_eq_true fun heq => h (heq ▸ hc)
  rw [skipComponent, List.dropWhile_eq_nil_iff.mpr hall, List.takeWhile_eq_self_iff.mpr hall]

theorem skipComponent_append (h : backslash ∉ name) :
    skipComponent kept (name ++ backslash :: next) =
      (backslash :: stripDot (name.reverse ++ kept), next) := by
  have hall : ∀ c ∈ name, decide (c ≠ backslash) = true := fun c hc =>
    decide_eq_true fun heq => h (heq ▸ hc)
  have hstop : ¬(fun c => decide (c ≠ backslash)) backslash = true := by decide
  rw [skipComponent, List.dropWhile_append_of_pos hall, List.takeWhile_append_of_pos hall,
    List.dropWhile_cons_of_neg (p := fun c => decide (c ≠ backslash)) hstop,
    List.takeWhile_cons_of_neg (p := fun c => decide (c ≠ backslash)) hstop, List.append_nil]

theorem collapseStep_of_ne_dot (hc : c ≠ dot) :
    collapseStep kept (c :: rest) = skipComponent kept (c :: rest) := by
  match rest with
  | [] => exact if_neg hc
  | [d] => rw [collapseStep, if_neg fun h => hc h.1, if_neg fun h => hc h.1]
  | d :: e :: next => rw [collapseStep, if_neg fun h => hc h.1, if_neg fun h => hc h.1]

/-- The last component. -/
theorem collapseStep_last (h : backslash ∉ name) : collapseStep kept name =
    (if name = here then kept.tail else if name = up then (back kept).tail else name.reverse ++ kept,
      []) := by
  have hskip : skipComponent kept name = _ := skipComponent_last h
  match name with
  | [] => rfl
  | [c] =>
    by_cases hc : c = dot
    · rw [hc]
      rfl
    · rw [collapseStep_of_ne_dot hc, hskip, if_neg (by simpa [here] using hc), if_neg (by simp [up])]
  | [c, d] =>
    by_cases hc : c = dot
    · have hd : d ≠ backslash := fun heq => h (heq ▸ List.mem_cons_of_mem _ List.mem_cons_self)
      rw [collapseStep, if_neg fun h => hd h.2]
      by_cases hd' : d = dot
      · rw [hc, hd']
        rfl
      · rw [if_neg fun h => hd' h.2, hskip, if_neg (by simp [here]), if_neg (by simp [up, hd'])]
    · rw [collapseStep_of_ne_dot hc, hskip, if_neg (by simp [here]), if_neg (by simp [up, hc])]
  | c :: d :: e :: name =>
    have hd : d ≠ backslash := fun heq => h (heq ▸ List.mem_cons_of_mem _ List.mem_cons_self)
    have he : e ≠ backslash := fun heq =>
      h (heq ▸ List.mem_cons_of_mem _ (List.mem_cons_of_mem _ List.mem_cons_self))
    rw [collapseStep, if_neg fun h => hd h.2, if_neg fun h => he h.2.2, hskip,
      if_neg (by simp [here]), if_neg (by simp [up])]

/-- A component before a backslash. -/
theorem collapseStep_append (h : backslash ∉ name) :
    collapseStep kept (name ++ backslash :: next) =
      (if name = here then kept else if name = up then back kept
        else backslash :: stripDot (name.reverse ++ kept), next) := by
  have hskip : skipComponent kept (name ++ backslash :: next) = _ := skipComponent_append h
  match name with
  | [] =>
    rw [List.nil_append, collapseStep_of_ne_dot (by decide)]
    exact hskip
  | [c] =>
    by_cases hc : c = dot
    · rw [hc]
      cases next with
      | nil => rfl
      | cons e next => rfl
    · rw [List.cons_append, collapseStep_of_ne_dot hc, if_neg (by simpa [here] using hc),
        if_neg (by simp [up])]
      exact hskip
  | [c, d] =>
    by_cases hc : c = dot
    · have hd : d ≠ backslash := fun heq => h (heq ▸ List.mem_cons_of_mem _ List.mem_cons_self)
      rw [List.cons_append, List.cons_append, List.nil_append, collapseStep, if_neg fun h => hd h.2]
      by_cases hd' : d = dot
      · rw [hc, hd']
        rfl
      · rw [if_neg fun h => hd' h.2.1, if_neg (c := [c, d] = here) (by simp [here]),
          if_neg (by simp [up, hd'])]
        exact hskip
    · rw [List.cons_append, collapseStep_of_ne_dot hc, if_neg (by simp [here]),
        if_neg (by simp [up, hc])]
      exact hskip
  | c :: d :: e :: name =>
    have hd : d ≠ backslash := fun heq => h (heq ▸ List.mem_cons_of_mem _ List.mem_cons_self)
    have he : e ≠ backslash := fun heq =>
      h (heq ▸ List.mem_cons_of_mem _ (List.mem_cons_of_mem _ List.mem_cons_self))
    rw [List.cons_append, List.cons_append, List.cons_append, collapseStep, if_neg fun h => hd h.2,
      if_neg fun h => he h.2.2, if_neg (by simp [here]), if_neg (by simp [up])]
    exact hskip

/-- What is kept for the names on the stack: a backslash behind each, and one dot less before it. -/
def keptOf : List (List WChar) → List WChar
  | [] => []
  | name :: stack => backslash :: (stripDot name.reverse ++ keptOf stack)

/-- What is kept in the end; nothing follows the name on top. -/
def trimmed : List (List WChar) → List WChar
  | [] => []
  | name :: stack => trim (name.reverse ++ keptOf stack)

def Plain (stack : List (List WChar)) : Prop := ∀ name ∈ stack, backslash ∉ name

theorem stripDot_sublist : (stripDot kept).Sublist kept := by
  rw [stripDot]
  split
  · exact List.tail_sublist kept
  · exact List.Sublist.refl kept

theorem stripDot_append (hkept : kept.head? ≠ some dot) :
    stripDot (name ++ kept) = stripDot name ++ kept := by
  cases name with
  | nil =>
    rw [List.nil_append, stripDot, if_neg hkept]
    rfl
  | cons c name =>
    rw [stripDot, stripDot, List.cons_append]
    split <;> next h =>
      rw [List.head?_cons] at h
      simp [h]

theorem keptOf_head : (keptOf stack).head? ≠ some dot := by
  cases stack with
  | nil => exact fun h => nomatch h
  | cons name stack =>
    rw [keptOf, List.head?_cons]
    decide

theorem dropWhile_keptOf : (keptOf stack).dropWhile (· ≠ backslash) = keptOf stack := by
  cases stack with
  | nil => rfl
  | cons name stack => rfl

theorem back_keptOf (h : Plain stack) : back (keptOf stack) = keptOf stack.tail := by
  cases stack with
  | nil => rfl
  | cons name stack =>
    have hname := h name List.mem_cons_self
    have hall : ∀ c ∈ stripDot name.reverse, decide (c ≠ backslash) = true := fun c hc =>
      decide_eq_true fun heq => hname (List.mem_reverse.mp (heq ▸ stripDot_sublist.subset hc))
    rw [back, keptOf, List.tail_cons, List.dropWhile_append_of_pos hall, dropWhile_keptOf,
      List.tail_cons]

theorem trim_stripDot : trim (stripDot name ++ kept) = trim (name ++ kept) := by
  rw [stripDot]
  split
  · next h =>
    cases name with
    | nil => rfl
    | cons c name =>
      obtain rfl := Option.some.inj h
      rfl
  · rfl

/-- Without the last backslash the name on top is the last one. -/
theorem trim_tail_keptOf : trim (keptOf stack).tail = trimmed stack := by
  cases stack with
  | nil => rfl
  | cons name stack => exact trim_stripDot

theorem components_append (h : backslash ∉ name) :
    components (name ++ backslash :: next) = name :: components next :=
  List.splitOn_append_cons_self_of_not_mem h next

theorem components_name (h : backslash ∉ name) : components name = [name] :=
  List.splitOn_eq_singleton h

/-- A path is one name, or a name before a backslash. -/
theorem split_name (rest : List WChar) : ∃ name, backslash ∉ name ∧
    (rest = name ∨ ∃ next, rest = name ++ backslash :: next) := by
  refine ⟨rest.takeWhile (· ≠ backslash), fun h => ?_, ?_⟩
  · have hne := List.mem_takeWhile_imp h
    exact absurd rfl (of_decide_eq_true hne)
  · have happ := List.takeWhile_append_dropWhile (p := fun c => decide (c ≠ backslash)) (l := rest)
    cases hdrop : rest.dropWhile (· ≠ backslash) with
    | nil =>
      rw [hdrop, List.append_nil] at happ
      exact Or.inl happ.symm
    | cons c next =>
      have hc := List.head?_dropWhile_not (fun c => decide (c ≠ backslash)) rest
      rw [hdrop, List.head?_cons] at hc
      have heq : c = backslash := by simpa using hc
      rw [hdrop, heq] at happ
      exact Or.inr ⟨next, happ.symm⟩

theorem collapseLoop_nil {fuel : ℕ} : collapseLoop fuel kept [] = some kept := by
  cases fuel with
  | zero => rfl
  | succ fuel => rfl

theorem collapseLoop_succ {fuel : ℕ} : collapseLoop (fuel + 1) kept rest =
    collapseLoop fuel (collapseStep kept rest).1 (collapseStep kept rest).2 := by
  cases rest with
  | nil => exact collapseLoop_nil.symm
  | cons c rest => rfl

/-- The loop puts the names on the stack and takes one off for each `..`. -/
theorem collapseLoop_spec (hstack : Plain stack) {fuel : ℕ} (hfuel : rest.length ≤ fuel) :
    ∃ kept, collapseLoop fuel (keptOf stack) rest = some kept ∧
      trim kept = trimmed ((components rest).foldl (visit here up) stack) := by
  induction fuel generalizing stack rest with
  | zero =>
    obtain rfl := List.length_eq_zero_iff.mp (Nat.le_zero.mp hfuel)
    exact ⟨_, rfl, rfl⟩
  | succ fuel ih =>
    rw [collapseLoop_succ]
    obtain ⟨name, hname, heq | ⟨next, heq⟩⟩ := split_name rest
    · rw [heq, collapseStep_last hname, collapseLoop_nil, components_name hname, List.foldl_cons,
        List.foldl_nil]
      refine ⟨_, rfl, ?_⟩
      by_cases hhere : name = here
      · rw [if_pos hhere, hhere, visit_here, trim_tail_keptOf]
      by_cases hup : name = up
      · rw [if_neg hhere, if_pos hup, hup, visit_up here_ne_up, back_keptOf hstack, trim_tail_keptOf]
      · rw [if_neg hhere, if_neg hup, visit_proper ⟨hhere, hup⟩]
        rfl
    · rw [heq, List.length_append, List.length_cons] at hfuel
      rw [heq, collapseStep_append hname, components_append hname, List.foldl_cons]
      have hnext : next.length ≤ fuel := by omega
      dsimp only
      by_cases hhere : name = here
      · rw [if_pos hhere, hhere, visit_here]
        exact ih hstack hnext
      by_cases hup : name = up
      · rw [if_neg hhere, if_pos hup, hup, visit_up here_ne_up, back_keptOf hstack]
        exact ih (fun n hn => hstack n (List.mem_of_mem_tail hn)) hnext
      · rw [if_neg hhere, if_neg hup, visit_proper ⟨hhere, hup⟩, stripDot_append keptOf_head]
        have hplain : Plain (name :: stack) := by
          intro n hn
          rcases List.mem_cons.mp hn with rfl | hn
          · exact hname
          · exact hstack n hn
        exact ih hplain hnext

end Wine.Paths
