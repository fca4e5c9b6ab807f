import Wine.Windows.Update

/-!
# What repeated calls enumerate

Each call finds the first window to be painted behind the one handed in, in the depth first order of
the subtree, so that repeated calls go through all of them.
-/

namespace Wine.Windows
open Wine.Lib

namespace WindowTree

variable {t : WindowTree} {win w c p : WindowPtr} {flags : Flags}

/-! ## Visibility -/

theorem isVisible_of_parent (h : t.parent w = some p) :
    t.isVisible w = true ↔ t.Visible w ∧ ¬ t.Minimized p ∧ t.isVisible p = true := by
  unfold isVisible
  rw [isVisibleTo, h, t.depth_parent w p h]
  by_cases hv : t.Visible w <;> by_cases hm : t.Minimized p <;> simp [hv, hm]

theorem isVisible_of_child (h : c ∈ t.children w) :
    t.isVisible c = true ↔ t.Visible c ∧ ¬ t.Minimized w ∧ t.isVisible w = true :=
  isVisible_of_parent (t.parent_of_mem w c h)

theorem isVisible_root (hc : c ∈ t.preorder w) (hvis : t.isVisible c = true) :
    t.isVisible w = true := by
  induction w using t.child_induction with
  | _ w ih =>
    rcases Forest.mem_preorder.mp hc with rfl | ⟨b, hb, hcb⟩
    · exact hvis
    · exact ((isVisible_of_child hb).mp (ih b hb hcb)).2.2

/-! ## The windows to be painted -/

/-- A window to be painted. -/
def due (t : WindowTree) (flags : Flags) (w : WindowPtr) : Bool :=
  t.isVisible w && decide (t.getUpdateFlags w flags ≠ 0)

def firstDue (t : WindowTree) (flags : Flags) (l : List WindowPtr) : Found :=
  (l.find? (t.due flags)).map fun w => (w, t.getUpdateFlags w flags)

theorem firstDue_append (l l' : List WindowPtr) :
    t.firstDue flags (l ++ l') = (t.firstDue flags l).or (t.firstDue flags l') := by
  unfold firstDue
  rw [List.find?_append]
  cases l.find? (t.due flags) <;> rfl

theorem firstDue_nil : t.firstDue flags [] = none := rfl

theorem firstDue_invisible (hvis : t.isVisible w = false) :
    t.firstDue flags (t.preorder w) = none := by
  unfold firstDue
  rw [Option.map_eq_none_iff, List.find?_eq_none]
  intro c hc hdue
  simp only [due, Bool.and_eq_true] at hdue
  rw [isVisible_root hc hdue.1] at hvis
  cases hvis

theorem firstDue_below_minimized (hmin : t.Minimized w) :
    t.firstDue flags (t.below w) = none := by
  unfold firstDue
  rw [Option.map_eq_none_iff, List.find?_eq_none]
  intro c hc hdue
  simp only [due, Bool.and_eq_true] at hdue
  obtain ⟨b, hb, hcb⟩ := Forest.mem_below.mp hc
  exact ((isVisible_of_child hb).mp (isVisible_root hcb hdue.1)).2.1 hmin

theorem childLoop_skip (flags : Flags) (descend : WindowPtr → Found) (c : WindowPtr)
    (l : List WindowPtr) :
    t.childLoop flags descend (some c) l =
      t.childLoop flags descend none (l.dropWhile (· ≠ c)).tail := by
  induction l with
  | nil => rfl
  | cons a l ih =>
    by_cases hac : a = c
    · simp [childLoop, hac]
    · simp [childLoop, hac, ih]

theorem childLoop_congr {f g : WindowPtr → Found} (skip : Option WindowPtr) (l : List WindowPtr)
    (h : ∀ c ∈ l, f c = g c) : t.childLoop flags f skip l = t.childLoop flags g skip l := by
  induction l generalizing skip with
  | nil => cases skip <;> rfl
  | cons a l ih =>
    have htail : ∀ s, t.childLoop flags f s l = t.childLoop flags g s l :=
      fun s => ih s fun c hc => h c (List.mem_cons_of_mem _ hc)
    cases skip with
    | none => simp only [childLoop, htail, h a List.mem_cons_self]
    | some c => simp only [childLoop, htail]

theorem getChildUpdateFlags_eq (hall : Has flags updateAllchildren) (w : WindowPtr)
    (fromChild : Option WindowPtr) :
    t.getChildUpdateFlags w fromChild flags = if t.Minimized w then none
      else t.childLoop flags (fun c => t.getChildUpdateFlags c none flags) fromChild
        (t.children w) := by
  obtain ⟨n, hn⟩ := Nat.exists_eq_succ_of_ne_zero (Nat.ne_of_gt (t.room_pos w))
  unfold getChildUpdateFlags
  rw [hn, getChildUpdateFlagsTo]
  simp only [hall, not_true_eq_false, false_and, if_false]
  congr 1
  apply childLoop_congr
  intro c hc
  have hroom := Forest.room_child hc
  rw [show t.room c = n by omega]

theorem childLoop_eq_firstDue {descend : WindowPtr → Found} (hvis : t.isVisible w = true)
    (hmin : ¬ t.Minimized w) (l : List WindowPtr) (hl : ∀ c ∈ l, c ∈ t.children w)
    (hdescend : ∀ c ∈ l, t.isVisible c = true → descend c = t.firstDue flags (t.below c)) :
    t.childLoop flags descend none l = t.firstDue flags (l.flatMap t.preorder) := by
  induction l with
  | nil => rfl
  | cons c l ih =>
    have hrest := ih (fun b hb => hl b (List.mem_cons_of_mem _ hb))
      (fun b hb => hdescend b (List.mem_cons_of_mem _ hb))
    have hvisible := isVisible_of_child (hl c List.mem_cons_self)
    rw [List.flatMap_cons, firstDue_append, childLoop, hrest]
    by_cases hv : t.Visible c
    · have hc : t.isVisible c = true := hvisible.mpr ⟨hv, hmin, hvis⟩
      rw [Forest.preorder_eq, ← List.singleton_append, firstDue_append,
        hdescend c List.mem_cons_self hc]
      by_cases hflags : t.getUpdateFlags c flags = 0
      · have hself : t.firstDue flags [c] = none := by simp [firstDue, due, hflags]
        simp only [hv, hflags, hself, not_true_eq_false, ne_eq, if_false, Option.none_or]
        cases t.firstDue flags (t.below c) <;> rfl
      · have hself : t.firstDue flags [c] = some (c, t.getUpdateFlags c flags) := by
          have hdue : t.due flags c = true := by
            simp only [due, hc, Bool.true_and, decide_eq_true_eq]
            exact hflags
          simp [firstDue, hdue]
        simp only [hv, hflags, hself, not_true_eq_false, not_false_eq_true, ne_eq, if_false,
          if_true, Option.some_or]
    · have hc : t.isVisible c = false := by
        rw [← Bool.not_eq_true, hvisible]
        exact fun h => hv h.1
      simp only [hv, not_false_eq_true, if_true, firstDue_invisible hc, Option.none_or]

theorem getChildUpdateFlags_none (hall : Has flags updateAllchildren) (hvis : t.isVisible w = true) :
    t.getChildUpdateFlags w none flags = t.firstDue flags (t.below w) := by
  induction w using t.child_induction with
  | _ w ih =>
    rw [getChildUpdateFlags_eq hall]
    by_cases hmin : t.Minimized w
    · rw [if_pos hmin, firstDue_below_minimized hmin]
    · rw [if_neg hmin]
      exact childLoop_eq_firstDue hvis hmin _ (fun _ h => h) ih

theorem getChildUpdateFlags_some (hall : Has flags updateAllchildren) (hvis : t.isVisible w = true)
    (hmin : ¬ t.Minimized w) (c : WindowPtr) :
    t.getChildUpdateFlags w (some c) flags =
      t.firstDue flags ((t.laterSiblings w c).flatMap t.preorder) := by
  rw [getChildUpdateFlags_eq hall, if_neg hmin, childLoop_skip]
  have hsub : ∀ b ∈ t.laterSiblings w c, b ∈ t.children w := fun b hb =>
    (List.dropWhile_sublist _).subset (List.mem_of_mem_tail hb)
  exact childLoop_eq_firstDue hvis hmin _ hsub fun b _ hb => getChildUpdateFlags_none hall hb

theorem climb_eq (hall : Has flags updateAllchildren) (hc : c ∈ t.preorder win)
    (hvis : t.isVisible c = true) :
    t.climb win flags (t.depth c + 1) c = t.firstDue flags (t.after win c) := by
  generalize hn : t.depth c = n
  induction n generalizing c with
  | zero =>
    obtain rfl := Forest.eq_root_of_depth_le hc (by omega)
    rw [climb, Forest.after_self, firstDue_nil]
    split <;> simp
  | succ n ih =>
    by_cases hcw : c = win
    · subst hcw
      rw [climb, Forest.after_self, firstDue_nil]
      split <;> simp
    · obtain ⟨p, hp, hcp⟩ := Forest.parent_mem hc hcw
      have hd := t.depth_parent c p (t.parent_of_mem p c hcp)
      obtain ⟨-, hmin, hvisp⟩ := (isVisible_of_child hcp).mp hvis
      rw [climb, t.parent_of_mem p c hcp, Forest.after_child hcp hcw, firstDue_append,
        ← getChildUpdateFlags_some hall hvisp hmin]
      simp only [hcw, if_false, ih hp hvisp (show t.depth p = n by omega)]
      cases t.getChildUpdateFlags p (some c) flags <;> rfl

/-- A window that stands under no other and is not visible itself. -/
def Bare (t : WindowTree) (win : WindowPtr) : Prop := t.parent win = none ∧ ¬ t.Visible win

instance (t : WindowTree) (win : WindowPtr) : Decidable (t.Bare win) := by
  unfold Bare
  infer_instance

theorem hiddenFrom_of_parent (hw : t.parent w = some p) (hvis : t.isVisible w = true)
    (hmin : ¬ t.Minimized w) : t.hiddenFrom w = false := by
  have hv := ((isVisible_of_parent hw).mp hvis).1
  simp [hiddenFrom, hv, hmin]

theorem lastUp_hiddenFrom (hc : c ∈ t.preorder win) (hvis : t.isVisible c = true)
    (hmin : ¬ t.Minimized c) (mark : Option WindowPtr) :
    t.lastUp t.hiddenFrom win (t.depth c + 1) c mark = if t.Bare win then some win else mark := by
  have hself : t.isVisible win = true → ¬ t.Minimized win →
      (t.hiddenFrom win = true ↔ t.Bare win) := by
    intro hvisw hminw
    cases hp : t.parent win with
    | none => simp [hiddenFrom, Bare, hp, hminw]
    | some p => simp [hiddenFrom_of_parent hp hvisw hminw, Bare, hp]
  generalize hn : t.depth c = n
  induction n generalizing c with
  | zero =>
    obtain rfl := Forest.eq_root_of_depth_le hc (by omega)
    simp only [lastUp, hself hvis hmin, if_true]
  | succ n ih =>
    by_cases hcw : c = win
    · subst hcw
      simp only [lastUp, hself hvis hmin, if_true]
    · obtain ⟨p, hp, hcp⟩ := Forest.parent_mem hc hcw
      have hparent := t.parent_of_mem p c hcp
      have hd := t.depth_parent c p hparent
      obtain ⟨-, hminp, hvisp⟩ := (isVisible_of_child hcp).mp hvis
      rw [lastUp, hiddenFrom_of_parent hparent hvis hmin]
      simp only [hcw, Bool.false_eq_true, if_false, hparent]
      exact ih hp hvisp hminp (by omega)

/-- Where the next window is looked for: behind `win` itself if that is bare, behind `c` if that is
minimized, or else from the children of `c` on. -/
theorem lastUp_from (hc : c ∈ t.preorder win) (hvis : t.isVisible c = true) :
    t.lastUp t.hiddenFrom win (t.depth c + 1) c none =
      if t.Bare win then some win else if t.Minimized c then some c else none := by
  by_cases hmin : t.Minimized c
  · have hhidden : t.hiddenFrom c = true := by simp [hiddenFrom, hmin]
    by_cases hcw : c = win
    · subst hcw
      simp only [lastUp, hhidden, hmin, if_true, ite_self]
    · obtain ⟨p, hp, hcp⟩ := Forest.parent_mem hc hcw
      have hparent := t.parent_of_mem p c hcp
      obtain ⟨-, hminp, hvisp⟩ := (isVisible_of_child hcp).mp hvis
      rw [lastUp, hhidden]
      simp only [hcw, if_true, if_false, hparent, hmin]
      rw [t.depth_parent c p hparent]
      exact lastUp_hiddenFrom hp hvisp hminp _
  · rw [lastUp_hiddenFrom hc hvis hmin]
    simp only [hmin, if_false]

/-- Non-client painting alone is delayed while a parent is to be repainted over the window. -/
def Paints (flags : Flags) : Prop :=
  Has flags updateNonclient → Has flags (updatePaint ||| updateInternalpaint)

instance (flags : Flags) : Decidable (Paints flags) := by unfold Paints; infer_instance

theorem getWindowUpdateFlags_invisible (hvis : t.isVisible win = false)
    (fromChild : Option WindowPtr) : t.getWindowUpdateFlags win fromChild flags = none := by
  simp [getWindowUpdateFlags, hvis]

theorem not_delayed (hpaint : Paints flags) :
    ¬ (Has flags updateNonclient ∧ ¬ Has flags (updatePaint ||| updateInternalpaint)) :=
  fun h => h.2 (hpaint h.1)

theorem getWindowUpdateFlags_none (hall : Has flags updateAllchildren)
    (hno : ¬ Has flags updateNochildren) (hpaint : Paints flags) :
    t.getWindowUpdateFlags win none flags = t.firstDue flags (t.preorder win) := by
  cases hvis : t.isVisible win with
  | false => rw [getWindowUpdateFlags_invisible hvis, firstDue_invisible hvis]
  | true =>
    have hclimb : t.climb win flags (t.depth win + 1) win = none := by
      rw [climb_eq hall Forest.mem_preorder_self hvis, Forest.after_self, firstDue_nil]
    rw [Forest.preorder_eq, ← List.singleton_append, firstDue_append]
    unfold getWindowUpdateFlags
    simp only [hvis, not_true_eq_false, if_false, not_delayed hpaint, false_and, Option.bind_none,
      true_and, hno, Option.getD_none, getChildUpdateFlags_none hall hvis, hclimb]
    by_cases hflags : t.getUpdateFlags win flags = 0
    · have hself : t.firstDue flags [win] = none := by simp [firstDue, due, hflags]
      simp only [hflags, hself, ne_eq, not_true_eq_false, if_false, Option.none_or]
      cases t.firstDue flags (t.below win) <;> rfl
    · have hdue : t.due flags win = true := by
        simp only [due, hvis, Bool.true_and, decide_eq_true_eq]
        exact hflags
      have hself : t.firstDue flags [win] = some (win, t.getUpdateFlags win flags) := by
        simp [firstDue, hdue]
      simp only [hflags, hself, ne_eq, not_false_eq_true, if_true, Option.some_or]

theorem getWindowUpdateFlags_some (hall : Has flags updateAllchildren)
    (hno : ¬ Has flags updateNochildren) (hpaint : Paints flags) (hc : c ∈ t.preorder win)
    (hvis : t.isVisible c = true) :
    t.getWindowUpdateFlags win (some c) flags =
      if t.Bare win then none else t.firstDue flags (t.below c ++ t.after win c) := by
  have hwin := isVisible_root hc hvis
  have hclimb : t.climb win flags (t.depth c + 1) c = _ := climb_eq hall hc hvis
  unfold getWindowUpdateFlags
  simp only [hwin, not_true_eq_false, if_false, not_delayed hpaint, false_and, Option.bind_some,
    reduceCtorEq, hno, Option.getD_some, lastUp_from hc hvis]
  by_cases hbare : t.Bare win
  · simp only [hbare, if_true, climb, hbare.1]
  · rw [firstDue_append]
    by_cases hmin : t.Minimized c
    · simp only [hbare, hmin, if_true, if_false, hclimb, firstDue_below_minimized hmin,
        Option.none_or]
    · simp only [hbare, hmin, if_false, hclimb, getChildUpdateFlags_none hall hvis]
      cases t.firstDue flags (t.below c) <;> rfl

/-! ## All calls -/

/-- The windows to be painted, depth first in Z-order. -/
def allDue (t : WindowTree) (win : WindowPtr) (flags : Flags) : List WindowPtr :=
  (t.preorder win).filter (t.due flags)

def answer (t : WindowTree) (flags : Flags) (w : WindowPtr) : WindowPtr × Flags :=
  (w, t.getUpdateFlags w flags)

/-- The calls return each window to be painted once, one after the other, and then 0. -/
def Complete (t : WindowTree) (win : WindowPtr) (flags : Flags) : Prop :=
  (t.allDue win flags).Nodup ∧
    ∀ n, t.calls win flags n none = ((t.allDue win flags).map (t.answer flags)).take n

theorem nodup_allDue : (t.allDue win flags).Nodup := (t.nodup_preorder win).filter _

theorem firstDue_eq_head (l : List WindowPtr) :
    t.firstDue flags l = ((l.filter (t.due flags)).map (t.answer flags)).head? := by
  rw [List.head?_map, List.head?_filter]
  rfl

theorem filter_of_find?_eq_some {l m m' : List WindowPtr} {p : WindowPtr → Bool}
    (hl : l = m ++ c :: m') (hc : p c = true) (hm : ∀ a ∈ m, (!p a) = true) :
    l.filter p = c :: m'.filter p := by
  have hnil : m.filter p = [] := by
    rw [List.filter_eq_nil_iff]
    simpa using hm
  rw [hl, List.filter_append, hnil, List.filter_cons_of_pos hc, List.nil_append]

/-- A call that finds the first window to be painted in `l` is followed by calls that find the
others, if a call from each of them goes on behind it. -/
theorem calls_found {l : List WindowPtr} {fromChild : Option WindowPtr}
    (hcall : t.getWindowUpdateFlags win fromChild flags = t.firstDue flags l) (n : ℕ)
    (hnext : ∀ c m m', l = m ++ c :: m' → t.due flags c = true →
      t.calls win flags n (some c) = ((m'.filter (t.due flags)).map (t.answer flags)).take n) :
    t.calls win flags (n + 1) fromChild =
      ((l.filter (t.due flags)).map (t.answer flags)).take (n + 1) := by
  rw [calls, hcall]
  unfold firstDue
  cases hfind : l.find? (t.due flags) with
  | none =>
    have hnil : l.filter (t.due flags) = [] := by
      rw [List.filter_eq_nil_iff]
      exact List.find?_eq_none.mp hfind
    rw [hnil]
    rfl
  | some c =>
    obtain ⟨hdue, m, m', hl, hm⟩ := List.find?_eq_some_iff_append.mp hfind
    rw [filter_of_find?_eq_some hl hdue hm, List.map_cons, List.take_succ_cons,
      ← hnext c m m' hl hdue]
    rfl

theorem isVisible_of_due (h : t.due flags c = true) : t.isVisible c = true := by
  simp only [due, Bool.and_eq_true] at h
  exact h.1

theorem calls_some (hall : Has flags updateAllchildren) (hno : ¬ Has flags updateNochildren)
    (hpaint : Paints flags) (hbare : ¬ t.Bare win) (n : ℕ) {l l' : List WindowPtr}
    (hsplit : t.preorder win = l ++ c :: l') (hvis : t.isVisible c = true) :
    t.calls win flags n (some c) = ((l'.filter (t.due flags)).map (t.answer flags)).take n := by
  induction n generalizing c l l' with
  | zero => rw [calls, List.take_zero]
  | succ n ih =>
    have hc : c ∈ t.preorder win := by
      rw [hsplit]
      exact List.mem_append_cons_self
    apply calls_found
    · rw [getWindowUpdateFlags_some hall hno hpaint hc hvis, if_neg hbare,
        ← Forest.eq_of_preorder_split hsplit]
    · intro d m m' hm hdue
      apply ih (l := l ++ c :: m)
      · rw [hsplit, hm, List.append_assoc, List.cons_append]
      · exact isVisible_of_due hdue

theorem calls_eq (hall : Has flags updateAllchildren) (hno : ¬ Has flags updateNochildren)
    (hpaint : Paints flags) (hbare : ¬ t.Bare win) (n : ℕ) :
    t.calls win flags n none = ((t.allDue win flags).map (t.answer flags)).take n := by
  cases n with
  | zero => rw [calls, List.take_zero]
  | succ n =>
    apply calls_found (getWindowUpdateFlags_none hall hno hpaint)
    intro c m m' hm hdue
    exact calls_some hall hno hpaint hbare n hm (isVisible_of_due hdue)

theorem calls_bare (hall : Has flags updateAllchildren) (hno : ¬ Has flags updateNochildren)
    (hpaint : Paints flags) (hbare : t.Bare win) (n : ℕ) :
    t.calls win flags (n + 1) none = ((t.allDue win flags).map (t.answer flags)).take 1 := by
  rw [calls, getWindowUpdateFlags_none hall hno hpaint, firstDue_eq_head]
  unfold allDue
  cases hl : (t.preorder win).filter (t.due flags) with
  | nil => rfl
  | cons c l =>
    have hmem : c ∈ (t.preorder win).filter (t.due flags) := by
      rw [hl]
      exact List.mem_cons_self
    obtain ⟨hc, hdue⟩ := List.mem_filter.mp hmem
    have hnone : t.calls win flags n (some c) = [] := by
      cases n with
      | zero => rfl
      | succ n =>
        rw [calls, getWindowUpdateFlags_some hall hno hpaint hc (isVisible_of_due hdue),
          if_pos hbare]
    simp only [List.map_cons, List.head?_cons, answer, hnone, List.take_succ_cons, List.take_zero]

theorem complete_iff (hall : Has flags updateAllchildren) (hno : ¬ Has flags updateNochildren)
    (hpaint : Paints flags) :
    t.Complete win flags ↔ ¬ t.Bare win ∨ (t.allDue win flags).length ≤ 1 := by
  by_cases hbare : t.Bare win
  · simp only [hbare, not_true_eq_false, false_or]
    constructor
    · rintro ⟨-, h⟩
      have htwo := congrArg List.length (h (1 + 1))
      rw [calls_bare hall hno hpaint hbare] at htwo
      simp only [List.length_take, List.length_map] at htwo
      omega
    · intro hle
      refine ⟨nodup_allDue, fun n => ?_⟩
      cases n with
      | zero => rfl
      | succ n =>
        rw [calls_bare hall hno hpaint hbare, List.take_of_length_le, List.take_of_length_le] <;>
          rw [List.length_map] <;> omega
  · simp only [hbare, not_false_eq_true, true_or, iff_true]
    exact ⟨nodup_allDue, calls_eq hall hno hpaint hbare⟩

/-- A desktop window with two visible windows, both to be painted. -/
def sampleTree (rootStyle : Flags) : WindowTree where
  parent w := if w = 2 ∨ w = 3 then some 1 else none
  children w := if w = 1 then [2, 3] else []
  depth w := if w = 2 ∨ w = 3 then 1 else 0
  height := 2
  parent_of_mem a c h := by
    split at h
    · simp_all
    · cases h
  nodup a := by split <;> simp
  depth_parent c a h := by
    split at h
    · cases h
      simp_all
    · cases h
  depth_lt a := by split <;> omega
  style w := if w = 1 then rootStyle else wsVisible
  updateRegion w := decide (w = 2 ∨ w = 3)
  paintFlags _ := 0

def paintAll : Flags := updateAllchildren ||| updatePaint

theorem complete_iff_sample : Has paintAll updateAllchildren ∧ ¬ Has paintAll updateNochildren ∧
    Paints paintAll ∧ (sampleTree wsVisible).Complete 1 paintAll :=
  ⟨by decide, by decide, by decide, (complete_iff (by decide) (by decide) (by decide)).mpr
    (Or.inl (by decide))⟩

/-- Below a desktop window without the style `WS_VISIBLE` only the first window is found. -/
theorem not_complete_bare : ¬ (sampleTree 0).Complete 1 paintAll := by
  intro h
  have htwo := h.2 2
  revert htwo
  decide +kernel

end WindowTree

end Wine.Windows
