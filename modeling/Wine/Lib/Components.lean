import Mathlib.Data.List.Induction

/-!
# Resolving relative components

The components of a path go on a stack, one that stands for the current level is left out and one that
stands for the level above takes the top of the stack off. A component is still there in the end when no
part of what follows it goes up more often than down.
-/

namespace Wine.Lib.Components

variable {α : Type*} [DecidableEq α]

section Model

variable (here up : α)

/-- The stack, its top first, after one component. -/
def visit (stack : List α) (name : α) : List α :=
  if name = here then stack else if name = up then stack.tail else name :: stack

def Proper (name : α) : Prop := name ≠ here ∧ name ≠ up

instance (name : α) : Decidable (Proper here up name) := by
  unfold Proper
  infer_instance

def ups (names : List α) : ℕ := names.count up

def downs (names : List α) : ℕ := names.countP fun name => Proper here up name

/-- With `behind` after it a component stays, and at least `k` components of `behind` do. -/
def Stays (k : ℕ) (behind : List α) : Prop :=
  (∀ front, front <+: behind → ups up front ≤ downs here up front) ∧
    ups up behind + k ≤ downs here up behind

end Model

variable {here up name x : α} {names front behind stack : List α} {k : ℕ}

theorem visit_here : visit here up stack here = stack := if_pos rfl

theorem visit_up (hne : here ≠ up) : visit here up stack up = stack.tail := by
  rw [visit, if_neg hne.symm, if_pos rfl]

theorem visit_proper (h : Proper here up name) : visit here up stack name = name :: stack := by
  rw [visit, if_neg h.1, if_neg h.2]

/-- What is on the stack was there or is one of the names. -/
theorem mem_foldl_visit (h : x ∈ names.foldl (visit here up) stack) :
    x ∈ stack ∨ x ∈ names ∧ Proper here up x := by
  induction names generalizing stack with
  | nil => exact Or.inl h
  | cons name names ih =>
    rw [List.foldl_cons] at h
    rcases ih h with hstack | ⟨hmem, hx⟩
    · rw [visit] at hstack
      split at hstack
      · exact Or.inl hstack
      · next hhere =>
        split at hstack
        · exact Or.inl (List.mem_of_mem_tail hstack)
        · next hup =>
          rcases List.mem_cons.mp hstack with rfl | hstack
          · exact Or.inr ⟨List.mem_cons_self, hhere, hup⟩
          · exact Or.inl hstack
    · exact Or.inr ⟨List.mem_cons_of_mem _ hmem, hx⟩

theorem ups_concat : ups up (names ++ [name]) = ups up names + if name = up then 1 else 0 := by
  rw [ups, List.count_append, List.count_singleton, ups]
  simp only [beq_iff_eq]

theorem downs_concat : downs here up (names ++ [name]) =
    downs here up names + if Proper here up name then 1 else 0 := by
  rw [downs, List.countP_append, List.countP_singleton, downs]
  simp only [decide_eq_true_eq]

/-- One more component behind. -/
theorem stays_concat : Stays here up k (behind ++ [name]) ↔
    Stays here up 0 behind ∧ ups up (behind ++ [name]) + k ≤ downs here up (behind ++ [name]) := by
  constructor
  · rintro ⟨hfront, hk⟩
    refine ⟨⟨fun front hpre => hfront front (hpre.trans (List.prefix_append _ _)), ?_⟩, hk⟩
    exact hfront behind (List.prefix_append _ _)
  · rintro ⟨⟨hfront, -⟩, hk⟩
    refine ⟨fun front hpre => ?_, hk⟩
    rcases List.prefix_concat_iff.mp hpre with rfl | hpre
    · omega
    · exact hfront front hpre

theorem stays_nil : Stays here up k [] ↔ k = 0 := by
  constructor
  · rintro ⟨-, hk⟩
    exact Nat.le_zero.mp (by simpa [ups, downs] using hk)
  · rintro rfl
    refine ⟨fun front hpre => ?_, Nat.le_refl 0⟩
    rw [List.prefix_nil.mp hpre]
    exact Nat.le_refl 0

theorem stays_mono {j : ℕ} (hjk : j ≤ k) (h : Stays here up k behind) : Stays here up j behind :=
  ⟨h.1, Nat.le_trans (Nat.add_le_add_left hjk _) h.2⟩

/-- A component is on the stack below its top `k` components exactly when it stays and they do. -/
theorem mem_drop_visit_iff (hne : here ≠ up) (hx : Proper here up x) :
    x ∈ (names.foldl (visit here up) []).drop k ↔
      ∃ before behind, names = before ++ x :: behind ∧ Stays here up k behind := by
  induction names using List.reverseRecOn generalizing k with
  | nil =>
    refine iff_of_false ?_ ?_
    · rw [List.foldl_nil, List.drop_nil]
      exact List.not_mem_nil
    · rintro ⟨before, behind, h, -⟩
      exact List.append_ne_nil_of_right_ne_nil before (List.cons_ne_nil x behind) h.symm
  | append_singleton names name ih =>
    have hsplit : (∃ before behind, names ++ [name] = before ++ x :: behind ∧ Stays here up k behind) ↔
        (x = name ∧ k = 0) ∨ ∃ before behind, names = before ++ x :: behind ∧
          Stays here up k (behind ++ [name]) := by
      constructor
      · rintro ⟨before, behind, h, hstays⟩
        rcases List.eq_nil_or_concat behind with rfl | ⟨behind, last, rfl⟩
        · obtain ⟨-, hlast⟩ := List.append_inj' h rfl
          exact Or.inl ⟨(List.cons.inj hlast).1.symm, stays_nil.mp hstays⟩
        · rw [List.concat_eq_append, ← List.cons_append, ← List.append_assoc] at h
          obtain ⟨hnames, hlast⟩ := List.append_inj' h rfl
          rw [List.concat_eq_append, ← (List.cons.inj hlast).1] at hstays
          exact Or.inr ⟨before, behind, hnames, hstays⟩
      · rintro (⟨rfl, rfl⟩ | ⟨before, behind, rfl, hstays⟩)
        · exact ⟨names, [], rfl, stays_nil.mpr rfl⟩
        · refine ⟨before, behind ++ [name], ?_, hstays⟩
          rw [List.append_assoc, List.cons_append]
    rw [hsplit, List.foldl_append, List.foldl_cons, List.foldl_nil]
    by_cases hhere : name = here
    · subst hhere
      have hcount : ∀ behind : List α, Stays name up k (behind ++ [name]) ↔ Stays name up k behind := by
        intro behind
        rw [stays_concat, ups_concat, downs_concat, if_neg hne, if_neg fun h => h.1 rfl]
        exact ⟨fun h => ⟨h.1.1, h.2⟩, fun h => ⟨stays_mono (Nat.zero_le k) h, h.2⟩⟩
      rw [visit_here, ih, or_iff_right fun h => hx.1 h.1]
      simp only [hcount]
    by_cases hup : name = up
    · subst hup
      have hcount : ∀ behind : List α,
          Stays here name k (behind ++ [name]) ↔ Stays here name (k + 1) behind := by
        intro behind
        rw [stays_concat, ups_concat, downs_concat, if_pos rfl, if_neg fun h => h.2 rfl]
        constructor
        · exact fun h => ⟨h.1.1, by omega⟩
        · exact fun h => ⟨stays_mono (Nat.zero_le _) h, by have hk := h.2; omega⟩
      rw [visit_up hne, List.drop_tail, ih, or_iff_right fun h => hx.2 h.1]
      simp only [hcount]
    · have hproper : Proper here up name := ⟨hhere, hup⟩
      rw [visit_proper hproper]
      cases k with
      | zero =>
        have hcount : ∀ behind : List α, Stays here up 0 (behind ++ [name]) ↔ Stays here up 0 behind := by
          intro behind
          rw [stays_concat, ups_concat, downs_concat, if_neg hup, if_pos hproper]
          exact ⟨fun h => h.1, fun h => ⟨h, by have hk := h.2; omega⟩⟩
        rw [List.drop_zero, List.mem_cons, ← List.drop_zero (l := names.foldl _ _), ih]
        simp only [and_true, hcount]
      | succ k =>
        have hcount : ∀ behind : List α,
            Stays here up (k + 1) (behind ++ [name]) ↔ Stays here up k behind := by
          intro behind
          rw [stays_concat, ups_concat, downs_concat, if_neg hup, if_pos hproper]
          constructor
          · exact fun h => ⟨h.1.1, by have hk := h.2; omega⟩
          · exact fun h => ⟨stays_mono (Nat.zero_le _) h, by have hk := h.2; omega⟩
        rw [List.drop_succ_cons, ih, or_iff_right fun h => absurd h.2 (Nat.succ_ne_zero k)]
        simp only [hcount]

end Wine.Lib.Components
