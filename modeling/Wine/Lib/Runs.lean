import Mathlib.Data.List.Basic

/-!
# Runs of a step function that may fault

`Run step ok s as s'` holds when the actions `as`, taken one after the other from `s`, all succeed,
all meet the guard `ok` in the state they are taken in, and lead to `s'`. `execTo` computes whether
there is such a run. `Run.invariant` is the induction that every safety result uses.
-/

namespace Wine.Lib

variable {σ α ε : Type} {step : σ → α → Except ε σ} {ok ok' : σ → α → Prop}

inductive Run (step : σ → α → Except ε σ) (ok : σ → α → Prop) (s : σ) : List α → σ → Prop
  | nil : Run step ok s [] s
  | snoc {as : List α} {a : α} {t t' : σ} :
      Run step ok s as t → ok t a → step t a = .ok t' → Run step ok s (as ++ [a]) t'

/-- What holds at the start and is kept by every guarded step holds after every run. -/
theorem Run.invariant {I : σ → Prop} {s s' : σ} {as : List α} (hr : Run step ok s as s') (hs : I s)
    (hstep : ∀ t a t', I t → ok t a → step t a = .ok t' → I t') : I s' := by
  induction hr with
  | nil => exact hs
  | snoc _ hok hst ih => exact hstep _ _ _ ih hok hst

theorem Run.mono {s s' : σ} {as : List α} (hr : Run step ok s as s')
    (h : ∀ t a, ok t a → ok' t a) : Run step ok' s as s' := by
  induction hr with
  | nil => exact .nil
  | snoc _ hok hst ih => exact .snoc ih (h _ _ hok) hst

/-- A guard may use what the steps before it have kept. -/
theorem Run.mono_of_invariant {I : σ → Prop} {s s' : σ} {as : List α} (hr : Run step ok s as s')
    (hs : I s) (hstep : ∀ t a t', I t → ok t a → step t a = .ok t' → I t')
    (h : ∀ t a, I t → ok t a → ok' t a) : Run step ok' s as s' := by
  induction hr with
  | nil => exact .nil
  | snoc hr hok hst ih => exact .snoc ih (h _ _ (hr.invariant hs hstep) hok) hst

theorem Run.trans {s s' s'' : σ} {as bs : List α} (h : Run step ok s as s')
    (h' : Run step ok s' bs s'') : Run step ok s (as ++ bs) s'' := by
  induction h' with
  | nil => simpa only [List.append_nil] using h
  | snoc _ hok hst ih => simpa only [List.append_assoc] using Run.snoc ih hok hst

theorem Run.single {s s' : σ} {a : α} (hok : ok s a) (hst : step s a = .ok s') :
    Run step ok s [a] s' := Run.snoc .nil hok hst

/-- `as` can be taken one after the other from a state, without a fault and with each action passing
the test `g`, to a state that passes `p`. -/
def execTo (step : σ → α → Except ε σ) (g : σ → α → Bool) (p : σ → Bool) : σ → List α → Bool
  | s, [] => p s
  | s, a :: as => g s a && match step s a with
    | .ok s' => execTo step g p s' as
    | .error _ => false

theorem run_of_execTo {f : σ → α → Except ε σ} {q : σ → α → Prop} {g : σ → α → Bool}
    {p : σ → Bool} {s : σ} {l : List α} (hg : ∀ t a, g t a = true → q t a)
    (h : execTo f g p s l = true) : ∃ s', Run f q s l s' ∧ p s' = true := by
  induction l generalizing s with
  | nil => exact ⟨s, .nil, h⟩
  | cons a l ih =>
    simp only [execTo, Bool.and_eq_true] at h
    cases hst : f s a with
    | error e => simp [hst] at h
    | ok t =>
      simp only [hst] at h
      obtain ⟨s', hr, hp⟩ := ih h.2
      exact ⟨s', Run.trans (Run.single (hg s a h.1) hst) hr, hp⟩

end Wine.Lib
