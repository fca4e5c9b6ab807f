import Mathlib.Data.List.Basic

/-!
# Weakest preconditions of computations that may fault

A computation reads and writes a state and either returns a value or stops with a fault. `wp m Q E s`
says that `m`, started in `s`, ends in a value and a state satisfying `Q` or in a fault satisfying
`E`. The `simp` set of this module pushes `wp` through the constructors of the monad, so that what
remains of a straight-line body is a statement about the functions it calls.
-/

namespace Wine.Lib

variable {σ ε α β : Type}

/-- State passing with faults. -/
abbrev Exec (σ ε : Type) := StateT σ (Except ε)

def wp (m : Exec σ ε α) (Q : α → σ → Prop) (E : ε → Prop) (s : σ) : Prop :=
  match m s with
  | .ok (a, s') => Q a s'
  | .error e => E e

theorem wp_of_ok {m : Exec σ ε α} {Q : α → σ → Prop} {E : ε → Prop} {s s' : σ} {a : α}
    (h : wp m Q E s) (hm : m s = .ok (a, s')) : Q a s' := by
  simpa only [wp, hm] using h

theorem wp_of_error {m : Exec σ ε α} {Q : α → σ → Prop} {E : ε → Prop} {s : σ} {e : ε}
    (h : wp m Q E s) (hm : m s = .error e) : E e := by
  simpa only [wp, hm] using h

theorem eq_of_wp {m : Exec σ ε α} {a : α} {s s' : σ}
    (h : wp m (fun b t => b = a ∧ t = s') (fun _ => False) s) : m s = .ok (a, s') := by
  unfold wp at h
  cases hm : m s with
  | ok r =>
    rw [hm] at h
    rw [← h.1, ← h.2]
  | error e =>
    rw [hm] at h
    exact h.elim

theorem wp_iff {m : Exec σ ε α} {Q : α → σ → Prop} {E : ε → Prop} {s : σ} :
    wp m Q E s ↔ (∀ a s', m s = .ok (a, s') → Q a s') ∧ ∀ e, m s = .error e → E e := by
  constructor
  · exact fun h => ⟨fun a s' => wp_of_ok h, fun e => wp_of_error h⟩
  · rintro ⟨hq, he⟩
    unfold wp
    cases hm : m s with
    | ok r => exact hq r.1 r.2 hm
    | error e => exact he e hm

theorem wp_mono {m : Exec σ ε α} {Q Q' : α → σ → Prop} {E : ε → Prop} {s : σ}
    (h : wp m Q E s) (hq : ∀ a s', Q a s' → Q' a s') : wp m Q' E s :=
  wp_iff.mpr ⟨fun a s' hm => hq a s' (wp_of_ok h hm), fun _ hm => wp_of_error h hm⟩

/-- `wp_mono` with the outcome itself at hand. -/
theorem wp_mono_ok {m : Exec σ ε α} {Q Q' : α → σ → Prop} {E : ε → Prop} {s : σ}
    (h : wp m Q E s) (hq : ∀ a s', m s = .ok (a, s') → Q a s' → Q' a s') : wp m Q' E s :=
  wp_iff.mpr ⟨fun a s' hm => hq a s' hm (wp_of_ok h hm), fun _ hm => wp_of_error h hm⟩

theorem wp_mono_error {m : Exec σ ε α} {Q : α → σ → Prop} {E E' : ε → Prop} {s : σ}
    (h : wp m Q E s) (he : ∀ e, E e → E' e) : wp m Q E' s :=
  wp_iff.mpr ⟨fun _ _ hm => wp_of_ok h hm, fun e hm => he e (wp_of_error h hm)⟩

theorem wp_and {m : Exec σ ε α} {Q Q' : α → σ → Prop} {E E' : ε → Prop} {s : σ}
    (h : wp m Q E s) (h' : wp m Q' E' s) : wp m (fun a s' => Q a s' ∧ Q' a s') E s :=
  wp_iff.mpr ⟨fun _ _ hm => ⟨wp_of_ok h hm, wp_of_ok h' hm⟩, fun _ hm => wp_of_error h hm⟩

@[simp] theorem wp_pure (a : α) (Q : α → σ → Prop) (E : ε → Prop) (s : σ) :
    wp (pure a : Exec σ ε α) Q E s ↔ Q a s := Iff.rfl

@[simp] theorem wp_bind (m : Exec σ ε α) (f : α → Exec σ ε β) (Q : β → σ → Prop) (E : ε → Prop)
    (s : σ) : wp (m >>= f) Q E s ↔ wp m (fun a s' => wp (f a) Q E s') E s := by
  have hb : (m >>= f) s = (m s >>= fun r => f r.1 r.2) := rfl
  simp only [wp, hb]
  cases m s <;> rfl

@[simp] theorem wp_map (m : Exec σ ε α) (f : α → β) (Q : β → σ → Prop) (E : ε → Prop) (s : σ) :
    wp (f <$> m) Q E s ↔ wp m (fun a s' => Q (f a) s') E s := by
  rw [map_eq_pure_bind]
  simp only [wp_bind, wp_pure]

@[simp] theorem wp_get (Q : σ → σ → Prop) (E : ε → Prop) (s : σ) :
    wp (get : Exec σ ε σ) Q E s ↔ Q s s := Iff.rfl

@[simp] theorem wp_set (t : σ) (Q : PUnit → σ → Prop) (E : ε → Prop) (s : σ) :
    wp (set t : Exec σ ε PUnit) Q E s ↔ Q ⟨⟩ t := Iff.rfl

@[simp] theorem wp_modify (f : σ → σ) (Q : PUnit → σ → Prop) (E : ε → Prop) (s : σ) :
    wp (modify f : Exec σ ε PUnit) Q E s ↔ Q ⟨⟩ (f s) := Iff.rfl

@[simp] theorem wp_throw (e : ε) (Q : α → σ → Prop) (E : ε → Prop) (s : σ) :
    wp (throw e : Exec σ ε α) Q E s ↔ E e := Iff.rfl

theorem wp_ite (c : Prop) [Decidable c] (m n : Exec σ ε α) (Q : α → σ → Prop) (E : ε → Prop)
    (s : σ) : wp (if c then m else n) Q E s ↔ (c → wp m Q E s) ∧ (¬ c → wp n Q E s) := by
  by_cases h : c <;> simp only [h, if_true, if_false, true_implies, false_implies, not_true_eq_false,
    not_false_eq_true, and_true, true_and]

/-- A loop over a list keeps what each round keeps. -/
theorem wp_forM {I : σ → Prop} {E : ε → Prop} {f : α → Exec σ ε PUnit} {l : List α}
    (hf : ∀ a ∈ l, ∀ s, I s → wp (f a) (fun _ => I) E s) {s : σ} (hs : I s) :
    wp (forM l f) (fun _ => I) E s := by
  induction l generalizing s with
  | nil => simpa only [List.forM_nil, wp_pure] using hs
  | cons a l ih =>
    simp only [List.forM_cons, wp_bind]
    refine wp_mono (hf a (List.mem_cons_self) s hs) (fun _ s' hs' => ?_)
    exact ih (fun b hb => hf b (List.mem_cons_of_mem _ hb)) hs'

/-- A loop over a list that knows what is left of it. -/
theorem wp_forM_rest {I : List α → σ → Prop} {E : ε → Prop} {f : α → Exec σ ε PUnit} {l : List α}
    (hf : ∀ a l s, I (a :: l) s → wp (f a) (fun _ => I l) E s) {s : σ} (hs : I l s) :
    wp (forM l f) (fun _ => I []) E s := by
  induction l generalizing s with
  | nil => simpa only [List.forM_nil, wp_pure] using hs
  | cons a l ih =>
    simp only [List.forM_cons, wp_bind]
    exact wp_mono (hf a l s hs) fun _ s' hs' => ih hs'

end Wine.Lib

/-!
## Invariants of computations

`Keeps I m` says that `m` keeps the invariant `I` from every state that has it, unless it faults. The
rules follow the constructors of the monad.
-/

namespace Wine.Lib

variable {σ ε α β : Type} {I : σ → Prop}

def Keeps (I : σ → Prop) (m : Exec σ ε α) : Prop :=
  ∀ s, I s → wp m (fun _ s' => I s') (fun _ => True) s

namespace Keeps

theorem pure (a : α) : Keeps I (Pure.pure a : Exec σ ε α) := fun _ h => h

theorem throw (e : ε) : Keeps I (throw e : Exec σ ε α) := fun _ _ => trivial

theorem bind {m : Exec σ ε α} {f : α → Exec σ ε β} (hm : Keeps I m) (hf : ∀ a, Keeps I (f a)) :
    Keeps I (m >>= f) := by
  intro s hs
  rw [wp_bind]
  exact wp_mono (hm s hs) fun a s' hs' => hf a s' hs'

/-- What `m` ensures beside the invariant can be used in what follows. -/
theorem bind_of {m : Exec σ ε α} {f : α → Exec σ ε β} {P : α → Prop}
    (hm : ∀ s, I s → wp m (fun a s' => I s' ∧ P a) (fun _ => True) s)
    (hf : ∀ a, P a → Keeps I (f a)) : Keeps I (m >>= f) := by
  intro s hs
  rw [wp_bind]
  exact wp_mono (hm s hs) fun a s' hs' => hf a hs'.2 s' hs'.1

theorem map {m : Exec σ ε α} (f : α → β) (hm : Keeps I m) : Keeps I (f <$> m) := by
  intro s hs
  rw [wp_map]
  exact hm s hs

theorem get : Keeps I (get : Exec σ ε σ) := fun _ h => h

theorem modify {f : σ → σ} (hf : ∀ s, I s → I (f s)) : Keeps I (modify f : Exec σ ε PUnit) :=
  fun s hs => hf s hs

theorem ite {c : Prop} [Decidable c] {m n : Exec σ ε α} (hm : c → Keeps I m)
    (hn : ¬ c → Keeps I n) : Keeps I (if c then m else n) := by
  by_cases h : c
  · rw [if_pos h]
    exact hm h
  · rw [if_neg h]
    exact hn h

theorem forM {f : α → Exec σ ε PUnit} {l : List α} (hf : ∀ a ∈ l, Keeps I (f a)) :
    Keeps I (forM l f) :=
  fun _ hs => wp_forM (fun a ha s hs => hf a ha s hs) hs

theorem ok {m : Exec σ ε α} (hm : Keeps I m) {s s' : σ} {a : α} (hs : I s)
    (h : m s = .ok (a, s')) : I s' :=
  wp_of_ok (hm s hs) h

end Keeps

/-- `m` keeps `I` and faults only as `E` allows. -/
def Secures (I : σ → Prop) (E : ε → Prop) (m : Exec σ ε α) : Prop :=
  ∀ s, I s → wp m (fun _ s' => I s') E s

namespace Secures

variable {E : ε → Prop}

theorem pure (a : α) : Secures I E (Pure.pure a : Exec σ ε α) := fun _ h => h

theorem throw {e : ε} (he : E e) : Secures I E (throw e : Exec σ ε α) := fun _ _ => he

theorem bind {m : Exec σ ε α} {f : α → Exec σ ε β} (hm : Secures I E m)
    (hf : ∀ a, Secures I E (f a)) : Secures I E (m >>= f) := by
  intro s hs
  rw [wp_bind]
  exact wp_mono (hm s hs) fun a s' hs' => hf a s' hs'

theorem map {m : Exec σ ε α} (f : α → β) (hm : Secures I E m) : Secures I E (f <$> m) := by
  intro s hs
  rw [wp_map]
  exact hm s hs

theorem modify {f : σ → σ} (hf : ∀ s, I s → I (f s)) :
    Secures I E (modify f : Exec σ ε PUnit) :=
  fun s hs => hf s hs

theorem ite {c : Prop} [Decidable c] {m n : Exec σ ε α} (hm : c → Secures I E m)
    (hn : ¬ c → Secures I E n) : Secures I E (if c then m else n) := by
  by_cases h : c
  · rw [if_pos h]
    exact hm h
  · rw [if_neg h]
    exact hn h

end Secures

end Wine.Lib
