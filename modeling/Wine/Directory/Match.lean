import Mathlib.Data.List.Chain
import Mathlib.Data.List.TakeWhile
import Wine.Casemap

/-!
# Matching a file name against a mask

The loop keeps the mask behind the last `*` and the place in the name where the next try starts. A `*`
takes a sequence, a `?` one character, and dots and `*`s that are left of the mask match the end of
the name.
-/

namespace Wine.Directory

def star : WChar := 0x2a#16

def question : WChar := 0x3f#16

def dot : WChar := 0x2e#16

/-- `lastjoker` and `next_to_retry` -/
structure Joker where
  mask : List WChar
  retry : List WChar

section Model

variable (fold : WChar → WChar)

/-- The loop; `fold` is what characters are compared by. -/
def matchLoop : ℕ → List WChar → List WChar → Option Joker → Option Bool
  | _, [], mask, _ => some (mask.dropWhile fun c => c = dot ∨ c = star).isEmpty
  | _, _ :: _, [], _ => some false
  | 0, _ :: _, _ :: _, _ => none
  | n + 1, c :: name, m :: mask, joker =>
    if m = star then
      match mask.dropWhile (· = star) with
      | [] => some true
      | j :: rest =>
        let name := (c :: name).dropWhile fun d => fold d ≠ fold j
        matchLoop n name (j :: rest) (some ⟨j :: rest, name⟩)
    else if m = question then matchLoop n name mask joker
    else if fold m = fold c then
      if mask = [] ∧ name = [] then some true
      else if mask = [] then
        match joker with
        | some joker => matchLoop n name joker.mask (some joker)
        | none => matchLoop n name mask none
      else matchLoop n name mask joker
    else
      match joker with
      | some joker => matchLoop n joker.retry.tail joker.mask (some ⟨joker.mask, joker.retry.tail⟩)
      | none => some false

/-- A mask character other than `*` and a character of the name. -/
def Accepts (m c : WChar) : Prop := m = question ∨ fold m = fold c

/-- The whole mask matches the whole name. -/
def Matches : List WChar → List WChar → Prop
  | [], name => name = []
  | m :: mask, name =>
    if m = star then ∃ front back, name = front ++ back ∧ Matches mask back
    else ∃ c rest, name = c :: rest ∧ Accepts fold m c ∧ Matches mask rest

/-- Only dots and `*`s. -/
def Trails (mask : List WChar) : Prop := ∀ c ∈ mask, c = dot ∨ c = star

instance (mask : List WChar) : Decidable (Trails mask) := by
  unfold Trails
  infer_instance

/-- The mask without some dots and `*`s at its end matches the name. -/
def MaskMatches (mask name : List WChar) : Prop :=
  ∃ front back, mask = front ++ back ∧ Trails back ∧ Matches fold front name

/-- The mask matches an end of the name. -/
def Later (mask name : List WChar) : Prop := ∃ name', name' <:+ name ∧ MaskMatches fold mask name'

/-- With enough rounds the loop returns, and it returns `TRUE` exactly when `P` holds. -/
def Decides (name mask : List WChar) (joker : Option Joker) (P : Prop) : Prop :=
  ∃ b n, (∀ k, n ≤ k → matchLoop fold k name mask joker = some b) ∧ (b = true ↔ P)

end Model

/-- What characters are compared by. -/
def caseFold (isCaseSensitive : Bool) (c : WChar) : WChar :=
  if isCaseSensitive then c else wineCaseMap.toupperW c

/-- `match_filename` -/
def matchFilename (isCaseSensitive : Bool) (fuel : ℕ) (name mask : List WChar) : Option Bool :=
  matchLoop (caseFold isCaseSensitive) fuel name mask none

variable {fold : WChar → WChar} {name name' mask rest S x : List WChar} {m c j : WChar}
  {joker : Option Joker} {J : Joker} {P Q : Prop}

/-! ## What is to be matched -/

theorem matches_nil : Matches fold mask [] ↔ ∀ c ∈ mask, c = star := by
  induction mask with
  | nil => exact iff_of_true rfl fun c hc => absurd hc List.not_mem_nil
  | cons m mask ih =>
    rw [Matches, List.forall_mem_cons]
    split
    · next hm =>
      rw [and_iff_right hm, ← ih]
      constructor
      · rintro ⟨front, back, heq, h⟩
        rw [(List.append_eq_nil_iff.mp heq.symm).2] at h
        exact h
      · exact fun h => ⟨[], [], rfl, h⟩
    · next hm => exact iff_of_false (fun ⟨_, _, heq, _⟩ => nomatch heq) fun h => hm h.1

theorem maskMatches_name_nil : MaskMatches fold mask [] ↔ Trails mask := by
  constructor
  · rintro ⟨front, back, rfl, hback, hfront⟩ c hc
    rcases List.mem_append.mp hc with hc | hc
    · exact Or.inr (matches_nil.mp hfront c hc)
    · exact hback c hc
  · exact fun h => ⟨[], mask, rfl, h, rfl⟩

theorem maskMatches_nil : MaskMatches fold [] name ↔ name = [] := by
  constructor
  · rintro ⟨front, back, heq, -, h⟩
    rw [(List.append_eq_nil_iff.mp heq.symm).1] at h
    exact h
  · exact fun h => ⟨[], [], rfl, fun c hc => absurd hc List.not_mem_nil, h⟩

theorem maskMatches_cons (hm : m ≠ star) :
    MaskMatches fold (m :: mask) (c :: name) ↔ Accepts fold m c ∧ MaskMatches fold mask name := by
  constructor
  · rintro ⟨front, back, heq, hback, h⟩
    cases front with
    | nil => exact nomatch h
    | cons l front =>
      obtain ⟨rfl, rfl⟩ := List.cons.inj heq
      rw [Matches, if_neg hm] at h
      obtain ⟨d, rest, hd, haccepts, h⟩ := h
      obtain ⟨rfl, rfl⟩ := List.cons.inj hd
      exact ⟨haccepts, front, back, rfl, hback, h⟩
  · rintro ⟨haccepts, front, back, rfl, hback, h⟩
    refine ⟨m :: front, back, rfl, hback, ?_⟩
    rw [Matches, if_neg hm]
    exact ⟨c, name, rfl, haccepts, h⟩

theorem maskMatches_star : MaskMatches fold (star :: mask) name ↔ Later fold mask name := by
  constructor
  · rintro ⟨front, back, heq, hback, h⟩
    cases front with
    | nil =>
      obtain rfl := h
      rw [List.nil_append] at heq
      refine ⟨[], List.suffix_refl [], maskMatches_name_nil.mpr fun c hc => hback c ?_⟩
      exact heq ▸ List.mem_cons_of_mem _ hc
    | cons l front =>
      obtain ⟨rfl, rfl⟩ := List.cons.inj heq
      rw [Matches, if_pos rfl] at h
      obtain ⟨start, name', rfl, h⟩ := h
      exact ⟨name', List.suffix_append start name', front, back, rfl, hback, h⟩
  · rintro ⟨name', ⟨start, rfl⟩, front, back, rfl, hback, h⟩
    refine ⟨star :: front, back, rfl, hback, ?_⟩
    rw [Matches, if_pos rfl]
    exact ⟨start, name', rfl, h⟩

theorem later_nil : Later fold mask [] ↔ Trails mask := by
  constructor
  · rintro ⟨name', hsuffix, h⟩
    rw [List.suffix_nil.mp hsuffix] at h
    exact maskMatches_name_nil.mp h
  · exact fun h => ⟨[], List.suffix_refl [], maskMatches_name_nil.mpr h⟩

theorem later_cons : Later fold mask (c :: name) ↔
    MaskMatches fold mask (c :: name) ∨ Later fold mask name := by
  constructor
  · rintro ⟨name', hsuffix, h⟩
    rcases List.suffix_cons_iff.mp hsuffix with rfl | hsuffix
    · exact Or.inl h
    · exact Or.inr ⟨name', hsuffix, h⟩
  · rintro (h | ⟨name', hsuffix, h⟩)
    · exact ⟨c :: name, List.suffix_refl _, h⟩
    · exact ⟨name', hsuffix.trans (List.suffix_cons c name), h⟩

theorem Later.mono (h : Later fold mask name') (hsuffix : name' <:+ name) : Later fold mask name := by
  obtain ⟨name'', hsuffix', h⟩ := h
  exact ⟨name'', hsuffix'.trans hsuffix, h⟩

theorem later_star : Later fold (star :: mask) name ↔ Later fold mask name := by
  constructor
  · rintro ⟨name', hsuffix, h⟩
    exact (maskMatches_star.mp h).mono hsuffix
  · exact fun h => ⟨name, List.suffix_refl name, maskMatches_star.mpr h⟩

/-- Several `*`s are one. -/
theorem later_dropWhile : Later fold (mask.dropWhile (· = star)) name ↔ Later fold mask name := by
  induction mask with
  | nil => exact Iff.rfl
  | cons m mask ih =>
    rw [List.dropWhile_cons]
    split
    · next hm => rw [ih, of_decide_eq_true hm, later_star]
    · exact Iff.rfl

/-- The name may be searched for the first character behind a `*`. -/
theorem later_dropWhile_name (hstar : j ≠ star) (hquestion : j ≠ question) :
    Later fold (j :: rest) (name.dropWhile fun d => fold d ≠ fold j) ↔
      Later fold (j :: rest) name := by
  induction name with
  | nil => exact Iff.rfl
  | cons c name ih =>
    rw [List.dropWhile_cons]
    split
    · next hc =>
      rw [ih, later_cons, or_iff_right]
      intro h
      rcases ((maskMatches_cons hstar).mp h).1 with h | h
      · exact hquestion h
      · exact of_decide_eq_true hc h.symm
    · exact Iff.rfl

/-! ## What a round does -/

theorem matchLoop_cons (k : ℕ) : matchLoop fold (k + 1) (c :: name) (m :: mask) joker =
    if m = star then
      match mask.dropWhile (· = star) with
      | [] => some true
      | j :: rest =>
        matchLoop fold k ((c :: name).dropWhile fun d => fold d ≠ fold j) (j :: rest)
          (some ⟨j :: rest, (c :: name).dropWhile fun d => fold d ≠ fold j⟩)
    else if m = question then matchLoop fold k name mask joker
    else if fold m = fold c then
      if mask = [] ∧ name = [] then some true
      else if mask = [] then
        match joker with
        | some joker => matchLoop fold k name joker.mask (some joker)
        | none => matchLoop fold k name mask none
      else matchLoop fold k name mask joker
    else
      match joker with
      | some joker =>
        matchLoop fold k joker.retry.tail joker.mask (some ⟨joker.mask, joker.retry.tail⟩)
      | none => some false := rfl

theorem Decides.congr (h : Decides fold name mask joker P) (hpq : P ↔ Q) :
    Decides fold name mask joker Q := by
  obtain ⟨b, n, hn, hb⟩ := h
  exact ⟨b, n, hn, hb.trans hpq⟩

theorem Decides.unique (h : Decides fold name mask joker P) (h' : Decides fold name mask joker Q) :
    P ↔ Q := by
  obtain ⟨b, n, hn, hb⟩ := h
  obtain ⟨b', n', hn', hb'⟩ := h'
  have heq := (hn (n + n') (by omega)).symm.trans (hn' (n + n') (by omega))
  obtain rfl := Option.some.inj heq
  exact hb.symm.trans hb'

/-- One round more. -/
theorem Decides.step {name₂ mask₂ : List WChar} {joker₂ : Option Joker}
    (h : Decides fold name₂ mask₂ joker₂ P)
    (hstep : ∀ k, matchLoop fold (k + 1) name mask joker = matchLoop fold k name₂ mask₂ joker₂) :
    Decides fold name mask joker P := by
  obtain ⟨b, n, hn, hb⟩ := h
  refine ⟨b, n + 1, fun k hk => ?_, hb⟩
  cases k with
  | zero => exact absurd hk (Nat.not_succ_le_zero n)
  | succ k => rw [hstep, hn k (Nat.le_of_succ_le_succ hk)]

theorem decides_of_eq {b : Bool} (h : ∀ k, matchLoop fold (k + 1) name mask joker = some b)
    (hb : b = true ↔ P) : Decides fold name mask joker P := by
  refine ⟨b, 1, fun k hk => ?_, hb⟩
  cases k with
  | zero => exact absurd hk (Nat.not_succ_le_zero 0)
  | succ k => exact h k

theorem decides_nil : Decides fold [] mask joker (Trails mask) := by
  refine decides_of_eq (fun k => by rw [matchLoop]) ?_
  rw [List.isEmpty_iff, List.dropWhile_eq_nil_iff]
  simp only [decide_eq_true_eq]
  exact Iff.rfl

theorem decides_mask_nil : Decides fold (c :: name) [] joker False :=
  decides_of_eq (fun k => by rw [matchLoop]) (iff_of_false Bool.false_ne_true id)

theorem decides_star_nil (h : mask.dropWhile (· = star) = []) :
    Decides fold (c :: name) (star :: mask) joker True := by
  refine decides_of_eq (b := true) (fun k => ?_) (iff_of_true rfl trivial)
  rw [matchLoop_cons, if_pos rfl, h]

theorem decides_star (hmask : mask.dropWhile (· = star) = j :: rest)
    (h : Decides fold ((c :: name).dropWhile fun d => fold d ≠ fold j) (j :: rest)
      (some ⟨j :: rest, (c :: name).dropWhile fun d => fold d ≠ fold j⟩) P) :
    Decides fold (c :: name) (star :: mask) joker P :=
  h.step fun k => by rw [matchLoop_cons, if_pos rfl, hmask]

theorem decides_accept (hm : m ≠ star) (haccepts : Accepts fold m c) (hmask : mask ≠ [])
    (h : Decides fold name mask joker P) : Decides fold (c :: name) (m :: mask) joker P := by
  refine h.step fun k => ?_
  rw [matchLoop_cons, if_neg hm]
  by_cases hq : m = question
  · rw [if_pos hq]
  · rw [if_neg hq, if_pos (haccepts.resolve_left hq), if_neg fun h => hmask h.1, if_neg hmask]

theorem decides_question_last (h : Decides fold name [] joker P) :
    Decides fold (c :: name) [question] joker P :=
  h.step fun k => by rw [matchLoop_cons, if_neg (by decide), if_pos rfl]

section Literal

variable (hm : m ≠ star) (hq : m ≠ question)
include hm hq

theorem decides_last (haccepts : Accepts fold m c) : Decides fold [c] [m] joker True := by
  refine decides_of_eq (b := true) (fun k => ?_) (iff_of_true rfl trivial)
  rw [matchLoop_cons, if_neg hm, if_neg hq, if_pos (haccepts.resolve_left hq), if_pos ⟨rfl, rfl⟩]

theorem decides_last_none (haccepts : Accepts fold m c) (hname : name ≠ []) :
    Decides fold (c :: name) [m] none False := by
  obtain ⟨d, name, rfl⟩ := List.exists_cons_of_ne_nil hname
  have hend : Decides fold (d :: name) [] none False := decides_mask_nil
  refine hend.step fun k => ?_
  rw [matchLoop_cons, if_neg hm, if_neg hq, if_pos (haccepts.resolve_left hq), if_neg fun h => hname h.2,
    if_pos rfl]

/-- At the end of the mask the loop goes on behind the last `*`. -/
theorem decides_last_some (haccepts : Accepts fold m c) (hname : name ≠ [])
    (h : Decides fold name J.mask (some J) P) : Decides fold (c :: name) [m] (some J) P := by
  refine h.step fun k => ?_
  rw [matchLoop_cons, if_neg hm, if_neg hq, if_pos (haccepts.resolve_left hq), if_neg fun h => hname h.2,
    if_pos rfl]

end Literal

theorem decides_mismatch_none (hm : m ≠ star) (h : ¬Accepts fold m c) :
    Decides fold (c :: name) (m :: mask) none False := by
  refine decides_of_eq (b := false) (fun k => ?_) (iff_of_false Bool.false_ne_true id)
  rw [matchLoop_cons, if_neg hm, if_neg fun hq => h (Or.inl hq), if_neg fun hf => h (Or.inr hf)]

theorem decides_mismatch_some (hm : m ≠ star) (h : ¬Accepts fold m c)
    (hretry : Decides fold J.retry.tail J.mask (some ⟨J.mask, J.retry.tail⟩) P) :
    Decides fold (c :: name) (m :: mask) (some J) P := by
  refine hretry.step fun k => ?_
  rw [matchLoop_cons, if_neg hm, if_neg fun hq => h (Or.inl hq), if_neg fun hf => h (Or.inr hf)]

end Wine.Directory
