import Wine.Directory.LastPart

/-!
# When matching is complete

Up to the last `*` the first place for each part of the mask is as good as any other. The matches that
are missed are those of masks with a `?` behind a `*`, and of masks whose last part ends in `?` or
clashes with its own repetition.
-/

namespace Wine.Directory

section Model

variable (fold : WChar → WChar)

/-- No `?` follows a `*`. -/
abbrev Apart (m m' : WChar) : Prop := m = star → m' ≠ question

/-- No `?` follows a `*`, and what follows the last `*` does not end in `?` and does not clash. -/
structure Complete (mask : List WChar) : Prop where
  apart : mask.IsChain Apart
  last : ∀ front F, mask = front ++ star :: F → star ∉ F → F ≠ [] →
    F.getLast? ≠ some question ∧ ¬Clash fold F

end Model

variable {fold : WChar → WChar} {name name' mask rest M S F x T : List WChar} {m c j : WChar}
  {joker : Option Joker} {P Q : Prop}

theorem Complete.append (front : List WChar) (h : Complete fold (front ++ mask)) :
    Complete fold mask := by
  refine ⟨h.apart.suffix (List.suffix_append front mask), fun front' F heq => ?_⟩
  refine h.last (front ++ front') F ?_
  rw [heq, List.append_assoc]

/-- The part of a mask before the next `*`, and what it was compared to. -/
structure Fits (fold : WChar → WChar) (S x : List WChar) : Prop where
  plain : star ∉ S
  accepts : List.Forall₂ (Accepts fold) S x

theorem Fits.nil : Fits fold [] [] := ⟨List.not_mem_nil, List.Forall₂.nil⟩

theorem Fits.concat (h : Fits fold S x) (hm : m ≠ star) (hc : Accepts fold m c) :
    Fits fold (S ++ [m]) (x ++ [c]) := by
  refine ⟨fun hmem => ?_, List.rel_append h.accepts (List.Forall₂.cons hc List.Forall₂.nil)⟩
  rcases List.mem_append.mp hmem with hmem | hmem
  · exact h.plain hmem
  · exact hm (List.mem_singleton.mp hmem).symm

theorem Fits.maskMatches (h : Fits fold S x) :
    MaskMatches fold (S ++ mask) (x ++ name) ↔ MaskMatches fold mask name := by
  obtain ⟨hplain, haccepts⟩ := h
  induction haccepts with
  | nil => exact Iff.rfl
  | cons hc _ ih =>
    have hm : ¬_ = star := fun heq => hplain (heq ▸ List.mem_cons_self)
    rw [List.cons_append, List.cons_append, maskMatches_cons hm, and_iff_right hc]
    exact ih fun hmem => hplain (List.mem_cons_of_mem _ hmem)

theorem Trails.append_right (h : Trails (S ++ mask)) : Trails mask := fun c hc =>
  h c (List.mem_append_right S hc)

/-- A name that is not longer than the part leaves only the end of the mask. -/
theorem trails_of_maskMatches (hS : star ∉ S) (hlen : name.length ≤ S.length)
    (h : MaskMatches fold (S ++ mask) name) : Trails mask := by
  induction S generalizing name with
  | nil =>
    rw [List.length_eq_zero_iff.mp (Nat.le_zero.mp hlen)] at h
    exact maskMatches_name_nil.mp h
  | cons m S ih =>
    have hm : m ≠ star := fun heq => hS (heq ▸ List.mem_cons_self)
    cases name with
    | nil => exact (maskMatches_name_nil.mp h).append_right
    | cons c name =>
      rw [List.cons_append, maskMatches_cons hm] at h
      exact ih (fun hmem => hS (List.mem_cons_of_mem _ hmem)) (Nat.le_of_succ_le_succ hlen) h.2

/-- What follows the part is matched later than the part. -/
theorem later_of_maskMatches (hS : star ∉ S) (h : MaskMatches fold (S ++ star :: mask) name) :
    Later fold mask (name.drop S.length) := by
  induction S generalizing name with
  | nil => exact maskMatches_star.mp h
  | cons m S ih =>
    have hm : m ≠ star := fun heq => hS (heq ▸ List.mem_cons_self)
    cases name with
    | nil =>
      rw [List.drop_nil, later_nil]
      have htrails : Trails ((m :: S ++ [star]) ++ mask) := by
        rw [List.append_assoc]
        exact maskMatches_name_nil.mp h
      exact htrails.append_right
    | cons c name =>
      rw [List.cons_append, maskMatches_cons hm] at h
      exact ih (fun hmem => hS (List.mem_cons_of_mem _ hmem)) h.2

theorem suffix_drop {n : ℕ} (h : name' <:+ name) : name'.drop n <:+ name.drop n := by
  obtain ⟨start, rfl⟩ := h
  rcases Nat.le_total n start.length with hle | hle
  · rw [List.drop_append_of_le_length hle]
    exact (List.drop_suffix n name').trans (List.suffix_append _ _)
  · rw [List.drop_append, List.drop_eq_nil_iff.mpr hle, List.nil_append]
    have hsplit : name'.drop n = (name'.drop (n - start.length)).drop start.length := by
      rw [List.drop_drop]
      congr 1
      omega
    rw [hsplit]
    exact List.drop_suffix _ _

section Middle

variable {retry : List WChar}

/-- A part of the mask before a `*`: its first place is taken. -/
theorem middle_decides (hstar : star ∈ mask)
    (hbehind : ∀ S R name, M = S ++ star :: R → name ≠ [] →
      Decides fold name (star :: R) (some ⟨M, retry⟩) (Later fold R name))
    (hretry : ∀ c rest, retry = c :: rest →
      Decides fold rest M (some ⟨M, rest⟩) (Later fold M rest))
    (hM : M = S ++ mask) (hname : retry = x ++ name) (hfits : Fits fold S x) :
    Decides fold name mask (some ⟨M, retry⟩) (Later fold M retry) := by
  have hlen : x.length = S.length := hfits.accepts.length_eq.symm
  induction mask generalizing S x name with
  | nil => exact absurd hstar List.not_mem_nil
  | cons m mask ih =>
    cases name with
    | nil =>
      refine decides_nil.congr ?_
      rw [hname, hM, List.append_nil]
      constructor
      · intro h
        refine ⟨x, List.suffix_refl x, ?_⟩
        have hmatch : MaskMatches fold (S ++ m :: mask) (x ++ []) :=
          hfits.maskMatches.mpr (maskMatches_name_nil.mpr h)
        rwa [List.append_nil] at hmatch
      · rintro ⟨name', hsuffix, h⟩
        exact trails_of_maskMatches hfits.plain (hlen ▸ hsuffix.length_le) h
    | cons c name =>
      by_cases hm : m = star
      · rw [hm] at hM ⊢
        refine (hbehind S mask (c :: name) hM (List.cons_ne_nil c name)).congr ?_
        rw [hname, hM]
        constructor
        · intro h
          exact ⟨_, List.suffix_refl _, hfits.maskMatches.mpr (maskMatches_star.mpr h)⟩
        · rintro ⟨name', hsuffix, h⟩
          have hlater := later_of_maskMatches hfits.plain h
          refine hlater.mono ?_
          have hdrop := suffix_drop (n := S.length) hsuffix
          rwa [List.drop_left' hlen] at hdrop
      · have hmem : star ∈ mask := (List.mem_cons.mp hstar).resolve_left fun heq => hm heq.symm
        by_cases hc : Accepts fold m c
        · refine decides_accept hm hc (List.ne_nil_of_mem hmem) ?_
          refine ih hmem ?_ ?_ (hfits.concat hm hc) ?_
          · rw [hM, List.append_assoc, List.singleton_append]
          · rw [hname, List.append_assoc, List.singleton_append]
          · rw [List.length_append, List.length_append, hlen]
            rfl
        · have hnot : ¬MaskMatches fold M retry := by
            rw [hname, hM, hfits.maskMatches, maskMatches_cons hm]
            exact fun h => hc h.1
          have hnonempty : retry ≠ [] := by
            rw [hname]
            exact List.append_ne_nil_of_right_ne_nil x (List.cons_ne_nil c name)
          obtain ⟨d, rest, hrest⟩ := List.exists_cons_of_ne_nil hnonempty
          refine decides_mismatch_some hm hc ?_
          rw [hrest] at hnot ⊢
          refine (hretry d rest hrest).congr ?_
          rw [later_cons, or_iff_right hnot]

end Middle

/-- Behind a `*` and those that follow it another character comes. -/
theorem exists_behind_star (hmask : mask.dropWhile (· = star) = j :: rest) :
    j ≠ star ∧ (j :: rest).length ≤ mask.length ∧
      ∃ front, star :: mask = front ++ star :: j :: rest := by
  induction mask with
  | nil => exact nomatch hmask
  | cons m mask ih =>
    rw [List.dropWhile_cons] at hmask
    split at hmask
    · next hm =>
      obtain ⟨hj, hlen, front, hfront⟩ := ih hmask
      refine ⟨hj, Nat.le_succ_of_le hlen, star :: front, ?_⟩
      rw [of_decide_eq_true hm, hfront, List.cons_append]
    · next hm =>
      obtain ⟨rfl, rfl⟩ := List.cons.inj hmask
      exact ⟨fun heq => hm (decide_eq_true heq), Nat.le_refl _, [], rfl⟩

theorem ne_question_behind_star (h : (star :: mask).IsChain Apart)
    (hmask : mask.dropWhile (· = star) = j :: rest) : j ≠ question := by
  obtain ⟨-, -, front, hfront⟩ := exists_behind_star hmask
  rw [hfront] at h
  have hlast := h.suffix (List.suffix_append front (star :: j :: rest))
  exact (List.isChain_cons_cons.mp hlast).1 rfl

theorem star_decides (h : Complete fold (star :: mask))
    (hscan : ∀ j rest, (j :: rest).length ≤ mask.length → Complete fold (star :: j :: rest) →
      j ≠ star → j ≠ question → ∀ name,
        Decides fold name (j :: rest) (some ⟨j :: rest, name⟩) (Later fold (j :: rest) name)) :
    Decides fold (c :: name) (star :: mask) joker (Later fold mask (c :: name)) := by
  cases hmask : mask.dropWhile (· = star) with
  | nil =>
    refine (decides_star_nil hmask).congr (iff_of_true trivial ?_)
    rw [← later_dropWhile, hmask]
    exact ⟨[], List.nil_suffix, maskMatches_nil.mpr rfl⟩
  | cons j rest =>
    obtain ⟨hj, hlen, front, hfront⟩ := exists_behind_star hmask
    have hq := ne_question_behind_star h.apart hmask
    rw [hfront] at h
    have hcomplete := Complete.append front h
    refine (decides_star hmask (hscan j rest hlen hcomplete hj hq _)).congr ?_
    rw [later_dropWhile_name hj hq, ← hmask, later_dropWhile]

/-- Behind a `*` the loop finds the first place from which the rest of the mask matches. -/
theorem scan_decides (n : ℕ) (hn : (j :: rest).length ≤ n) (h : Complete fold (star :: j :: rest))
    (hj : j ≠ star) (hq : j ≠ question) (name : List WChar) :
    Decides fold name (j :: rest) (some ⟨j :: rest, name⟩) (Later fold (j :: rest) name) := by
  induction n generalizing j rest name with
  | zero => exact absurd hn (Nat.not_succ_le_zero _)
  | succ n ih =>
    by_cases hstar : star ∈ j :: rest
    · have hbehind : ∀ (retry S R name : List WChar), j :: rest = S ++ star :: R → name ≠ [] →
          Decides fold name (star :: R) (some ⟨j :: rest, retry⟩) (Later fold R name) := by
        intro retry S R name heq hname
        obtain ⟨c, name, rfl⟩ := List.exists_cons_of_ne_nil hname
        have hR : Complete fold (star :: R) := by
          rw [heq] at h
          exact Complete.append (star :: S) h
        have hlen := congrArg List.length heq
        rw [List.length_append, List.length_cons, List.length_cons] at hlen
        rw [List.length_cons] at hn
        exact star_decides hR fun j rest hle hcomplete hj hq name =>
          ih (by omega) hcomplete hj hq name
      induction name with
      | nil =>
        exact middle_decides hstar (hbehind []) (fun c rest heq => nomatch heq)
          (List.nil_append _).symm rfl Fits.nil
      | cons c name ihname =>
        refine middle_decides hstar (hbehind (c :: name)) (fun d rest' heq => ?_)
          (List.nil_append _).symm rfl Fits.nil
        obtain ⟨rfl, rfl⟩ := List.cons.inj heq
        exact ihname
    · obtain ⟨hlast, hclash⟩ := h.last [] (j :: rest) rfl hstar (List.cons_ne_nil j rest)
      refine (last_decides hstar (List.cons_ne_nil j rest) hlast name).congr ?_
      exact ⟨later_of_lastResult hstar, lastResult_of_later hstar (List.cons_ne_nil j rest) hclash⟩

/-- For a complete mask the loop finds every match. -/
theorem decides_of_complete (h : Complete fold mask) (name : List WChar) :
    Decides fold name mask none (MaskMatches fold mask name) := by
  induction mask generalizing name with
  | nil =>
    cases name with
    | nil => exact decides_nil.congr maskMatches_name_nil.symm
    | cons c name =>
      exact decides_mask_nil.congr (iff_of_false id fun h => nomatch maskMatches_nil.mp h)
  | cons m mask ih =>
    cases name with
    | nil => exact decides_nil.congr maskMatches_name_nil.symm
    | cons c name =>
      by_cases hm : m = star
      · rw [hm] at h ⊢
        refine (star_decides h fun j rest _ hcomplete hj hq name => ?_).congr maskMatches_star.symm
        exact scan_decides _ (Nat.le_refl _) hcomplete hj hq name
      by_cases hc : Accepts fold m c
      · have hiff : MaskMatches fold (m :: mask) (c :: name) ↔ MaskMatches fold mask name :=
          (maskMatches_cons hm).trans (and_iff_right hc)
        have hgo := ih (Complete.append [m] h) name
        by_cases hmask : mask = []
        · rw [hmask] at hgo hiff ⊢
          by_cases hq : m = question
          · rw [hq] at hiff ⊢
            exact (decides_question_last hgo).congr hiff.symm
          · by_cases hname : name = []
            · rw [hname] at hiff ⊢
              exact (decides_last hm hq hc).congr
                (iff_of_true trivial (hiff.mpr (maskMatches_nil.mpr rfl)))
            · exact (decides_last_none hm hq hc hname).congr
                (iff_of_false id fun h => hname (maskMatches_nil.mp (hiff.mp h)))
        · exact (decides_accept hm hc hmask hgo).congr hiff.symm
      · refine (decides_mismatch_none hm hc).congr (iff_of_false id fun h => ?_)
        exact hc ((maskMatches_cons hm).mp h).1

/-! ## Names that are missed -/

/-- A name that the mask matches with nothing for each `*`. -/
def plainName (mask : List WChar) : List WChar :=
  (mask.filter (· ≠ star)).map fun m => if m = question then 0x61#16 else m

theorem plainName_star : plainName (star :: mask) = plainName mask := by
  rw [plainName, List.filter_cons_of_neg (by decide), plainName]

theorem plainName_cons (hm : m ≠ star) :
    plainName (m :: mask) = (if m = question then 0x61#16 else m) :: plainName mask := by
  rw [plainName, List.filter_cons_of_pos (p := fun m => decide (m ≠ star)) (decide_eq_true hm),
    List.map_cons, plainName]

theorem accepts_plain : Accepts fold m (if m = question then 0x61#16 else m) := by
  by_cases hm : m = question
  · exact Or.inl hm
  · rw [if_neg hm]
    exact Or.inr rfl

theorem maskMatches_plainName (h : MaskMatches fold mask name) :
    MaskMatches fold (S ++ mask) (plainName S ++ name) := by
  induction S with
  | nil => exact h
  | cons m S ih =>
    by_cases hm : m = star
    · rw [hm, plainName_star, List.cons_append, maskMatches_star]
      exact ⟨_, List.suffix_refl _, ih⟩
    · rw [plainName_cons hm, List.cons_append, List.cons_append, maskMatches_cons hm]
      exact ⟨accepts_plain, ih⟩

theorem fits_plainName (hS : star ∉ S) : Fits fold S (plainName S) := by
  refine ⟨hS, ?_⟩
  induction S with
  | nil => exact List.Forall₂.nil
  | cons m S ih =>
    have hm : m ≠ star := fun heq => hS (heq ▸ List.mem_cons_self)
    rw [plainName_cons hm]
    exact List.Forall₂.cons accepts_plain (ih fun hmem => hS (List.mem_cons_of_mem _ hmem))

theorem plainName_dropWhile : plainName (mask.dropWhile (· = star)) = plainName mask := by
  induction mask with
  | nil => rfl
  | cons m mask ih =>
    rw [List.dropWhile_cons]
    split
    · next hm => rw [ih, of_decide_eq_true hm, plainName_star]
    · rfl

theorem run_decides (h : Fits fold S x) (hmask : mask ≠ [])
    (hgo : Decides fold name mask joker P) : Decides fold (x ++ name) (S ++ mask) joker P := by
  obtain ⟨hplain, haccepts⟩ := h
  induction haccepts with
  | nil => exact hgo
  | cons hc _ ih =>
    have hm : ¬_ = star := fun heq => hplain (heq ▸ List.mem_cons_self)
    refine decides_accept hm hc (List.append_ne_nil_of_right_ne_nil _ hmask) ?_
    exact ih fun hmem => hplain (List.mem_cons_of_mem _ hmem)

theorem dropWhile_of_head (hname : name.head? = some j) :
    name.dropWhile (fun d => fold d ≠ fold j) = name := by
  obtain ⟨rest, rfl⟩ := List.head?_eq_some_iff.mp hname
  rw [List.dropWhile_cons_of_neg (by simp)]

/-- The plain name leads the loop to the last `*` that is looked at. -/
theorem reach_decides (hj : j ≠ star) (hT : T ≠ [])
    (hgo : Decides fold (T.dropWhile fun d => fold d ≠ fold j) (j :: rest)
      (some ⟨j :: rest, T.dropWhile fun d => fold d ≠ fold j⟩) P)
    (n : ℕ) (hn : S.length ≤ n) (hapart : (S ++ [star]).IsChain Apart) :
    Decides fold (plainName S ++ T) (S ++ star :: j :: rest) joker P := by
  obtain ⟨t, T', rfl⟩ := List.exists_cons_of_ne_nil hT
  have hbehind : (j :: rest).dropWhile (· = star) = j :: rest :=
    List.dropWhile_cons_of_neg fun h => hj (of_decide_eq_true h)
  induction n generalizing S joker with
  | zero =>
    obtain rfl := List.length_eq_zero_iff.mp (Nat.le_zero.mp hn)
    exact decides_star hbehind hgo
  | succ n ih =>
    cases S with
    | nil => exact decides_star hbehind hgo
    | cons m S =>
      have htail : (S ++ [star]).IsChain Apart := hapart.tail
      by_cases hm : m = star
      · rw [hm] at hapart ⊢
        rw [plainName_star, List.cons_append]
        obtain ⟨c, name, hname⟩ : ∃ c name, plainName S ++ t :: T' = c :: name :=
          List.exists_cons_of_ne_nil (List.append_ne_nil_of_right_ne_nil _ (List.cons_ne_nil t T'))
        cases hdrop : S.dropWhile (· = star) with
        | nil =>
          have hmask : (S ++ star :: j :: rest).dropWhile (· = star) = j :: rest := by
            rw [List.dropWhile_append, hdrop, List.isEmpty_nil, if_pos rfl,
              List.dropWhile_cons_of_pos (by simp), hbehind]
          have hplain : plainName S = [] := by
            rw [← plainName_dropWhile, hdrop]
            rfl
          rw [hplain, List.nil_append]
          exact decides_star hmask hgo
        | cons k S' =>
          have hmask : (S ++ star :: j :: rest).dropWhile (· = star) =
              k :: (S' ++ star :: j :: rest) := by
            rw [List.dropWhile_append, hdrop, List.isEmpty_cons, if_neg Bool.false_ne_true,
              List.cons_append]
          obtain ⟨hk, hlen, front, hfront⟩ := exists_behind_star hdrop
          have hprefix : (star :: S).IsChain Apart := by
            rw [List.cons_append, ← List.cons_append] at hapart
            exact (List.isChain_append.mp hapart).1
          have hq := ne_question_behind_star hprefix hdrop
          have hplain : plainName S = k :: plainName S' := by
            rw [← plainName_dropWhile, hdrop, plainName_cons hk, if_neg hq]
          have hhead : (c :: name).head? = some k := by
            rw [← hname, hplain]
            rfl
          rw [hname]
          refine decides_star hmask ?_
          rw [dropWhile_of_head hhead, ← hname, ← plainName_dropWhile, hdrop]
          refine ih (Nat.le_trans hlen (Nat.le_of_succ_le_succ hn)) ?_
          rw [hfront, List.append_assoc] at hapart
          exact (hapart.suffix (List.suffix_append _ _)).tail
      · rw [plainName_cons hm]
        refine decides_accept hm accepts_plain
          (List.append_ne_nil_of_right_ne_nil S (List.cons_ne_nil _ _)) ?_
        exact ih (Nat.le_of_succ_le_succ hn) htail

theorem exists_first_question (h : ¬mask.IsChain Apart) : ∃ front rest,
    mask = front ++ star :: question :: rest ∧ (front ++ [star]).IsChain Apart := by
  induction mask with
  | nil => exact absurd List.IsChain.nil h
  | cons m mask ih =>
    cases mask with
    | nil => exact absurd (List.isChain_singleton m) h
    | cons m' mask =>
      by_cases hm : Apart m m'
      · obtain ⟨front, rest, heq, hfront⟩ := ih fun h' => h (List.isChain_cons_cons.mpr ⟨hm, h'⟩)
        refine ⟨m :: front, rest, by rw [heq, List.cons_append], ?_⟩
        rw [List.cons_append]
        refine List.isChain_cons.mpr ⟨fun d hd => ?_, hfront⟩
        have hhead : (front ++ [star]).head? = (m' :: mask).head? := by
          rw [heq]
          cases front with
          | nil => rfl
          | cons f front => rfl
        rw [hhead] at hd
        obtain rfl := Option.some.inj hd
        exact hm
      · rw [Classical.not_imp, not_not] at hm
        rw [hm.1, hm.2]
        exact ⟨[], mask, rfl, List.isChain_singleton star⟩

theorem head_plainName (hj : j ≠ star) (hq : j ≠ question) :
    (plainName (j :: rest)).head? = some j := by
  rw [plainName_cons hj, if_neg hq, List.head?_cons]

/-- A `?` behind a `*` is only looked for as a character of the name. -/
theorem missed_of_question (hfold : ∀ d, fold d = fold question → d = question)
    (hS : (S ++ [star]).IsChain Apart) : ∃ name,
    MaskMatches fold (S ++ star :: question :: rest) name ∧
      Decides fold name (S ++ star :: question :: rest) joker False := by
  have hT : plainName (question :: rest) ≠ [] := by
    rw [plainName_cons (by decide)]
    exact List.cons_ne_nil _ _
  have hnone : (plainName (question :: rest)).dropWhile (fun d => fold d ≠ fold question) = [] := by
    rw [List.dropWhile_eq_nil_iff]
    intro d hd
    obtain ⟨m, -, hm⟩ := List.mem_map.mp hd
    refine decide_eq_true fun heq => ?_
    have hquestion := hfold d heq
    rw [← hm] at hquestion
    by_cases hmq : m = question
    · rw [if_pos hmq] at hquestion
      exact absurd hquestion (by decide)
    · rw [if_neg hmq] at hquestion
      exact hmq hquestion
  refine ⟨plainName S ++ plainName (question :: rest), maskMatches_plainName ?_, ?_⟩
  · refine maskMatches_star.mpr ⟨_, List.suffix_refl _, ?_⟩
    have hplain : MaskMatches fold ((question :: rest) ++ []) (plainName (question :: rest) ++ []) :=
      maskMatches_plainName (maskMatches_nil.mpr rfl)
    rwa [List.append_nil, List.append_nil] at hplain
  · refine reach_decides (by decide) hT ?_ _ (Nat.le_refl _) hS
    rw [hnone]
    refine decides_nil.congr (iff_of_false (fun h => ?_) id)
    exact absurd (h question List.mem_cons_self) (by decide)

section Missed

variable (hapart : (S ++ star :: F).IsChain Apart) (hF : star ∉ F) (hne : F ≠ [])
include hapart hF hne

/-- What the loop returns for an end of the name it returns for a name. -/
theorem missed_of_last (hT : T.head? = F.head?) (hlater : Later fold F T)
    (hgo : Decides fold T F (some ⟨F, T⟩) False) : ∃ name,
    MaskMatches fold (S ++ star :: F) name ∧ Decides fold name (S ++ star :: F) joker False := by
  obtain ⟨j, rest, rfl⟩ := List.exists_cons_of_ne_nil hne
  have hj : j ≠ star := fun heq => hF (heq ▸ List.mem_cons_self)
  have hTne : T ≠ [] := by
    rintro rfl
    exact nomatch hT
  have hS : (S ++ [star]).IsChain Apart := by
    rw [← List.singleton_append, ← List.append_assoc] at hapart
    exact (List.isChain_append.mp hapart).1
  refine ⟨plainName S ++ T, maskMatches_plainName (maskMatches_star.mpr hlater), ?_⟩
  refine reach_decides hj hTne ?_ _ (Nat.le_refl _) hS
  rw [dropWhile_of_head hT]
  exact hgo

theorem head_ne_question : F.head? ≠ some question := by
  obtain ⟨j, rest, rfl⟩ := List.exists_cons_of_ne_nil hne
  have hbehind := hapart.suffix (List.suffix_append S (star :: j :: rest))
  exact fun heq => (List.isChain_cons_cons.mp hbehind).1 rfl (Option.some.inj heq)

/-- A `?` at the end of the mask ends the loop before the end of the name. -/
theorem missed_of_last_question (hlast : F.getLast? = some question) : ∃ name,
    MaskMatches fold (S ++ star :: F) name ∧ Decides fold name (S ++ star :: F) joker False := by
  have hhead := head_ne_question hapart hF hne
  obtain ⟨j, rest, rfl⟩ := List.exists_cons_of_ne_nil hne
  have hj : j ≠ star := fun heq => hF (heq ▸ List.mem_cons_self)
  have hq : j ≠ question := fun heq => hhead (congrArg some heq)
  have hplain : MaskMatches fold (j :: rest) (plainName (j :: rest)) := by
    have h : MaskMatches fold ((j :: rest) ++ []) (plainName (j :: rest) ++ []) :=
      maskMatches_plainName (maskMatches_nil.mpr rfl)
    rwa [List.append_nil, List.append_nil] at h
  obtain ⟨front, hfront⟩ := List.getLast?_eq_some_iff.mp hlast
  have hplainFront : star ∉ front := fun hmem =>
    hF (hfront ▸ List.mem_append_left [question] hmem)
  refine missed_of_last hapart hF hne (T := plainName (j :: rest) ++ plainName (j :: rest)) ?_
    ⟨_, List.suffix_append _ _, hplain⟩ ?_
  · rw [List.head?_append, head_plainName hj hq]
    rfl
  · rw [hfront]
    have hsplit : plainName (front ++ [question]) = plainName front ++ [0x61#16] := by
      rw [plainName, List.filter_append, List.map_append]
      rfl
    rw [hsplit, List.append_assoc]
    refine run_decides (fits_plainName hplainFront) (List.cons_ne_nil question []) ?_
    rw [List.singleton_append]
    refine decides_question_last ?_
    obtain ⟨c, name, hname⟩ : ∃ c name, plainName front ++ [0x61#16] = c :: name :=
      List.exists_cons_of_ne_nil (List.append_ne_nil_of_right_ne_nil _ (List.cons_ne_nil _ _))
    rw [hname]
    exact decides_mask_nil

theorem missed_of_clash (hlast : F.getLast? ≠ some question) (hclash : Clash fold F) : ∃ name,
    MaskMatches fold (S ++ star :: F) name ∧ Decides fold name (S ++ star :: F) joker False := by
  obtain ⟨T, hT, hlater, hnot⟩ := exists_missed hF hne (head_ne_question hapart hF hne) hclash
  exact missed_of_last hapart hF hne hT hlater
    ((last_decides hF hne hlast T).congr (iff_of_false hnot id))

end Missed

/-- A mask for which the loop finds every match is complete. -/
theorem complete_of_decides (hfold : ∀ d, fold d = fold question → d = question)
    (h : ∀ name, Decides fold name mask none (MaskMatches fold mask name)) : Complete fold mask := by
  have hmissed : ¬∃ name, MaskMatches fold mask name ∧ Decides fold name mask none False :=
    fun ⟨name, hmatch, hno⟩ => ((h name).unique hno).mp hmatch
  have hapart : mask.IsChain Apart := by
    by_contra hnot
    obtain ⟨front, rest, rfl, hfront⟩ := exists_first_question hnot
    exact hmissed (missed_of_question hfold hfront)
  refine ⟨hapart, fun front F heq hF hne => ⟨fun hlast => hmissed ?_, fun hclash => ?_⟩⟩
  · rw [heq] at hapart ⊢
    exact missed_of_last_question hapart hF hne hlast
  · rw [heq] at hapart hmissed
    by_cases hlast : F.getLast? = some question
    · exact hmissed (missed_of_last_question hapart hF hne hlast)
    · exact hmissed (missed_of_clash hapart hF hne hlast hclash)

theorem caseFold_question {isCaseSensitive : Bool} (d : WChar)
    (h : caseFold isCaseSensitive d = caseFold isCaseSensitive question) : d = question := by
  cases isCaseSensitive with
  | true => exact h
  | false => exact (toupperW_eq_iff (by decide)).mp h

/-- The function agrees with the mask on every name exactly when the mask is complete. -/
theorem matchFilename_exact_iff (isCaseSensitive : Bool) (mask : List WChar) :
    (∀ name, ∃ b n, (∀ k, n ≤ k → matchFilename isCaseSensitive k name mask = some b) ∧
      (b = true ↔ MaskMatches (caseFold isCaseSensitive) mask name)) ↔
    Complete (caseFold isCaseSensitive) mask :=
  ⟨complete_of_decides caseFold_question, decides_of_complete⟩

/-- The second `a` of the name is taken for the end of the mask, and is not looked at again. -/
theorem not_matchFilename_exact_repeated :
    MaskMatches (caseFold false) (wide "*aa") (wide "aaa") ∧
      matchFilename false 9 (wide "aaa") (wide "*aa") = some false := by
  refine ⟨maskMatches_star.mpr ⟨wide "aa", List.suffix_cons _ _, ?_⟩, by decide⟩
  have hplain : MaskMatches (caseFold false) (wide "aa" ++ []) (plainName (wide "aa") ++ []) :=
    maskMatches_plainName (maskMatches_nil.mpr rfl)
  exact hplain

end Wine.Directory
