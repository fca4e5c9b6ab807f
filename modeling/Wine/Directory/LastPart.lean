import Mathlib.Data.List.GetD
import Wine.Directory.Match

/-!
# The mask behind the last `*`

When the end of the mask is reached before the end of the name, the loop starts over with the mask but not
with the name. So it asks whether the rest of the name can be read as the last part of the mask again and
again, and from the first place on where it can, there is no other try.
-/

namespace Wine.Directory

section Model

variable (fold : WChar → WChar) (F : List WChar)

/-- The mask that is repeated. -/
def cycleAt (k : ℕ) : WChar := F.getD (k % F.length) dot

def Cycles (name : List WChar) : Prop := ∀ k c, name[k]? = some c → Accepts fold (cycleAt F k) c

/-- After `n` characters of the repeated mask only dots are left of it. -/
def CycleEnd (n : ℕ) : Prop := (0 < n ∧ n % F.length = 0) ∨ Trails (F.drop (n % F.length))

/-- What the loop returns behind the last `*`. -/
def LastResult : List WChar → Prop
  | [] => CycleEnd F 0
  | c :: name =>
    (Cycles fold F (c :: name) ∧ CycleEnd F (name.length + 1)) ∨
      ¬Cycles fold F (c :: name) ∧ LastResult name

/-- Two mask characters that accept the same character. -/
def Compatible (m m' : WChar) : Prop := m = question ∨ m' = question ∨ fold m = fold m'

/-- The mask is compatible with itself when it is moved against its own repetition, so that a name that
ends with it can be read as the repeated mask that stops in the middle. -/
def Clash : Prop :=
  ∃ r n, 0 < r ∧ r < n ∧ n ≤ F.length ∧ Trails (F.drop n) ∧ ¬Trails (F.drop r) ∧
    ∀ k, k < n → Compatible fold (F.getD k dot) (cycleAt F (k + (F.length + r - n)))

end Model

variable {fold : WChar → WChar} {F name x y : List WChar} {m c : WChar} {n k : ℕ}

theorem cycles_nil : Cycles fold F [] := fun _ _ h => nomatch h

theorem lastResult_of_cycles (h : Cycles fold F name) :
    LastResult fold F name ↔ CycleEnd F name.length := by
  cases name with
  | nil => exact Iff.rfl
  | cons c name =>
    rw [LastResult, or_iff_left fun h' => h'.1 h, and_iff_right h]
    exact Iff.rfl

theorem lastResult_of_not_cycles (h : ¬Cycles fold F (c :: name)) :
    LastResult fold F (c :: name) ↔ LastResult fold F name := by
  rw [LastResult, or_iff_right fun h' => h h'.1, and_iff_right h]

theorem cycles_concat (hx : Cycles fold F x) (hc : Accepts fold (cycleAt F x.length) c) :
    Cycles fold F (x ++ [c]) := by
  intro k d hd
  rcases Nat.lt_or_ge k x.length with hlt | hge
  · rw [List.getElem?_append_left hlt] at hd
    exact hx k d hd
  · rw [List.getElem?_append_right hge, List.getElem?_singleton] at hd
    split at hd
    · next h =>
      obtain rfl := Option.some.inj hd
      rwa [show k = x.length by omega]
    · exact nomatch hd

theorem drop_mod (hne : F ≠ []) :
    F.drop (k % F.length) = cycleAt F k :: F.drop (k % F.length + 1) := by
  have hlt : k % F.length < F.length := Nat.mod_lt _ (List.length_pos_iff.mpr hne)
  rw [List.drop_eq_getElem_cons hlt, cycleAt, List.getD_eq_getElem F dot hlt]

theorem cycleAt_ne_star (hF : star ∉ F) (hne : F ≠ []) : cycleAt F k ≠ star := by
  have hlt : k % F.length < F.length := Nat.mod_lt _ (List.length_pos_iff.mpr hne)
  rw [cycleAt, List.getD_eq_getElem F dot hlt]
  exact fun heq => hF (heq ▸ List.getElem_mem hlt)

/-- The last character of the mask is at the end of each repetition. -/
theorem cycleAt_last (hne : F ≠ []) (hk : k % F.length + 1 = F.length) :
    F.getLast? = some (cycleAt F k) := by
  have hlt : k % F.length < F.length := Nat.mod_lt _ (List.length_pos_iff.mpr hne)
  rw [List.getLast?_eq_getElem?, show F.length - 1 = k % F.length by omega,
    List.getElem?_eq_getElem hlt, cycleAt, List.getD_eq_getElem F dot hlt]

section Run

variable (hF : star ∉ F) (hne : F ≠ []) (hlast : F.getLast? ≠ some question)
include hF hne hlast

/-- From a part of the name that was read as the repeated mask on. -/
theorem cycle_decides
    (hretry : ∀ c rest, name = c :: rest → Decides fold rest F (some ⟨F, rest⟩) (LastResult fold F rest))
    (hname : name = x ++ y) (hx : Cycles fold F x) (hy : y ≠ [] ∨ x.length % F.length ≠ 0 ∨ x = []) :
    Decides fold y (F.drop (x.length % F.length)) (some ⟨F, name⟩) (LastResult fold F name) := by
  have hpos : 0 < F.length := List.length_pos_iff.mpr hne
  induction y generalizing x with
  | nil =>
    rw [List.append_nil] at hname
    refine decides_nil.congr ?_
    rw [hname, lastResult_of_cycles hx, CycleEnd, or_iff_right]
    rintro ⟨hlen, hmod⟩
    rcases hy with h | h | rfl
    · exact h rfl
    · exact h hmod
    · exact absurd hlen (Nat.lt_irrefl 0)
  | cons c y ih =>
    rw [drop_mod hne]
    by_cases hc : Accepts fold (cycleAt F x.length) c
    · have hx' := cycles_concat hx hc
      have hname' : name = (x ++ [c]) ++ y := by rw [hname, List.append_assoc, List.singleton_append]
      have hlen : (x ++ [c]).length = x.length + 1 := List.length_append
      have hlt : x.length % F.length < F.length := Nat.mod_lt _ hpos
      by_cases hend : x.length % F.length + 1 = F.length
      · have hq : cycleAt F x.length ≠ question := fun heq =>
          hlast ((cycleAt_last hne hend).trans (congrArg some heq))
        have hmod : (x ++ [c]).length % F.length = 0 := by
          rw [hlen, ← Nat.mod_add_mod, hend, Nat.mod_self]
        rw [hend, List.drop_length]
        cases y with
        | nil =>
          refine (decides_last (cycleAt_ne_star hF hne) hq hc).congr (iff_of_true trivial ?_)
          rw [List.append_nil] at hname'
          rw [hname', lastResult_of_cycles hx']
          exact Or.inl ⟨by omega, hmod⟩
        | cons d y =>
          have hgo := ih hname' hx' (Or.inl (List.cons_ne_nil d y))
          rw [hmod, List.drop_zero] at hgo
          exact decides_last_some (cycleAt_ne_star hF hne) hq hc (List.cons_ne_nil d y) hgo
      · have hmod : (x ++ [c]).length % F.length = x.length % F.length + 1 := by
          rw [hlen, ← Nat.mod_add_mod, Nat.mod_eq_of_lt (by omega)]
        have hgo := ih hname' hx' (Or.inr (Or.inl (by omega)))
        rw [hmod] at hgo
        refine decides_accept (cycleAt_ne_star hF hne) hc ?_ hgo
        exact List.ne_nil_of_length_pos (by rw [List.length_drop]; omega)
    · have hnot : ¬Cycles fold F name := by
        intro hcycles
        refine hc (hcycles x.length c ?_)
        rw [hname, List.getElem?_append_right (Nat.le_refl _), Nat.sub_self]
        rfl
      have hnonempty : name ≠ [] := by
        rw [hname]
        exact List.append_ne_nil_of_right_ne_nil x (List.cons_ne_nil c y)
      obtain ⟨d, rest, hrest⟩ := List.exists_cons_of_ne_nil hnonempty
      refine decides_mismatch_some (cycleAt_ne_star hF hne) hc ?_
      rw [hrest] at hnot ⊢
      exact (hretry d rest hrest).congr (lastResult_of_not_cycles hnot).symm

theorem last_decides (name : List WChar) :
    Decides fold name F (some ⟨F, name⟩) (LastResult fold F name) := by
  induction name with
  | nil =>
    exact cycle_decides hF hne hlast (x := []) (fun c rest h => nomatch h) rfl cycles_nil
      (Or.inr (Or.inr rfl))
  | cons c name ih =>
    refine cycle_decides hF hne hlast (x := []) (fun d rest h => ?_) rfl cycles_nil
      (Or.inr (Or.inr rfl))
    obtain ⟨rfl, rfl⟩ := List.cons.inj h
    exact ih

end Run

/-- A mask without `*` matches what is not longer character by character. -/
theorem maskMatches_iff (hF : star ∉ F) : MaskMatches fold F name ↔ name.length ≤ F.length ∧
    (∀ k c, name[k]? = some c → Accepts fold (F.getD k dot) c) ∧ Trails (F.drop name.length) := by
  induction F generalizing name with
  | nil =>
    rw [maskMatches_nil]
    constructor
    · rintro rfl
      refine ⟨Nat.le_refl 0, fun k c h => ?_, fun c hc => absurd hc List.not_mem_nil⟩
      exact nomatch h
    · exact fun h => List.length_eq_zero_iff.mp (Nat.le_zero.mp h.1)
  | cons m F ih =>
    have hm : m ≠ star := fun heq => hF (heq ▸ List.mem_cons_self)
    cases name with
    | nil =>
      rw [maskMatches_name_nil]
      refine ⟨fun h => ⟨Nat.zero_le _, fun k c h' => ?_, h⟩, fun h => h.2.2⟩
      exact nomatch h'
    | cons c name =>
      rw [maskMatches_cons hm, ih fun h => hF (List.mem_cons_of_mem _ h)]
      constructor
      · rintro ⟨hc, hlen, hall, htrails⟩
        refine ⟨Nat.succ_le_succ hlen, fun k d hd => ?_, htrails⟩
        cases k with
        | zero =>
          obtain rfl := Option.some.inj hd
          exact hc
        | succ k => exact hall k d hd
      · rintro ⟨hlen, hall, htrails⟩
        exact ⟨hall 0 c rfl, Nat.le_of_succ_le_succ hlen, fun k d hd => hall (k + 1) d hd, htrails⟩

/-- What the mask matches can be read as the repeated mask. -/
theorem cycles_of_maskMatches (hF : star ∉ F) (h : MaskMatches fold F name) : Cycles fold F name := by
  obtain ⟨hlen, hall, -⟩ := (maskMatches_iff hF).mp h
  intro k c hk
  have hlt : k < name.length := (List.getElem?_eq_some_iff.mp hk).1
  rw [cycleAt, Nat.mod_eq_of_lt (by omega)]
  exact hall k c hk

/-- The end of a name that is read as the repeated mask matches the mask. -/
theorem later_of_cycles (hF : star ∉ F) {len : ℕ} (h : Cycles fold F name) (hlen : len ≤ F.length)
    (hname : len ≤ name.length) (hmod : (name.length - len) % F.length = 0)
    (htrails : Trails (F.drop len)) : Later fold F name := by
  refine ⟨name.drop (name.length - len), List.drop_suffix _ _, (maskMatches_iff hF).mpr ?_⟩
  have hlen' : (name.drop (name.length - len)).length = len := by
    rw [List.length_drop]
    omega
  rw [hlen']
  refine ⟨hlen, fun k c hk => ?_, htrails⟩
  have hlt : k < len := hlen' ▸ (List.getElem?_eq_some_iff.mp hk).1
  rw [List.getElem?_drop] at hk
  have hc := h _ c hk
  rwa [cycleAt, ← Nat.mod_add_mod, hmod, Nat.zero_add, Nat.mod_eq_of_lt (by omega)] at hc

/-- The loop returns `TRUE` only when the mask matches an end of the name. -/
theorem later_of_lastResult (hF : star ∉ F) (h : LastResult fold F name) : Later fold F name := by
  have hend : ∀ name : List WChar, Cycles fold F name → CycleEnd F name.length →
      Later fold F name := by
    rintro name hcycles (⟨hpos, hmod⟩ | htrails)
    · refine later_of_cycles hF hcycles (Nat.le_refl _) ?_ ?_ ?_
      · exact Nat.le_of_dvd hpos (Nat.dvd_of_mod_eq_zero hmod)
      · have hle := Nat.le_of_dvd hpos (Nat.dvd_of_mod_eq_zero hmod)
        rw [← Nat.add_mod_right, Nat.sub_add_cancel hle, hmod]
      · rw [List.drop_length]
        exact fun c hc => absurd hc List.not_mem_nil
    · by_cases hne : F.length = 0
      · have hnil := List.length_eq_zero_iff.mp hne
        rw [hnil]
        refine ⟨[], List.nil_suffix, maskMatches_nil.mpr rfl⟩
      · refine later_of_cycles hF hcycles (Nat.le_of_lt (Nat.mod_lt _ (Nat.pos_of_ne_zero hne)))
          (Nat.mod_le _ _) ?_ htrails
        have hdiv := Nat.div_add_mod name.length F.length
        rw [show name.length - name.length % F.length = F.length * (name.length / F.length) by omega,
          Nat.mul_mod_right]
  induction name with
  | nil => exact hend [] cycles_nil h
  | cons c name ih =>
    rcases h with ⟨hcycles, h⟩ | ⟨-, h⟩
    · exact hend _ hcycles h
    · exact later_cons.mpr (Or.inr (ih h))

theorem Trails.drop_mono {r : ℕ} (h : Trails (F.drop r)) (hle : r ≤ n) : Trails (F.drop n) := by
  intro c hc
  refine h c ?_
  rw [show n = r + (n - r) by omega, ← List.drop_drop] at hc
  exact (List.drop_subset _ _) hc

/-- Without a clash the loop finds every match. -/
theorem lastResult_of_later (hF : star ∉ F) (hne : F ≠ []) (hclash : ¬Clash fold F)
    (h : Later fold F name) : LastResult fold F name := by
  induction name with
  | nil =>
    rw [lastResult_of_cycles cycles_nil]
    refine Or.inr ?_
    rw [List.length_nil, Nat.zero_mod]
    exact later_nil.mp h
  | cons c name ih =>
    by_cases hcycles : Cycles fold F (c :: name)
    · rw [lastResult_of_cycles hcycles]
      by_contra hend
      obtain ⟨name', hsuffix, hmatch⟩ := h
      obtain ⟨hlen, hall, htrails⟩ := (maskMatches_iff hF).mp hmatch
      obtain ⟨start, hstart⟩ := hsuffix
      obtain ⟨L, hL⟩ : ∃ L, F.length = L := ⟨_, rfl⟩
      obtain ⟨N, hN⟩ : ∃ N, (c :: name).length = N := ⟨_, rfl⟩
      rw [CycleEnd, hL, hN] at hend
      rw [hL] at hlen
      have hLpos : 0 < L := hL ▸ List.length_pos_iff.mpr hne
      have hNpos : 0 < N := hN ▸ Nat.zero_lt_succ name.length
      have hsum : start.length + name'.length = N := by
        rw [← hN, ← hstart, List.length_append]
      have hr : N % L ≠ 0 := fun hzero => hend (Or.inl ⟨hNpos, hzero⟩)
      have hrlt : N % L < name'.length := by
        by_contra hge
        exact hend (Or.inr (htrails.drop_mono (Nat.le_of_not_lt hge)))
      have hdiv := Nat.div_add_mod N L
      have hq : 0 < N / L := by
        rcases Nat.eq_zero_or_pos (N / L) with hzero | hpos
        · rw [hzero, Nat.mul_zero] at hdiv
          omega
        · exact hpos
      refine hclash ⟨N % L, name'.length, Nat.pos_of_ne_zero hr, hrlt, hL ▸ hlen, htrails,
        fun htrails' => hend (Or.inr htrails'), fun k hk => ?_⟩
      have hget : (c :: name)[start.length + k]? = some (name'[k]) := by
        rw [← hstart, List.getElem?_append_right (Nat.le_add_right _ _), Nat.add_sub_cancel_left,
          List.getElem?_eq_getElem hk]
      have hfirst := hall k _ (List.getElem?_eq_getElem hk)
      have hcycle := hcycles _ _ hget
      have hmod : cycleAt F (start.length + k) = cycleAt F (k + (F.length + N % L - name'.length)) := by
        obtain ⟨p, hp⟩ := Nat.exists_eq_succ_of_ne_zero (Nat.pos_iff_ne_zero.mp hq)
        have heq : start.length + k = k + (L + N % L - name'.length) + L * p := by
          rw [hp, Nat.mul_succ] at hdiv
          omega
        rw [cycleAt, cycleAt, hL, heq, Nat.add_mul_mod_self_left]
      rw [hmod] at hcycle
      rcases hfirst with hfirst | hfirst
      · exact Or.inl hfirst
      rcases hcycle with hcycle | hcycle
      · exact Or.inr (Or.inl hcycle)
      · exact Or.inr (Or.inr (hfirst.trans hcycle.symm))
    · rw [lastResult_of_not_cycles hcycles]
      rcases later_cons.mp h with hmatch | hlater
      · exact absurd (cycles_of_maskMatches hF hmatch) hcycles
      · exact ih hlater

/-- A character that two compatible ones accept. -/
def common (m m' : WChar) : WChar := if m ≠ question then m else m'

theorem accepts_common_left (m m' : WChar) : Accepts fold m (common m m') := by
  rw [common]
  split
  · exact Or.inr rfl
  · next h => exact Or.inl (not_not.mp h)

theorem accepts_common_right {m' : WChar} (h : Compatible fold m' m) :
    Accepts fold m' (common m m') := by
  rw [common]
  split
  · next hm =>
    rcases h with h | h | h
    · exact Or.inl h
    · exact absurd h hm
    · exact Or.inr h
  · exact Or.inr rfl

/-- With a clash the loop misses a name. -/
theorem exists_missed (hF : star ∉ F) (hne : F ≠ []) (hq : F.head? ≠ some question)
    (hclash : Clash fold F) : ∃ name, name.head? = F.head? ∧ Later fold F name ∧
      ¬LastResult fold F name := by
  obtain ⟨r, n, hr, hrn, hn, htrails, hstop, hcompatible⟩ := hclash
  have hpos : 0 < F.length := List.length_pos_iff.mpr hne
  let char : ℕ → WChar := fun i => common (cycleAt F i) (F.getD (i - (F.length + r - n)) dot)
  have hget : ∀ k c, ((List.range (F.length + r)).map char)[k]? = some c →
      k < F.length + r ∧ c = char k := by
    intro k c hk
    rw [List.getElem?_map, Option.map_eq_some_iff] at hk
    obtain ⟨i, hi, rfl⟩ := hk
    obtain ⟨hlt, heq⟩ := List.getElem?_eq_some_iff.mp hi
    rw [List.getElem_range] at heq
    rw [List.length_range] at hlt
    exact ⟨hlt, heq ▸ rfl⟩
  have hlen : ((List.range (F.length + r)).map char).length = F.length + r := by
    rw [List.length_map, List.length_range]
  have hcycles : Cycles fold F ((List.range (F.length + r)).map char) := by
    intro k c hk
    rw [(hget k c hk).2]
    exact accepts_common_left _ _
  refine ⟨(List.range (F.length + r)).map char, ?_, ?_, ?_⟩
  · obtain ⟨m, rest, rfl⟩ := List.exists_cons_of_ne_nil hne
    have hm : m ≠ question := fun heq => hq (congrArg some heq)
    rw [List.head?_map, List.head?_range, if_neg (by omega), Option.map_some, List.head?_cons]
    have hzero : cycleAt (m :: rest) 0 = m := by
      rw [cycleAt, Nat.zero_mod]
      rfl
    refine congrArg some ?_
    change common (cycleAt (m :: rest) 0) _ = m
    rw [hzero, common, if_pos hm]
  · refine ⟨_, List.drop_suffix (F.length + r - n) _, (maskMatches_iff hF).mpr ?_⟩
    rw [List.length_drop, hlen, show F.length + r - (F.length + r - n) = n by omega]
    refine ⟨hn, fun k c hk => ?_, htrails⟩
    rw [List.getElem?_drop] at hk
    obtain ⟨hlt, rfl⟩ := hget _ c hk
    have hsub : F.length + r - n + k - (F.length + r - n) = k := Nat.add_sub_cancel_left _ _
    change Accepts fold _ (common _ (F.getD (F.length + r - n + k - (F.length + r - n)) dot))
    rw [hsub]
    refine accepts_common_right ?_
    rw [Nat.add_comm (F.length + r - n) k]
    exact hcompatible k (by omega)
  · rw [lastResult_of_cycles hcycles, hlen]
    have hmod : (F.length + r) % F.length = r := by
      rw [Nat.add_mod_left, Nat.mod_eq_of_lt (by omega)]
    rintro (⟨-, h⟩ | h)
    · omega
    · rw [hmod] at h
      exact hstop h

end Wine.Directory
