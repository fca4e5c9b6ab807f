import Mathlib.Order.Lattice.Nat
import Wine.FileDesc.Ranges
import Wine.Lib.Intervals

/-!
# Gaps between locks

The bytes of an area that no lock covers, as a sorted list of gaps. A gap is stale when the gap to
its left has been split since the two were neighbours: a pointer from the one to the other is then
out of date. `cut` takes an interval away from the gaps, and gives up where it would have to remove
a stale gap.
-/

namespace Wine.FileDesc
open Wine.Lib

structure Gap where
  lo : ℕ
  hi : ℕ
  stale : Bool

abbrev Gap.bytes (g : Gap) : Set ℕ := Set.Ico g.lo g.hi

def spoil : List Gap → List Gap
  | [] => []
  | g :: gs => { g with stale := true } :: gs

/-- The gaps without `[a, b)`; `fresh` after the removal of the gap before them. -/
def cut (a b : ℕ) : Bool → List Gap → Option (List Gap)
  | _, [] => some []
  | fresh, g :: gs =>
    if g.hi ≤ a then (cut a b false gs).map (⟨g.lo, g.hi, g.stale && !fresh⟩ :: ·)
    else if b ≤ g.lo then some (⟨g.lo, g.hi, g.stale && !fresh⟩ :: gs)
    else if a ≤ g.lo then
      if b < g.hi then some (⟨b, g.hi, g.stale && !fresh⟩ :: gs)
      else if g.stale && !fresh then none
      else cut a b true gs
    else if g.hi ≤ b then (cut a b false gs).map (⟨g.lo, a, g.stale && !fresh⟩ :: ·)
    else some (⟨g.lo, a, g.stale && !fresh⟩ :: ⟨b, g.hi, false⟩ :: spoil gs)

/-- The gaps are not empty, and each ends before the next one starts. -/
structure Proper (gs : List Gap) : Prop where
  lt : ∀ g ∈ gs, g.lo < g.hi
  apart : Separated Gap.lo Gap.hi gs

abbrev gapBytes (gs : List Gap) : Set ℕ := cover Gap.lo Gap.hi gs

variable {a b x y : ℕ} {fresh : Bool} {g : Gap} {gs gs' : List Gap}

theorem Proper.cons_iff :
    Proper (g :: gs) ↔ g.lo < g.hi ∧ StartsAfter Gap.lo g.hi gs ∧ Proper gs := by
  constructor
  · rintro ⟨hlt, hsep⟩
    exact ⟨hlt g List.mem_cons_self, hsep.after,
      fun g' hg' => hlt g' (List.mem_cons_of_mem g hg'), hsep.tail⟩
  · rintro ⟨hlt, hafter, hgs⟩
    exact ⟨List.forall_mem_cons.mpr ⟨hlt, hgs.lt⟩, hgs.apart.cons hlt.le hafter⟩

theorem lt_of_mem_gapBytes (h : StartsAfter Gap.lo x gs) (hy : y ∈ gapBytes gs) : x < y := by
  by_contra hle
  exact (h.mono (not_lt.mp hle)).not_mem_cover hy

/-- What `cut` leaves. -/
structure CutFrom (a b : ℕ) (gs gs' : List Gap) : Prop where
  proper : Proper gs'
  bytes : ∀ y, y ∈ gapBytes gs' ↔ y ∈ gapBytes gs ∧ (y < a ∨ b ≤ y)
  after : ∀ x, StartsAfter Gap.lo x gs → StartsAfter Gap.lo x gs'

theorem mem_gapBytes_cons :
    y ∈ gapBytes (g :: gs) ↔ (g.lo ≤ y ∧ y < g.hi) ∨ y ∈ gapBytes gs := by
  rw [gapBytes, cover_cons]
  exact Iff.rfl

theorem CutFrom.keep (h : CutFrom a b gs gs') (hafter : StartsAfter Gap.lo g.hi gs)
    {lo hi : ℕ} (stale : Bool) (hlo : g.lo ≤ lo) (hlt : lo < hi) (hhi : hi ≤ g.hi)
    (hbytes : ∀ y, lo ≤ y ∧ y < hi ↔ (g.lo ≤ y ∧ y < g.hi) ∧ (y < a ∨ b ≤ y)) :
    CutFrom a b (g :: gs) (⟨lo, hi, stale⟩ :: gs') := by
  refine ⟨Proper.cons_iff.mpr ⟨hlt, (h.after _ hafter).mono hhi, h.proper⟩, fun y => ?_,
    fun x hx => ?_⟩
  · rw [mem_gapBytes_cons, mem_gapBytes_cons, hbytes, h.bytes, or_and_right]
  · obtain ⟨hx₁, hx₂⟩ := startsAfter_cons.mp hx
    exact startsAfter_cons.mpr ⟨hx₁.trans_le hlo, h.after _ hx₂⟩

theorem cutFrom_rest (h : Proper gs) (hafter : StartsAfter Gap.lo x gs) (hb : b ≤ x + 1) :
    CutFrom a b gs gs := by
  refine ⟨h, fun y => ⟨fun hy => ⟨hy, .inr ?_⟩, And.left⟩, fun _ h => h⟩
  exact hb.trans (lt_of_mem_gapBytes hafter hy)

theorem cutFrom_spoil (h : CutFrom a b gs gs') : CutFrom a b gs (spoil gs') := by
  cases gs' with
  | nil => exact h
  | cons g gs' =>
    obtain ⟨lo, hi, stale⟩ := g
    refine ⟨(Proper.cons_iff (g := ⟨lo, hi, true⟩)).mpr ?_, fun y => ?_, fun x hx =>
      (@startsAfter_cons _ _ _ Gap.lo ⟨lo, hi, true⟩ _ _).mpr ?_⟩
    · exact (Proper.cons_iff (g := ⟨lo, hi, stale⟩)).mp h.proper
    · rw [← h.bytes, mem_gapBytes_cons, spoil, mem_gapBytes_cons]
    · exact (@startsAfter_cons _ _ _ Gap.lo ⟨lo, hi, stale⟩ _ _).mp (h.after x hx)

theorem cut_spec (hab : a < b) (h : Proper gs) (hc : cut a b fresh gs = some gs') :
    CutFrom a b gs gs' := by
  induction gs generalizing fresh gs' with
  | nil =>
    cases hc
    exact ⟨h, fun y => by simp, fun _ h => h⟩
  | cons g gs ih =>
    obtain ⟨hlt, hafter, hgs⟩ := Proper.cons_iff.mp h
    have hrest : b ≤ g.hi + 1 → CutFrom a b gs gs := cutFrom_rest hgs hafter
    unfold cut at hc
    split at hc
    · obtain ⟨rest, hr, rfl⟩ := Option.map_eq_some_iff.mp hc
      exact (ih hgs hr).keep hafter _ le_rfl hlt le_rfl (by omega)
    split at hc
    · cases hc
      exact (hrest (by omega)).keep hafter _ le_rfl hlt le_rfl (by omega)
    split at hc
    · split at hc
      · next hin =>
        cases hc
        exact (hrest (by omega)).keep hafter _ (by omega) hin le_rfl (by omega)
      split at hc
      · cases hc
      · have hcut := ih hgs hc
        refine ⟨hcut.proper, fun y => ?_, fun x hx => hcut.after x (startsAfter_cons.mp hx).2⟩
        rw [mem_gapBytes_cons, hcut.bytes, or_and_right]
        exact ⟨.inr, fun hy => hy.resolve_left (by omega)⟩
    split at hc
    · obtain ⟨rest, hr, rfl⟩ := Option.map_eq_some_iff.mp hc
      exact (ih hgs hr).keep hafter _ le_rfl (by omega) (by omega) (by omega)
    · cases hc
      have hspoil := cutFrom_spoil (hrest (by omega))
      have hbehind := hspoil.after g.hi hafter
      have hproper : Proper (⟨b, g.hi, false⟩ :: spoil gs) :=
        Proper.cons_iff.mpr ⟨by dsimp only; omega, hbehind, hspoil.proper⟩
      refine ⟨Proper.cons_iff.mpr ⟨by dsimp only; omega, startsAfter_cons.mpr ⟨hab, ?_⟩,
        hproper⟩, fun y => ?_, fun x hx => ?_⟩
      · exact hbehind.mono (by dsimp only; omega)
      · rw [mem_gapBytes_cons, mem_gapBytes_cons, mem_gapBytes_cons, hspoil.bytes, or_and_right,
          ← or_assoc]
        exact or_congr_left (by dsimp only; omega)
      · obtain ⟨hx₁, hx₂⟩ := startsAfter_cons.mp hx
        refine startsAfter_cons.mpr ⟨hx₁, startsAfter_cons.mpr ⟨?_, hspoil.after x hx₂⟩⟩
        dsimp only
        omega

/-! ## Stale gaps -/

/-- The gaps behind one with the bytes `C`: each stale one is related to the one before it. -/
def Marked (P : ℕ → ℕ → Prop) : Set ℕ → List Gap → Prop
  | _, [] => True
  | C, g :: gs => (g.stale = true → C.Nonempty ∧ ∀ c ∈ C, ∀ x ∈ g.bytes, P c x) ∧
      Marked P g.bytes gs

variable {P Q : ℕ → ℕ → Prop} {C D : Set ℕ}

theorem Marked.mono (h : Marked P C gs) (hP : ∀ c x, P c x → Q c x) (hD : D ⊆ C)
    (hne : C.Nonempty → D.Nonempty) : Marked Q D gs := by
  induction gs generalizing C D with
  | nil => trivial
  | cons g gs ih =>
    refine ⟨fun hs => ⟨hne (h.1 hs).1, fun c hc x hx => ?_⟩, ih h.2 (fun _ h => h) id⟩
    exact hP c x ((h.1 hs).2 c (hD hc) x hx)

/-- The interval lies in the gap of `c`, with something of this gap on either side. -/
def SplitBy (a b : ℕ) (gs : List Gap) (c : ℕ) : Prop :=
  b ≤ c ∧ ∃ y < a, ∃ g ∈ gs, y ∈ g.bytes ∧ c ∈ g.bytes

theorem cut_marked (hlt : ∀ g ∈ gs, g.lo < g.hi) (hm : Marked P C gs)
    (hD : fresh = false → D ⊆ C ∧ (C.Nonempty → D.Nonempty))
    (hc : cut a b fresh gs = some gs') :
    Marked (fun c x => P c x ∨ SplitBy a b gs c) D gs' := by
  induction gs generalizing fresh gs' C D with
  | nil =>
    cases hc
    trivial
  | cons g gs ih =>
    obtain ⟨hg, hgs⟩ := List.forall_mem_cons.mp hlt
    have hold : ∀ c x, P c x → P c x ∨ SplitBy a b (g :: gs) c := fun _ _ => .inl
    have hrest : ∀ c x, P c x ∨ SplitBy a b gs c → P c x ∨ SplitBy a b (g :: gs) c := by
      rintro c x (hp | ⟨hbc, y, hy, g', hg', hmem⟩)
      · exact .inl hp
      · exact .inr ⟨hbc, y, hy, g', List.mem_cons_of_mem g hg', hmem⟩
    -- a gap that stays, or loses something at its ends, is as stale as before
    have hhead : ∀ lo hi, g.lo ≤ lo → hi ≤ g.hi → (g.stale && !fresh) = true →
        D.Nonempty ∧ ∀ c ∈ D, ∀ x ∈ Set.Ico lo hi, P c x ∨ SplitBy a b (g :: gs) c := by
      intro lo hi hlo hhi hs
      simp only [Bool.and_eq_true, Bool.not_eq_true'] at hs
      obtain ⟨hsub, hne⟩ := hD hs.2
      obtain ⟨hC, hP⟩ := hm.1 hs.1
      exact ⟨hne hC, fun c hc x hx => .inl (hP c (hsub hc) x ⟨hlo.trans hx.1, hx.2.trans_le hhi⟩)⟩
    have hself : ∀ lo hi, g.lo ≤ lo → lo < hi → hi ≤ g.hi →
        Set.Ico lo hi ⊆ g.bytes ∧ (g.bytes.Nonempty → (Set.Ico lo hi).Nonempty) :=
      fun lo hi hlo hlt hhi => ⟨Set.Ico_subset_Ico hlo hhi, fun _ => Set.nonempty_Ico.mpr hlt⟩
    unfold cut at hc
    split at hc
    · obtain ⟨rest, hr, rfl⟩ := Option.map_eq_some_iff.mp hc
      refine ⟨hhead _ _ le_rfl le_rfl, ?_⟩
      exact (ih hgs hm.2 (fun _ => ⟨subset_rfl, id⟩) hr).mono hrest subset_rfl id
    split at hc
    · cases hc
      exact ⟨hhead _ _ le_rfl le_rfl, hm.2.mono hold subset_rfl id⟩
    split at hc
    · split at hc
      · next hin =>
        cases hc
        obtain ⟨hsub, hne⟩ := hself b g.hi (by omega) hin le_rfl
        exact ⟨hhead b g.hi (by omega) le_rfl, hm.2.mono hold hsub hne⟩
      split at hc
      · cases hc
      · refine (ih hgs hm.2 (fun h => ?_) hc).mono hrest subset_rfl id
        cases h
    split at hc
    · obtain ⟨rest, hr, rfl⟩ := Option.map_eq_some_iff.mp hc
      have hshrunk := hself g.lo a le_rfl (by omega) (by omega)
      refine ⟨hhead g.lo a le_rfl (by omega), ?_⟩
      exact (ih hgs hm.2 (fun _ => hshrunk) hr).mono hrest subset_rfl id
    · cases hc
      refine ⟨hhead g.lo a le_rfl (by omega), fun h => ?_, ?_⟩
      · cases h
      -- the gap behind the new one is stale now
      cases gs with
      | nil => trivial
      | cons g' gs =>
        have hsplit : ∀ c ∈ Set.Ico b g.hi, SplitBy a b (g :: g' :: gs) c := by
          intro c hc
          refine ⟨hc.1, g.lo, by omega, g, List.mem_cons_self, ⟨le_rfl, hg⟩, ?_, hc.2⟩
          exact le_of_lt (lt_of_lt_of_le (by omega) hc.1)
        refine ⟨fun _ => ⟨Set.nonempty_Ico.mpr (show b < g.hi by omega), fun c hc x _ => ?_⟩, ?_⟩
        · exact .inr (hsplit c hc)
        · exact hm.2.2.mono hold subset_rfl id

/-- The gap that is in the way, with a byte of the one before it that stays. -/
theorem cut_none (hlt : ∀ g ∈ gs, g.lo < g.hi) (hm : Marked P C gs)
    (hD : fresh = false → D ⊆ C ∧ (C.Nonempty → D.Nonempty))
    (hout : fresh = false → ∀ c ∈ D, c < a ∨ b ≤ c) (hc : cut a b fresh gs = none) :
    ∃ c, (c < a ∨ b ≤ c) ∧ ∃ g ∈ gs, a ≤ g.lo ∧ g.hi ≤ b ∧ ∀ x ∈ g.bytes, P c x := by
  induction gs generalizing fresh C D with
  | nil => cases hc
  | cons g gs ih =>
    obtain ⟨hg, hgs⟩ := List.forall_mem_cons.mp hlt
    have hrest : ∀ {fresh C D}, Marked P C gs →
        (fresh = false → D ⊆ C ∧ (C.Nonempty → D.Nonempty)) →
        (fresh = false → ∀ c ∈ D, c < a ∨ b ≤ c) → cut a b fresh gs = none →
        ∃ c, (c < a ∨ b ≤ c) ∧ ∃ g' ∈ g :: gs, a ≤ g'.lo ∧ g'.hi ≤ b ∧ ∀ x ∈ g'.bytes, P c x := by
      intro fresh C D hm hD hout hc
      obtain ⟨c, hc, g', hg', h⟩ := ih hgs hm hD hout hc
      exact ⟨c, hc, g', List.mem_cons_of_mem g hg', h⟩
    unfold cut at hc
    split at hc
    · next hbefore =>
      refine hrest hm.2 (fun _ => ⟨subset_rfl, id⟩) (fun _ c hc => ?_) (Option.map_eq_none_iff.mp hc)
      exact .inl (hc.2.trans_le hbefore)
    split at hc
    · cases hc
    split at hc
    · split at hc
      · cases hc
      split at hc
      · next hstale =>
        simp only [Bool.and_eq_true, Bool.not_eq_true'] at hstale
        obtain ⟨hsub, hne⟩ := hD hstale.2
        obtain ⟨hC, hP⟩ := hm.1 hstale.1
        obtain ⟨c, hcD⟩ := hne hC
        exact ⟨c, hout hstale.2 c hcD, g, List.mem_cons_self, by omega, by omega,
          hP c (hsub hcD)⟩
      · refine hrest (D := D) hm.2 (fun h => ?_) (fun h => ?_) hc
        · cases h
        · cases h
    split at hc
    · refine hrest hm.2 (fun _ => ⟨Set.Ico_subset_Ico_right (?_ : a ≤ g.hi), fun _ => ?_⟩)
        (fun _ c hc => .inl hc.2) (Option.map_eq_none_iff.mp hc)
      · omega
      · exact Set.nonempty_Ico.mpr (by omega)
    · cases hc

/-! ## The gaps of an area -/

/-- Where a region ends; the bytes of a file have numbers below `2 ^ 64`. -/
def stopOf (end_ : FilePos) : ℕ := if end_ = 0 then 2 ^ 64 else end_.toNat

def FileLock.bytes (k : FileLock) : Set ℕ :=
  {x | k.start ≠ k.end_ ∧ k.start.toNat ≤ x ∧ x < stopOf k.end_}

def unlocked (area : Set ℕ) (locks : List FileLock) : Set ℕ :=
  {x | x ∈ area ∧ ∀ k ∈ locks, x ∉ k.bytes}

def Joined (F : Set ℕ) (x y : ℕ) : Prop := Set.uIcc x y ⊆ F

/-- What is missing in `F` between `c` and `x` is in one piece. -/
def Neighbours (F : Set ℕ) (c x : ℕ) : Prop :=
  ∃ y z, c < y ∧ y < z ∧ z ≤ x ∧ Set.Ico c y ⊆ F ∧ Disjoint (Set.Ico y z) F ∧ Set.Icc z x ⊆ F

/-- The lock `k` splits the gap of `c`, so that `c` is on the right. -/
def Splits (F : Set ℕ) (k : FileLock) (c : ℕ) : Prop :=
  ∃ a < c, Joined F a c ∧ a ∉ k.bytes ∧ ∃ y ∈ k.bytes, a < y ∧ y < c

/-- One of the locks has split the gap of `c`, and since then it has been next to that of `x`. -/
def SplitOff (area : Set ℕ) (locks : List FileLock) (c x : ℕ) : Prop :=
  ∃ seen k rest, locks = seen ++ k :: rest ∧ Splits (unlocked area seen) k c ∧
    ∀ m, m <+: rest → Neighbours (unlocked area (seen ++ k :: m)) c x

structure GapsOf (area : Set ℕ) (locks : List FileLock) (gs : List Gap) : Prop where
  proper : Proper gs
  bytes : ∀ y, y ∈ gapBytes gs ↔ y ∈ unlocked area locks
  marked : Marked (SplitOff area locks) ∅ gs

variable {area F : Set ℕ} {seen rest : List FileLock} {k : FileLock} {c lo hi : ℕ}

theorem Marked.neighbours (hm : Marked P (Set.Ico lo hi) gs) (hle : lo ≤ hi) (h : Proper gs)
    (hafter : StartsAfter Gap.lo hi gs)
    (hF : ∀ y, lo ≤ y → (y ∈ F ↔ (lo ≤ y ∧ y < hi) ∨ y ∈ gapBytes gs)) :
    Marked (fun c x => P c x ∧ Neighbours F c x) (Set.Ico lo hi) gs := by
  induction gs generalizing lo hi with
  | nil => trivial
  | cons g gs ih =>
    obtain ⟨hg, hnext, hgs⟩ := Proper.cons_iff.mp h
    have hlt : hi < g.lo := (startsAfter_cons.mp hafter).1
    have hmem : ∀ y ∈ gapBytes gs, g.hi < y := fun y hy => lt_of_mem_gapBytes hnext hy
    simp only [mem_gapBytes_cons] at hF
    refine ⟨fun hs => ⟨(hm.1 hs).1, fun c hc x hx => ⟨(hm.1 hs).2 c hc x hx, ?_⟩⟩, ?_⟩
    · have hlo : lo ≤ c := hc.1
      refine ⟨hi, g.lo, hc.2, hlt, hx.1, fun y hy => ?_, ?_, fun y hy => ?_⟩
      · exact (hF y (hlo.trans hy.1)).mpr (.inl ⟨hlo.trans hy.1, hy.2⟩)
      · refine Set.disjoint_left.mpr fun y hy hyF => ?_
        obtain hin | hin | hin := (hF y (hle.trans hy.1)).mp hyF
        · exact absurd hin.2 (not_lt.mpr hy.1)
        · exact absurd hy.2 (not_lt.mpr hin.1)
        · exact absurd (hmem y hin) (not_lt.mpr (hy.2.le.trans hg.le))
      · refine (hF y (hle.trans (hlt.le.trans hy.1))).mpr (.inr (.inl ⟨hy.1, ?_⟩))
        exact hy.2.trans_lt hx.2
    · refine ih hm.2 hg.le hgs hnext fun y hy => ?_
      rw [hF y (hle.trans (hlt.le.trans hy))]
      exact or_iff_right fun hin => absurd hin.2 (not_lt.mpr (hlt.le.trans hy))

theorem Marked.neighbours_first (hm : Marked P ∅ gs) (h : Proper gs)
    (hF : ∀ y, y ∈ F ↔ y ∈ gapBytes gs) :
    Marked (fun c x => P c x ∧ Neighbours F c x) ∅ gs := by
  cases gs with
  | nil => trivial
  | cons g gs =>
    obtain ⟨hg, hnext, hgs⟩ := Proper.cons_iff.mp h
    refine ⟨fun hs => absurd (hm.1 hs).1 Set.not_nonempty_empty, ?_⟩
    exact Marked.neighbours hm.2 hg.le hgs hnext fun y _ => (hF y).trans mem_gapBytes_cons

theorem unlocked_snoc :
    x ∈ unlocked area (seen ++ [k]) ↔ x ∈ unlocked area seen ∧ x ∉ k.bytes := by
  simp only [unlocked, Set.mem_ofPred_eq, List.forall_mem_append, List.forall_mem_singleton,
    and_assoc]

theorem splitOff_snoc (h : SplitOff area seen c x ∨ Splits (unlocked area seen) k c)
    (hn : Neighbours (unlocked area (seen ++ [k])) c x) : SplitOff area (seen ++ [k]) c x := by
  obtain ⟨pre, l, rest, rfl, hl, hrest⟩ | hk := h
  · refine ⟨pre, l, rest ++ [k], by rw [List.append_assoc, List.cons_append], hl, fun m hm => ?_⟩
    obtain rfl | hm := List.prefix_concat_iff.mp hm
    · rwa [← List.cons_append, ← List.append_assoc]
    · exact hrest m hm
  · refine ⟨seen, k, [], rfl, hk, fun m hm => ?_⟩
    rwa [List.prefix_nil.mp hm]

theorem GapsOf.snoc (h : Proper gs') (hbytes : ∀ y, y ∈ gapBytes gs' ↔ y ∈ unlocked area (seen ++ [k]))
    (hm : Marked (fun c x => SplitOff area seen c x ∨ Splits (unlocked area seen) k c) ∅ gs') :
    GapsOf area (seen ++ [k]) gs' := by
  refine ⟨h, hbytes, ?_⟩
  have hnext := hm.neighbours_first h fun y => (hbytes y).symm
  exact hnext.mono (fun c x hx => splitOff_snoc hx.1 hx.2) subset_rfl id

/-- A lock without a byte of the area changes nothing. -/
theorem GapsOf.skip (h : GapsOf area seen gs) (hk : ∀ y ∈ area, y ∉ k.bytes) :
    GapsOf area (seen ++ [k]) gs := by
  refine .snoc h.proper (fun y => ?_) (h.marked.mono (fun _ _ => .inl) subset_rfl id)
  rw [h.bytes, unlocked_snoc]
  exact (and_iff_left_of_imp fun hy => hk y hy.1).symm

theorem GapsOf.cut (h : GapsOf area seen gs) (hab : a < b)
    (hk : ∀ y ∈ area, y ∈ k.bytes ↔ a ≤ y ∧ y < b) (hc : FileDesc.cut a b false gs = some gs') :
    GapsOf area (seen ++ [k]) gs' := by
  have hcut := cut_spec hab h.proper hc
  have harea : ∀ y ∈ gapBytes gs, y ∈ area := fun y hy => ((h.bytes y).mp hy).1
  refine .snoc hcut.proper (fun y => ?_) ?_
  · rw [hcut.bytes, unlocked_snoc, ← h.bytes]
    refine and_congr_right fun hy => ?_
    rw [hk y (harea y hy)]
    omega
  · have hm := cut_marked h.proper.lt h.marked (D := ∅) (fun _ => ⟨subset_rfl, id⟩) hc
    refine hm.mono (fun c x hx => hx.imp_right fun hs => ?_) subset_rfl id
    obtain ⟨hbc, y, hya, g, hg, hy, hcg⟩ := hs
    have hin : ∀ z, y ≤ z → z ≤ c → z ∈ gapBytes gs := fun z hyz hzc =>
      ⟨g, hg, hy.1.trans hyz, hzc.trans_lt hcg.2⟩
    have hyc : y < c := by omega
    refine ⟨y, hyc, fun z hz => ?_, ?_, a, ?_, hya, by omega⟩
    · rw [Set.uIcc_of_le hyc.le] at hz
      exact (h.bytes z).mp (hin z hz.1 hz.2)
    · rw [hk y (harea y (hin y le_rfl hyc.le))]
      omega
    · rw [hk a (harea a (hin a (by omega) (by omega)))]
      omega

/-- Around a gap there is a byte on either side that is in no gap. -/
theorem Proper.around (h : Proper gs) (hg : g ∈ gs) :
    g.hi ∉ gapBytes gs ∧ ∀ y, y + 1 = g.lo → y ∉ gapBytes gs := by
  induction gs with
  | nil => cases hg
  | cons g' gs ih =>
    obtain ⟨hg', hnext, hgs⟩ := Proper.cons_iff.mp h
    have hmem : ∀ y ∈ gapBytes gs, g'.hi < y := fun y hy => lt_of_mem_gapBytes hnext hy
    simp only [mem_gapBytes_cons, not_or]
    obtain rfl | hg := List.mem_cons.mp hg
    · refine ⟨⟨fun hin => absurd hin.2 (lt_irrefl _), fun hin => absurd (hmem _ hin) (lt_irrefl _)⟩,
        fun y hy => ⟨by omega, fun hin => ?_⟩⟩
      have hlt := hmem y hin
      omega
    · obtain ⟨hhi, hlo⟩ := ih hgs hg
      have hlt : g'.hi < g.lo := hnext g hg
      have hgap := hgs.lt g hg
      exact ⟨⟨by omega, hhi⟩, fun y hy => ⟨by omega, hlo y hy⟩⟩

theorem mem_of_joined (h : Proper gs) (hg : g ∈ gs) (hx : x ∈ g.bytes)
    (hj : Joined (gapBytes gs) x y) : y ∈ g.bytes := by
  obtain ⟨hhi, hlo⟩ := h.around hg
  obtain ⟨hxlo, hxhi⟩ := hx
  constructor
  · by_contra hlt
    refine hlo (g.lo - 1) (by omega) (hj (Set.mem_uIcc.mpr (.inr ?_)))
    omega
  · by_contra hge
    exact hhi (hj (Set.mem_uIcc.mpr (.inl ⟨hxhi.le, not_lt.mp hge⟩)))

theorem SplitOff.mem (h : SplitOff area seen c x) : c ∈ unlocked area seen := by
  obtain ⟨pre, l, rest, rfl, -, hrest⟩ := h
  obtain ⟨y, z, hcy, -, -, hfree, -⟩ := hrest rest (List.prefix_refl rest)
  exact hfree ⟨le_rfl, hcy⟩

/-- The lock that is in the way swallows the gap of `x` but not that of `c`. -/
theorem GapsOf.cut_none (h : GapsOf area seen gs) (hk : ∀ y ∈ area, y ∈ k.bytes ↔ a ≤ y ∧ y < b)
    (hc : FileDesc.cut a b false gs = none) : ∃ c x, SplitOff area seen c x ∧ c ∉ k.bytes ∧
      ∀ y, Joined (unlocked area seen) x y → y ∈ k.bytes := by
  have harea : ∀ y ∈ gapBytes gs, y ∈ area := fun y hy => ((h.bytes y).mp hy).1
  obtain ⟨c, hout, g, hg, hag, hgb, hP⟩ := FileDesc.cut_none h.proper.lt h.marked (D := ∅)
    (fun _ => ⟨subset_rfl, id⟩) (fun _ c hc => absurd hc (Set.notMem_empty c)) hc
  have hlt := h.proper.lt g hg
  have hsplit := hP g.lo ⟨le_rfl, hlt⟩
  refine ⟨c, g.lo, hsplit, ?_, fun y hy => ?_⟩
  · rw [hk c hsplit.mem.1]
    omega
  · have hbytes : unlocked area seen = gapBytes gs := Set.ext fun y => (h.bytes y).symm
    have hin := mem_of_joined h.proper hg ⟨le_rfl, hlt⟩ (hbytes ▸ hy)
    rw [hk y (harea y ⟨g, hg, hin⟩)]
    exact ⟨hag.trans hin.1, hin.2.trans_le hgb⟩

end Wine.FileDesc
