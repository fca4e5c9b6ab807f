import Mathlib.Data.Nat.Bitwise
import Mathlib.Order.Bounds.Basic
import Wine.Virtual.Views

/-!
# Free areas between views

The search goes over the views from one end and moves the start of the area next to each view that is
in the way, rounded to the alignment. All addresses are 32 bit wide: top down, a view below the size of
the area moves the start below 0, and the wrapped address counts as a start when it is in the range.
-/

namespace Wine.Virtual

/-- `ROUND_ADDR` -/
def roundAddr (addr mask : ℕ) : ℕ := addr - (addr &&& mask)

section Model

variable (base endAddr size mask : ℕ)

/-- The loop over the views from the last one on. -/
def topDownFrom : ℕ → List View → ℕ
  | start, [] => start
  | start, view :: views =>
    if view.limit ≤ start then start
    else if (start + size) % addressLimit ≤ view.base then topDownFrom start views
    else
      let next := roundAddr ((view.base + addressLimit - size) % addressLimit) mask
      if next = 0 ∨ endAddr ≤ next ∨ next < base then 0 else topDownFrom next views

/-- The loop over the views from the first one on. -/
def bottomUpFrom : ℕ → List View → ℕ
  | start, [] => start
  | start, view :: views =>
    if (start + size) % addressLimit ≤ view.base then start
    else if view.limit ≤ start then bottomUpFrom start views
    else
      let next := roundAddr ((view.limit + mask) % addressLimit) mask
      if next = 0 ∨ endAddr ≤ next ∨ endAddr - next < size then 0 else bottomUpFrom next views

/-- `find_free_area`; 0 is `NULL`. -/
def findFreeArea (views : List View) (topDown : Bool) : ℕ :=
  if topDown then
    let start := roundAddr ((endAddr + addressLimit - size) % addressLimit) mask
    if endAddr ≤ start ∨ start < base then 0 else topDownFrom base endAddr size mask start views.reverse
  else
    let start := roundAddr ((base + mask) % addressLimit) mask
    if endAddr ≤ start ∨ endAddr - start < size then 0
    else bottomUpFrom endAddr size mask start views

end Model

/-- What is asked for: a range below the address space limit, a size and an alignment. -/
structure AreaRequest where
  base : ℕ
  endAddr : ℕ
  size : ℕ
  bits : ℕ
  base_le : base ≤ endAddr
  end_le : endAddr ≤ 0xc0000000
  size_pos : 0 < size
  size_lt : size < addressLimit
  bits_le : bits ≤ 32

namespace AreaRequest

variable (q : AreaRequest)

def mask : ℕ := 2 ^ q.bits - 1

def alignment : ℕ := 2 ^ q.bits

def findFreeArea (views : List View) (topDown : Bool) : ℕ :=
  Virtual.findFreeArea q.base q.endAddr q.size q.mask views topDown

/-- The area at `s` overlaps no view. -/
def Free (views : List View) (s : ℕ) : Prop := ∀ v ∈ views, s + q.size ≤ v.base ∨ v.limit ≤ s

/-- An aligned area that ends in the range and overlaps no view. -/
def Fits (views : List View) (s : ℕ) : Prop :=
  s % q.alignment = 0 ∧ s + q.size ≤ q.endAddr ∧ q.Free views s

/-- Such an area that also starts in the range. -/
def Start (views : List View) (s : ℕ) : Prop := q.base ≤ s ∧ q.Fits views s

/-- The start that is to be returned: the lowest one bottom up, the highest one top down, `NULL` if
there is none other than 0. -/
def Exact (views : List View) (topDown : Bool) (result : ℕ) : Prop :=
  (result = 0 ∧ ¬∃ s, s ≠ 0 ∧ q.Start views s) ∨
    result ≠ 0 ∧ q.Start views result ∧
      ∀ s, s ≠ 0 → q.Start views s → if topDown then s ≤ result else result ≤ s

/-- The greatest aligned address that is not above `x`. -/
def round (x : ℕ) : ℕ := x / q.alignment * q.alignment

/-- How far the start of an area below address 0 lies below the end of the address space. -/
def slack : ℕ := addressLimit - q.size

/-- The area that ends at `x` would start below 0, and the search takes an address for its start: the
wrapped start is in the range, and the views in `rest` do not make the search go below the range. -/
def Astray (x : ℕ) (rest : List View) : Prop :=
  q.base ≤ q.round (x + q.slack) ∧ q.round (x + q.slack) < q.endAddr ∧
    ∃ s, s % q.alignment = 0 ∧ s ≠ 0 ∧ q.base ≤ s ∧ s ≤ q.round (x + q.slack) ∧
      (s < q.slack ∨ ∀ w ∈ rest, w.limit ≤ s ∨ s - q.slack ≤ w.base)

/-- Top down, no start goes astray: neither the first one, when the size exceeds the end of the range,
nor one below a view that is in the way of the highest start that the views above it leave. -/
def TopDownFits (views : List View) : Prop :=
  (q.endAddr < q.size → ¬q.Astray q.endAddr views) ∧
    (q.size ≤ q.endAddr → ∀ lower v upper, views = lower ++ v :: upper → v.base < q.size →
      ∀ c, IsGreatest {s | q.Start upper s} c → (c ≠ 0 ∨ c = q.round (q.endAddr - q.size)) →
        c < v.limit → v.base < c + q.size → ¬q.Astray v.base lower)

/-- Bottom up, address 0 is not free when there is another start, and when no aligned address follows
the base there is no area below it, or one at address 0. -/
def BottomUpFits (views : List View) : Prop :=
  (q.base + q.mask < addressLimit → q.Start views 0 → ¬∃ s, s ≠ 0 ∧ q.Start views s) ∧
    (addressLimit ≤ q.base + q.mask → (∃ s, q.Fits views s) → q.Fits views 0)

variable {q} {views rest vs : List View} {v w : View} {x s c : ℕ}

theorem alignment_pos : 0 < q.alignment := Nat.two_pow_pos q.bits

theorem mask_eq : q.mask + 1 = q.alignment := Nat.sub_add_cancel alignment_pos

theorem roundAddr_eq : roundAddr x q.mask = q.round x := by
  rw [roundAddr, mask, Nat.and_two_pow_sub_one_eq_mod, round, alignment]
  have hdiv := Nat.div_add_mod x (2 ^ q.bits)
  rw [Nat.mul_comm] at hdiv
  omega

theorem round_le : q.round x ≤ x := Nat.div_mul_le_self x q.alignment

theorem round_aligned : q.round x % q.alignment = 0 := Nat.mul_mod_left _ _

theorem lt_round_add : x < q.round x + q.alignment := Nat.lt_div_mul_add alignment_pos

/-- Rounding down does not pass an aligned address. -/
theorem le_round_iff (hs : s % q.alignment = 0) : s ≤ q.round x ↔ s ≤ x := by
  refine ⟨fun h => Nat.le_trans h round_le, fun h => ?_⟩
  have hdiv : s / q.alignment * q.alignment = s := Nat.div_mul_cancel (Nat.dvd_of_mod_eq_zero hs)
  rw [round, ← hdiv]
  exact Nat.mul_le_mul_right _ (Nat.div_le_div_right h)

theorem round_mono {y : ℕ} (h : x ≤ y) : q.round x ≤ q.round y :=
  (le_round_iff round_aligned).mpr (Nat.le_trans round_le h)

/-- Rounding up does not pass an aligned address. -/
theorem round_up_le_iff (hs : s % q.alignment = 0) : q.round (x + q.mask) ≤ s ↔ x ≤ s := by
  have hmask := mask_eq (q := q)
  have hlt := lt_round_add (q := q) (x := x + q.mask)
  constructor
  · intro h
    omega
  · intro h
    by_contra hlt'
    have hle : q.round (x + q.mask) ≤ x + q.mask := round_le
    have hgap : s + q.alignment ≤ q.round (x + q.mask) := by
      have hmod := round_aligned (q := q) (x := x + q.mask)
      obtain ⟨a, ha⟩ := Nat.dvd_of_mod_eq_zero hs
      obtain ⟨b, hb⟩ := Nat.dvd_of_mod_eq_zero hmod
      rw [ha, hb] at hlt' ⊢
      have hab : a < b := Nat.lt_of_mul_lt_mul_left (Nat.lt_of_not_le hlt')
      calc q.alignment * a + q.alignment = q.alignment * (a + 1) := (Nat.mul_succ _ _).symm
        _ ≤ q.alignment * b := Nat.mul_le_mul_left _ hab
    omega

theorem slack_add : q.slack + q.size = addressLimit := Nat.sub_add_cancel (Nat.le_of_lt q.size_lt)

/-- The start of an area that ends at `x`. -/
theorem start_before (hsize : q.size ≤ x) (hx : x < addressLimit) :
    roundAddr ((x + addressLimit - q.size) % addressLimit) q.mask = q.round (x - q.size) := by
  have hpos := q.size_pos
  rw [show x + addressLimit - q.size = x - q.size + addressLimit by omega, Nat.add_mod_right,
    Nat.mod_eq_of_lt (by omega), roundAddr_eq]

/-- The wrapped start of an area that ends at `x` and starts below 0. -/
theorem start_wrapped (hx : x + q.slack < addressLimit) :
    roundAddr ((x + addressLimit - q.size) % addressLimit) q.mask = q.round (x + q.slack) := by
  have hslack := q.slack_add
  rw [show x + addressLimit - q.size = x + q.slack by omega, Nat.mod_eq_of_lt hx, roundAddr_eq]

/-- The wrapped search from `c` on: it ends with a start unless the views lead it below the range. -/
theorem topDownFrom_astray (hc : c = q.round (x + q.slack)) (hx : x + q.slack < addressLimit)
    (hend : c < q.endAddr) (hbase : q.base ≤ c) (hne : c ≠ 0)
    (hvs : vs.Pairwise fun v w => w.limit ≤ v.base) (hrest : c < q.slack → ∀ w ∈ vs, w.base ≤ x) :
    topDownFrom q.base q.endAddr q.size q.mask c vs ≠ 0 ↔
      ∃ s, s % q.alignment = 0 ∧ s ≠ 0 ∧ q.base ≤ s ∧ s ≤ c ∧
        (s < q.slack ∨ ∀ w ∈ vs, w.limit ≤ s ∨ s - q.slack ≤ w.base) := by
  have hsize := q.size_lt
  have hslack := q.slack_add
  have hcx : c ≤ x + q.slack := by
    rw [hc]
    exact round_le
  have haligned : c % q.alignment = 0 := by
    rw [hc]
    exact round_aligned
  induction vs generalizing x c with
  | nil =>
    exact iff_of_true hne ⟨c, haligned, hne, hbase, Nat.le_refl c,
      Or.inr fun w hw => absurd hw List.not_mem_nil⟩
  | cons v vs ih =>
    obtain ⟨hfirst, hvs'⟩ := List.pairwise_cons.mp hvs
    have hv := v.toRange.base_lt_limit
    rw [topDownFrom]
    by_cases hbreak : v.limit ≤ c
    · rw [if_pos hbreak]
      refine iff_of_true hne ⟨c, haligned, hne, hbase, Nat.le_refl c, Or.inr fun w hw => ?_⟩
      rcases List.mem_cons.mp hw with rfl | hw
      · exact Or.inl hbreak
      · have hle := hfirst w hw
        exact Or.inl (by omega)
    rw [if_neg hbreak]
    by_cases hlow : c < q.slack
    · -- the wrapped search stays where it is
      have hfound : ∃ s, s % q.alignment = 0 ∧ s ≠ 0 ∧ q.base ≤ s ∧ s ≤ c ∧
          (s < q.slack ∨ ∀ w ∈ vs, w.limit ≤ s ∨ s - q.slack ≤ w.base) :=
        ⟨c, haligned, hne, hbase, Nat.le_refl c, Or.inl hlow⟩
      have hgo := (ih hc hx hend hbase hne hvs'
        (fun h w hw => hrest h w (List.mem_cons_of_mem _ hw)) hcx haligned).mpr hfound
      have hsame : q.round (v.base + q.slack) = c := by
        have hvx := hrest hlow v List.mem_cons_self
        apply Nat.le_antisymm
        · rw [hc]
          exact round_mono (by omega)
        · exact (le_round_iff haligned).mpr (by omega)
      refine iff_of_true ?_ ⟨c, haligned, hne, hbase, Nat.le_refl c, Or.inl hlow⟩
      split
      · exact hgo
      · have hvx := hrest hlow v List.mem_cons_self
        rw [start_wrapped (by omega), hsame]
        dsimp only
        rw [if_neg (by omega)]
        exact hgo
    · have hmod : (c + q.size) % addressLimit = c - q.slack := by
        rw [Nat.mod_eq_sub_mod (by omega), Nat.mod_eq_of_lt (by omega)]
        omega
      rw [hmod]
      by_cases hskip : c - q.slack ≤ v.base
      · rw [if_pos hskip]
        refine (ih hc hx hend hbase hne hvs' (fun h => absurd h hlow) hcx haligned).trans ?_
        refine exists_congr fun s => and_congr_right fun _ => and_congr_right fun _ =>
          and_congr_right fun _ => and_congr_right fun hs => or_congr_right ?_
        rw [List.forall_mem_cons, and_iff_right (Or.inr (by omega))]
      · rw [if_neg hskip]
        have hle : q.round (v.base + q.slack) ≤ v.base + q.slack := round_le
        -- what is astray among all views is so below this one
        have hbelow : ∀ s, s % q.alignment = 0 → s ≤ c →
            (s < q.slack ∨ ∀ w ∈ v :: vs, w.limit ≤ s ∨ s - q.slack ≤ w.base) →
            s ≤ q.round (v.base + q.slack) := by
          intro s hs hsc hfree
          rw [le_round_iff hs]
          rcases hfree with hfree | hfree
          · omega
          · rcases hfree v List.mem_cons_self with h | h <;> omega
        rw [start_wrapped (by omega)]
        dsimp only
        split
        · next hreject =>
          refine iff_of_false (not_not_intro rfl) ?_
          rintro ⟨s, hs, hzero, hbs, hsc, hfree⟩
          have hsle := hbelow s hs hsc hfree
          omega
        · next haccept =>
          have hbases : ∀ w ∈ vs, w.base ≤ v.base := by
            intro w hw
            have hw' := hfirst w hw
            have hlt := w.toRange.base_lt_limit
            omega
          refine (ih rfl (by omega) (by omega) (by omega) (by omega) hvs' (fun _ => hbases) hle
            round_aligned).trans ?_
          constructor
          · rintro ⟨s, hs, hzero, hbs, hsn, hfree⟩
            refine ⟨s, hs, hzero, hbs, by omega, hfree.imp_right fun h => ?_⟩
            rw [List.forall_mem_cons]
            exact ⟨Or.inr (by omega), h⟩
          · rintro ⟨s, hs, hzero, hbs, hsc, hfree⟩
            exact ⟨s, hs, hzero, hbs, hbelow s hs hsc hfree,
              hfree.imp_right fun h w hw => h w (List.mem_cons_of_mem _ hw)⟩

theorem start_cons : q.Start (v :: vs) s ↔ (s + q.size ≤ v.base ∨ v.limit ≤ s) ∧ q.Start vs s := by
  rw [Start, Fits, Free, List.forall_mem_cons, Start, Fits, Free]
  constructor
  · exact fun ⟨hb, ha, he, hv, hf⟩ => ⟨hv, hb, ha, he, hf⟩
  · exact fun ⟨hv, hb, ha, he, hf⟩ => ⟨hb, ha, he, hv, hf⟩

/-- The starts that are not above `c`. -/
def startsBelow (q : AreaRequest) (c : ℕ) (vs : List View) : Set ℕ := {s | s ≤ c ∧ q.Start vs s}

/-- The greatest number of a set, or 0 when there is none other than 0. -/
def HighestOf (starts : Set ℕ) (result : ℕ) : Prop :=
  (result = 0 ∧ ∀ s ∈ starts, s = 0) ∨ result ≠ 0 ∧ IsGreatest starts result

/-- From `c` on no start goes astray; the views are in descending order. -/
def FitsBelow (q : AreaRequest) (c : ℕ) (vs : List View) : Prop :=
  ∀ upper v lower, vs = upper ++ v :: lower → v.base < q.size →
    ∀ c', IsGreatest (q.startsBelow c upper) c' → (c' ≠ 0 ∨ c' = c) →
      c' < v.limit → v.base < c' + q.size → ¬q.Astray v.base lower

theorem mem_startsBelow : s ∈ q.startsBelow c vs ↔ s ≤ c ∧ q.Start vs s := Iff.rfl

theorem highestOf_of_isGreatest {starts : Set ℕ} (h : IsGreatest starts c) : HighestOf starts c := by
  by_cases hc : c = 0
  · refine Or.inl ⟨hc, fun s hs => ?_⟩
    have hle := h.2 hs
    omega
  · exact Or.inr ⟨hc, h⟩

theorem highestOf_of_forall_zero {starts : Set ℕ} (h : ∀ s ∈ starts, s = 0) :
    HighestOf starts x ↔ x = 0 := by
  constructor
  · rintro (hx | ⟨hx, hgreatest⟩)
    · exact hx.1
    · exact h x hgreatest.1
  · exact fun hx => Or.inl ⟨hx, h⟩

theorem isGreatest_startsBelow (h : q.Start vs c) : IsGreatest (q.startsBelow c vs) c :=
  ⟨⟨Nat.le_refl c, h⟩, fun _ hs => hs.1⟩

/-- When `c` is a start, no view is in the way. -/
theorem fitsBelow_self (h : q.Start vs c) : q.FitsBelow c vs := by
  intro upper v lower heq hsize c' hgreatest hne hlt hbase
  have hupper : q.Start upper c := by
    refine ⟨h.1, h.2.1, h.2.2.1, fun w hw => h.2.2.2 w ?_⟩
    rw [heq]
    exact List.mem_append_left _ hw
  have hle : c ≤ c' := hgreatest.2 ⟨Nat.le_refl c, hupper⟩
  have hv := h.2.2.2 v (by rw [heq]; exact List.mem_append_right _ List.mem_cons_self)
  have hle' : c' ≤ c := hgreatest.1.1
  omega

/-- The condition on the splits of a list is one on its head and one on the splits of its tail. -/
theorem fitsBelow_cons (h : q.Start [] c) : q.FitsBelow c (v :: vs) ↔
    (v.base < q.size → c < v.limit → v.base < c + q.size → ¬q.Astray v.base vs) ∧
    ∀ upper w lower, vs = upper ++ w :: lower → w.base < q.size →
      ∀ c', IsGreatest (q.startsBelow c (v :: upper)) c' → (c' ≠ 0 ∨ c' = c) →
        c' < w.limit → w.base < c' + q.size → ¬q.Astray w.base lower := by
  constructor
  · intro hfits
    refine ⟨fun hsize => ?_, fun upper w lower heq => hfits (v :: upper) w lower ?_⟩
    · exact hfits [] v vs rfl hsize c (isGreatest_startsBelow h) (Or.inr rfl)
    · rw [heq, List.cons_append]
  · rintro ⟨hhead, htail⟩ upper w lower heq hsize c' hgreatest
    cases upper with
    | nil =>
      obtain ⟨rfl, rfl⟩ := List.cons.inj heq
      obtain rfl := hgreatest.unique (isGreatest_startsBelow h)
      exact fun _ => hhead hsize
    | cons u upper =>
      obtain ⟨rfl, rfl⟩ := List.cons.inj heq
      exact htail upper w lower rfl hsize c' hgreatest

/-- A view that leaves the starts below `next` passes the search on to them. -/
theorem fitsBelow_cons_of_startsBelow {next : ℕ} (h : q.Start [] c)
    (hhead : v.base < q.size → c < v.limit → c + q.size ≤ v.base)
    (hstarts : ∀ us, q.startsBelow c (v :: us) = q.startsBelow next us)
    (hnext : c = next ∨ c ≠ 0 ∧ next ≠ 0) : q.FitsBelow c (v :: vs) ↔ q.FitsBelow next vs := by
  rw [fitsBelow_cons h, and_iff_right]
  · have hzero : ∀ c', c' ≠ 0 ∨ c' = c ↔ c' ≠ 0 ∨ c' = next := by omega
    simp only [hstarts, hzero, FitsBelow]
  · intro hsize hlt hbase
    have hle := hhead hsize hlt
    omega

/-- The search from an area in the range on is exact unless a start goes astray. -/
theorem topDownFrom_highest_iff (hc : c % q.alignment = 0) (hbase : q.base ≤ c)
    (hend : c + q.size ≤ q.endAddr) (hvs : vs.Pairwise fun v w => w.limit ≤ v.base) :
    HighestOf (q.startsBelow c vs) (topDownFrom q.base q.endAddr q.size q.mask c vs) ↔
      q.FitsBelow c vs := by
  have hsize := q.size_lt
  have hpos := q.size_pos
  have hslack := q.slack_add
  have hlimit : addressLimit = 0x100000000 := rfl
  have hendle := q.end_le
  induction vs generalizing c with
  | nil =>
    have hstart : q.Start [] c := ⟨hbase, hc, hend, fun w hw => absurd hw List.not_mem_nil⟩
    exact iff_of_true (highestOf_of_isGreatest (isGreatest_startsBelow hstart)) (fitsBelow_self hstart)
  | cons v vs ih =>
    obtain ⟨hfirst, hvs'⟩ := List.pairwise_cons.mp hvs
    have hv := v.toRange.base_lt_limit
    rw [topDownFrom]
    by_cases hbreak : v.limit ≤ c
    · rw [if_pos hbreak]
      have hstart : q.Start (v :: vs) c := by
        refine ⟨hbase, hc, hend, fun w hw => ?_⟩
        rcases List.mem_cons.mp hw with rfl | hw
        · exact Or.inr hbreak
        · have hle := hfirst w hw
          exact Or.inr (by omega)
      exact iff_of_true (highestOf_of_isGreatest (isGreatest_startsBelow hstart))
        (fitsBelow_self hstart)
    have hnil : q.Start [] c := ⟨hbase, hc, hend, fun w hw => absurd hw List.not_mem_nil⟩
    rw [if_neg hbreak, Nat.mod_eq_of_lt (by omega)]
    by_cases hskip : c + q.size ≤ v.base
    · have hstarts : ∀ us, q.startsBelow c (v :: us) = q.startsBelow c us := by
        intro us
        ext s
        rw [mem_startsBelow, start_cons]
        exact and_congr_right fun hs => and_iff_right (Or.inl (by omega))
      rw [if_pos hskip, hstarts, fitsBelow_cons_of_startsBelow hnil (fun _ _ => hskip) hstarts
        (Or.inl rfl)]
      exact ih hc hbase hend hvs'
    rw [if_neg hskip]
    by_cases hwrap : v.base < q.size
    · -- the area before this view would start below 0
      have hnone : ∀ us, ∀ s, s ∉ q.startsBelow c (v :: us) := by
        intro us s hs
        rw [mem_startsBelow, start_cons] at hs
        omega
      have hfits : q.FitsBelow c (v :: vs) ↔ ¬q.Astray v.base vs := by
        rw [fitsBelow_cons hnil]
        constructor
        · exact fun h => h.1 hwrap (by omega) (by omega)
        · exact fun h => ⟨fun _ _ _ => h, fun upper w lower heq hw c' hgreatest =>
            absurd hgreatest.1 (hnone upper c')⟩
      rw [hfits, start_wrapped (by omega), highestOf_of_forall_zero fun s hs => absurd hs (hnone vs s)]
      dsimp only
      split
      · next hreject =>
        refine iff_of_true rfl ?_
        rintro ⟨hb, he, s, -, hzero, -, hs, -⟩
        omega
      · next haccept =>
        have hbases : ∀ w ∈ vs, w.base ≤ v.base := by
          intro w hw
          have hw' := hfirst w hw
          have hlt := w.toRange.base_lt_limit
          omega
        have hastray := topDownFrom_astray (q := q) (x := v.base) rfl (by omega) (by omega)
          (by omega) (by omega) hvs' fun _ => hbases
        rw [← not_iff_not, not_not, Astray]
        refine hastray.trans ?_
        rw [and_iff_right (by omega), and_iff_right (by omega)]
    · have hvlimit := v.limit_lt
      have hle : q.round (v.base - q.size) ≤ v.base - q.size := round_le
      have hstarts : ∀ us, q.startsBelow c (v :: us) = q.startsBelow (q.round (v.base - q.size)) us := by
        intro us
        ext s
        rw [mem_startsBelow, mem_startsBelow, start_cons]
        constructor
        · rintro ⟨hsc, hfree, hs⟩
          exact ⟨(le_round_iff hs.2.1).mpr (by omega), hs⟩
        · rintro ⟨hsn, hs⟩
          exact ⟨by omega, Or.inl (by omega), hs⟩
      rw [start_before (by omega) (by omega)]
      dsimp only
      split
      · next hreject =>
        have hzero : ∀ us, ∀ s ∈ q.startsBelow c (v :: us), s = 0 := by
          intro us s hs
          rw [hstarts us] at hs
          have hsle := hs.1
          have hsb := hs.2.1
          omega
        refine iff_of_true ((highestOf_of_forall_zero (hzero vs)).mpr rfl) ?_
        rw [fitsBelow_cons hnil]
        refine ⟨fun h => absurd h hwrap, fun upper w lower heq hw c' hgreatest hne => ?_⟩
        have hc' := hzero upper c' hgreatest.1
        omega
      · next haccept =>
        rw [hstarts, fitsBelow_cons_of_startsBelow hnil (fun h => absurd h hwrap) hstarts
          (Or.inr (by omega))]
        exact ih round_aligned (by omega) (by omega) hvs'

theorem exact_topDown_iff : q.Exact views true x ↔ HighestOf {s | q.Start views s} x := by
  rw [Exact, HighestOf]
  refine or_congr (and_congr_right fun _ => ?_) (and_congr_right fun _ => and_congr_right fun _ => ?_)
  · constructor
    · exact fun h s hs => by_contra fun hzero => h ⟨s, hzero, hs⟩
    · exact fun h ⟨s, hzero, hs⟩ => hzero (h s hs)
  · constructor
    · intro h s hs
      by_cases hzero : s = 0
      · rw [hzero]
        exact Nat.zero_le x
      · exact h s hzero hs
    · exact fun h s _ hs => h hs

theorem start_congr (h : ∀ w, w ∈ views ↔ w ∈ vs) : q.Start views s ↔ q.Start vs s := by
  rw [Start, Fits, Free, Start, Fits, Free]
  simp only [h]

/-- Top down: every start is not above the first one that is tried. -/
theorem startsBelow_round : q.startsBelow (q.round (q.endAddr - q.size)) vs = {s | q.Start vs s} := by
  ext s
  constructor
  · exact fun h => h.2
  · intro h
    have hend := h.2.2.1
    exact ⟨(le_round_iff h.2.1).mpr (by omega), h⟩

/-- The splits of the list are those of the reversed list, read backwards. -/
theorem topDownFits_iff_of_le (h : q.size ≤ q.endAddr) :
    q.TopDownFits views ↔ q.FitsBelow (q.round (q.endAddr - q.size)) views.reverse := by
  rw [TopDownFits, and_iff_right fun hlt => absurd h (Nat.not_le_of_lt hlt)]
  have hmem : ∀ l : List View, ∀ w, w ∈ l.reverse ↔ w ∈ l := fun l w => List.mem_reverse
  have hstart : ∀ l : List View, {s | q.Start l.reverse s} = {s | q.Start l s} := by
    intro l
    ext s
    exact start_congr (hmem l)
  have hastray : ∀ (l : List View) x, q.Astray x l.reverse ↔ q.Astray x l := by
    intro l x
    rw [Astray, Astray]
    simp only [hmem]
  constructor
  · intro hfits upper v lower heq hsize c hgreatest
    have hviews : views = lower.reverse ++ v :: upper.reverse := by
      rw [← List.reverse_reverse views, heq, List.reverse_append, List.reverse_cons, List.append_assoc,
        List.singleton_append]
    rw [startsBelow_round, ← hstart] at hgreatest
    rw [← hastray]
    exact hfits h lower.reverse v upper.reverse hviews hsize c hgreatest
  · intro hfits _ lower v upper heq hsize c hgreatest
    have hviews : views.reverse = upper.reverse ++ v :: lower.reverse := by
      rw [heq, List.reverse_append, List.reverse_cons, List.append_assoc, List.singleton_append]
    rw [← hstart] at hgreatest
    rw [← hastray]
    refine hfits upper.reverse v lower.reverse hviews hsize c ?_
    rw [startsBelow_round]
    exact hgreatest

theorem alignment_le (hs : s % q.alignment = 0) (hne : s ≠ 0) : q.alignment ≤ s :=
  Nat.le_of_dvd (Nat.pos_of_ne_zero hne) (Nat.dvd_of_mod_eq_zero hs)

/-- An address that is not rounded to 0 is less than twice what it is rounded to. -/
theorem le_round_add (h : q.round x ≠ 0) : x < q.round x + q.round x :=
  Nat.lt_of_lt_of_le lt_round_add (Nat.add_le_add_left (alignment_le round_aligned h) _)

/-- No address is taken for a start when the alignment exceeds the first one. -/
theorem topDownFrom_zero (h : q.round (q.endAddr + q.slack) = 0) :
    topDownFrom q.base q.endAddr q.size q.mask 0 vs = 0 := by
  have hslack := q.slack_add
  have hpos := q.size_pos
  have hlt := lt_round_add (q := q) (x := q.endAddr + q.slack)
  induction vs with
  | nil => rfl
  | cons v vs ih =>
    have hv := v.toRange.base_lt_limit
    rw [topDownFrom, if_neg (by omega), Nat.zero_add, Nat.mod_eq_of_lt q.size_lt]
    split
    · exact ih
    · next hwrap =>
      rw [start_wrapped (by omega)]
      dsimp only
      by_cases hnext : q.round (v.base + q.slack) = 0
      · rw [if_pos (Or.inl hnext)]
      · have hle := alignment_le round_aligned hnext
        rw [if_pos (Or.inr (Or.inl (by omega)))]

/-- Top down the search is exact unless a start goes astray. -/
theorem findFreeArea_topDown_iff (htidy : Tidy views) :
    q.Exact views true (q.findFreeArea views true) ↔ q.TopDownFits views := by
  have hsize := q.size_lt
  have hpos := q.size_pos
  have hslack := q.slack_add
  have hlimit : addressLimit = 0x100000000 := rfl
  have hendle := q.end_le
  have hdescending : views.reverse.Pairwise fun v w => w.limit ≤ v.base := by
    rw [List.pairwise_reverse]
    exact tidy_iff.mp htidy
  rw [exact_topDown_iff, findFreeArea, Virtual.findFreeArea, if_pos rfl]
  by_cases hle : q.size ≤ q.endAddr
  · have hround : q.round (q.endAddr - q.size) ≤ q.endAddr - q.size := round_le
    have hmem : {s | q.Start views s} = {s | q.Start views.reverse s} := by
      ext s
      exact start_congr fun w => List.mem_reverse.symm
    rw [topDownFits_iff_of_le hle, start_before hle (by omega), hmem, ← startsBelow_round]
    dsimp only
    split
    · next hreject =>
      have hnone : ∀ us, ∀ s, s ∉ q.startsBelow (q.round (q.endAddr - q.size)) us := by
        intro us s hs
        have hsle := hs.1
        have hsb := hs.2.1
        omega
      refine iff_of_true ((highestOf_of_forall_zero fun s hs => absurd hs (hnone _ s)).mpr rfl) ?_
      exact fun upper v lower _ _ c hgreatest => absurd hgreatest.1 (hnone upper c)
    · next haccept =>
      exact topDownFrom_highest_iff round_aligned (by omega) (by omega) hdescending
  · have hnone : ∀ s, ¬q.Start views s := by
      intro s hs
      have hend := hs.2.2.1
      omega
    have hfits : q.TopDownFits views ↔ ¬q.Astray q.endAddr views := by
      rw [TopDownFits]
      exact ⟨fun h => h.1 (by omega), fun h => ⟨fun _ => h, fun h' => absurd h' hle⟩⟩
    have hzero : ∀ s ∈ {s | q.Start views s}, s = 0 := fun s hs => absurd hs (hnone s)
    rw [hfits, start_wrapped (by omega), highestOf_of_forall_zero hzero]
    dsimp only
    split
    · next hreject =>
      refine iff_of_true rfl ?_
      rintro ⟨hb, he, -⟩
      omega
    · next haccept =>
      by_cases hne : q.round (q.endAddr + q.slack) = 0
      · rw [hne]
        refine iff_of_true (topDownFrom_zero hne) ?_
        rintro ⟨-, -, s, -, hs, -, hle, -⟩
        omega
      · have hastray := topDownFrom_astray (q := q) (x := q.endAddr) rfl (by omega) (by omega)
          (by omega) hne hdescending fun hlow => by
            have hgap := le_round_add (q := q) (x := q.endAddr + q.slack) hne
            omega
        rw [← not_iff_not, not_not, Astray]
        refine hastray.trans ?_
        rw [and_iff_right (by omega), and_iff_right (by omega)]
        simp only [List.mem_reverse]

/-- An address that wraps when it is rounded up is rounded to 0, and no aligned address follows it. -/
theorem round_wrapped (hx : x < addressLimit) (hwrap : addressLimit ≤ x + q.mask) :
    q.round ((x + q.mask) % addressLimit) = 0 ∧
      ∀ s, s % q.alignment = 0 → x ≤ s → addressLimit ≤ s := by
  have hmask := mask_eq (q := q)
  have hdvd : q.alignment ∣ addressLimit := Nat.pow_dvd_pow 2 q.bits_le
  have hle := Nat.le_of_dvd (by decide) hdvd
  constructor
  · rw [Nat.mod_eq_sub_mod hwrap, Nat.mod_eq_of_lt (by omega), round, Nat.div_eq_of_lt (by omega),
      Nat.zero_mul]
  · intro s hs hxs
    have hround := (round_up_le_iff hs).mpr hxs
    exact Nat.le_trans ((le_round_iff (Nat.mod_eq_zero_of_dvd hdvd)).mpr hwrap) hround

/-- The search from an area on returns the lowest one, or `NULL` when there is none. -/
theorem bottomUpFrom_spec (hc : c % q.alignment = 0) (hend : c + q.size ≤ q.endAddr)
    (hvs : vs.Pairwise fun v w => v.limit ≤ w.base) :
    IsLeast {s | c ≤ s ∧ q.Fits vs s} (bottomUpFrom q.endAddr q.size q.mask c vs) ∨
      bottomUpFrom q.endAddr q.size q.mask c vs = 0 ∧ ∀ s, c ≤ s → ¬q.Fits vs s := by
  have hpos := q.size_pos
  have hlimit : addressLimit = 0x100000000 := rfl
  have hendle := q.end_le
  induction vs generalizing c with
  | nil =>
    exact Or.inl ⟨⟨Nat.le_refl c, hc, hend, fun w hw => absurd hw List.not_mem_nil⟩, fun s hs => hs.1⟩
  | cons v vs ih =>
    obtain ⟨hfirst, hvs'⟩ := List.pairwise_cons.mp hvs
    have hv := v.toRange.base_lt_limit
    have hvlimit : v.limit < addressLimit := v.limit_lt
    have hcons : ∀ s, q.Fits (v :: vs) s ↔ (s + q.size ≤ v.base ∨ v.limit ≤ s) ∧ q.Fits vs s := by
      intro s
      rw [Fits, Free, List.forall_mem_cons, Fits, Free]
      constructor
      · exact fun ⟨ha, he, hw, hf⟩ => ⟨hw, ha, he, hf⟩
      · exact fun ⟨hw, ha, he, hf⟩ => ⟨ha, he, hw, hf⟩
    rw [bottomUpFrom, Nat.mod_eq_of_lt (by omega)]
    by_cases hbreak : c + q.size ≤ v.base
    · rw [if_pos hbreak]
      refine Or.inl ⟨⟨Nat.le_refl c, hc, hend, fun w hw => ?_⟩, fun s hs => hs.1⟩
      rcases List.mem_cons.mp hw with rfl | hw
      · exact Or.inl hbreak
      · have hle := hfirst w hw
        exact Or.inl (by omega)
    rw [if_neg hbreak]
    by_cases hskip : v.limit ≤ c
    · rw [if_pos hskip]
      have hsame : ∀ s, c ≤ s → (q.Fits (v :: vs) s ↔ q.Fits vs s) := fun s hs => by
        rw [hcons, and_iff_right (Or.inr (Nat.le_trans hskip hs))]
      refine (ih hc hend hvs').imp (fun h => ?_) fun h => ?_
      · exact ⟨⟨h.1.1, (hsame _ h.1.1).mpr h.1.2⟩, fun s hs => h.2 ⟨hs.1, (hsame s hs.1).mp hs.2⟩⟩
      · exact ⟨h.1, fun s hs hfits => h.2 s hs ((hsame s hs).mp hfits)⟩
    rw [if_neg hskip]
    have hbehind : ∀ s, c ≤ s → q.Fits (v :: vs) s → v.limit ≤ s := by
      intro s hs hfits
      rcases ((hcons s).mp hfits).1 with h | h <;> omega
    by_cases hwrap : addressLimit ≤ v.limit + q.mask
    · obtain ⟨hzero, hnone⟩ := round_wrapped hvlimit hwrap
      rw [roundAddr_eq, hzero]
      dsimp only
      rw [if_pos (Or.inl rfl)]
      refine Or.inr ⟨rfl, fun s hs hfits => ?_⟩
      have hge := hnone s hfits.1 (hbehind s hs hfits)
      have hse := hfits.2.1
      omega
    · have hnext : ∀ s, s % q.alignment = 0 → (q.round (v.limit + q.mask) ≤ s ↔ v.limit ≤ s) :=
        fun s hs => round_up_le_iff hs
      have hself := (hnext _ round_aligned).mp (Nat.le_refl _)
      rw [Nat.mod_eq_of_lt (by omega), roundAddr_eq]
      dsimp only
      split
      · next hreject =>
        refine Or.inr ⟨rfl, fun s hs hfits => ?_⟩
        have hge := (hnext s hfits.1).mpr (hbehind s hs hfits)
        have hse := hfits.2.1
        omega
      · next haccept =>
        have hsame : ∀ s, c ≤ s ∧ q.Fits (v :: vs) s ↔ q.round (v.limit + q.mask) ≤ s ∧ q.Fits vs s := by
          intro s
          constructor
          · exact fun ⟨hs, hfits⟩ =>
              ⟨(hnext s hfits.1).mpr (hbehind s hs hfits), ((hcons s).mp hfits).2⟩
          · intro ⟨hs, hfits⟩
            have hge := (hnext s hfits.1).mp hs
            exact ⟨by omega, (hcons s).mpr ⟨Or.inr hge, hfits⟩⟩
        simp only [← not_and, hsame]
        have hrest := ih (c := q.round (v.limit + q.mask)) round_aligned (by omega) hvs'
        simp only [← not_and] at hrest
        exact hrest

/-- Bottom up the search is exact unless it takes address 0 for none or the base wraps. -/
theorem findFreeArea_bottomUp_iff (htidy : Tidy views) :
    q.Exact views false (q.findFreeArea views false) ↔ q.BottomUpFits views := by
  have hpos := q.size_pos
  have hlimit : addressLimit = 0x100000000 := rfl
  have hendle := q.end_le
  have hbasele := q.base_le
  have hascending := tidy_iff.mp htidy
  rw [findFreeArea, Virtual.findFreeArea, if_neg Bool.false_ne_true, roundAddr_eq, BottomUpFits]
  by_cases hwrap : addressLimit ≤ q.base + q.mask
  · obtain ⟨hzero, hnone⟩ := round_wrapped (q := q) (x := q.base) (by omega) hwrap
    have hnostart : ∀ s, ¬q.Start views s := by
      intro s hs
      have hge := hnone s hs.2.1 hs.1
      have hse := hs.2.2.1
      omega
    have hexact : ∀ x, q.Exact views false x ↔ x = 0 := by
      intro x
      rw [Exact]
      constructor
      · rintro (h | h)
        · exact h.1
        · exact absurd h.2.1 (hnostart x)
      · exact fun h => Or.inl ⟨h, fun ⟨s, _, hs⟩ => hnostart s hs⟩
    rw [hzero, hexact, and_iff_right fun h => absurd h (Nat.not_lt_of_le hwrap)]
    dsimp only
    split
    · next hreject =>
      refine iff_of_true rfl fun _ ⟨s, hs⟩ => ?_
      have hse := hs.2.1
      omega
    · next haccept =>
      rcases bottomUpFrom_spec (q := q) (c := 0) (Nat.zero_mod _) (by omega) hascending with h | h
      · constructor
        · intro hres _ _
          rw [hres] at h
          exact h.1.2
        · intro hfits
          exact Nat.le_zero.mp (h.2 ⟨Nat.le_refl 0, hfits hwrap ⟨_, h.1.2⟩⟩)
      · exact iff_of_true h.1 fun _ ⟨s, hs⟩ => absurd hs (h.2 s (Nat.zero_le s))
  · rw [Nat.mod_eq_of_lt (Nat.lt_of_not_le hwrap), and_iff_left fun h => absurd h hwrap,
      forall_prop_of_true (Nat.lt_of_not_le hwrap)]
    have hstart : ∀ s, q.Start views s ↔ q.round (q.base + q.mask) ≤ s ∧ q.Fits views s := by
      intro s
      constructor
      · exact fun hs => ⟨(round_up_le_iff hs.2.1).mpr hs.1, hs.2⟩
      · exact fun hs => ⟨(round_up_le_iff hs.2.1).mp hs.1, hs.2⟩
    have hempty : (∀ s, ¬q.Start views s) →
        (q.Exact views false 0 ↔ q.Start views 0 → ¬∃ s, s ≠ 0 ∧ q.Start views s) := fun hnone =>
      iff_of_true (Or.inl ⟨rfl, fun ⟨s, _, hs⟩ => hnone s hs⟩) fun h => absurd h (hnone 0)
    dsimp only
    split
    · next hreject =>
      refine hempty fun s hs => ?_
      have hse := hs.2.2.1
      have hge := ((hstart s).mp hs).1
      omega
    · next haccept =>
      rcases bottomUpFrom_spec (q := q) (c := q.round (q.base + q.mask)) round_aligned (by omega)
        hascending with h | h
      · have hleast := h
        simp only [← hstart] at hleast
        by_cases hres : bottomUpFrom q.endAddr q.size q.mask (q.round (q.base + q.mask)) views = 0
        · rw [hres] at hleast ⊢
          constructor
          · rintro (h' | h')
            · exact fun _ => h'.2
            · exact absurd rfl h'.1
          · exact fun h' => Or.inl ⟨rfl, h' hleast.1⟩
        · refine iff_of_true (Or.inr ⟨hres, hleast.1, fun s _ hs => hleast.2 hs⟩) fun h0 => ?_
          exact absurd (Nat.le_zero.mp (hleast.2 h0)) hres
      · rw [h.1]
        exact hempty fun s hs => h.2 s ((hstart s).mp hs).1 ((hstart s).mp hs).2

/-- The condition for the direction of the search. -/
def Fitting (q : AreaRequest) (views : List View) (topDown : Bool) : Prop :=
  if topDown then q.TopDownFits views else q.BottomUpFits views

/-- The search returns the area that is to be found exactly when no wrapped address and no area at
address 0 is in its way. -/
theorem findFreeArea_exact_iff (q : AreaRequest) (views : List View) (topDown : Bool)
    (htidy : Tidy views) :
    q.Exact views topDown (q.findFreeArea views topDown) ↔ q.Fitting views topDown := by
  cases topDown with
  | true => exact findFreeArea_topDown_iff htidy
  | false => exact findFreeArea_bottomUp_iff htidy

section Samples

/-- An area of nearly two gigabytes, aligned to 64 kilobytes. -/
def largeArea : AreaRequest where
  base := 0x110000
  endAddr := 0xc0000000
  size := 0x7fc00000
  bits := 16
  base_le := by decide
  end_le := by decide
  size_pos := by decide
  size_lt := by decide
  bits_le := by decide

/-- A view that leaves less than the area on both of its sides. -/
def middleView : List View := [stale (pages 0x10000000 0x31000000 (by decide))]

theorem findFreeArea_exact_sample :
    largeArea.Exact twoStale false (largeArea.findFreeArea twoStale false) := by
  refine (findFreeArea_exact_iff largeArea twoStale false (by decide)).mpr ⟨fun _ h => ?_, fun h => ?_⟩
  · exact absurd h.1 (by decide)
  · exact absurd h (by decide)

/-- The start below the view is wrapped, and the area that is returned ends at 0x10000 again. -/
theorem not_findFreeArea_exact_wrapped : Tidy middleView ∧
    largeArea.findFreeArea middleView true = 0x90400000 ∧
      ¬largeArea.Exact middleView true (largeArea.findFreeArea middleView true) := by
  refine ⟨by decide, by decide, ?_⟩
  have hres : largeArea.findFreeArea middleView true = 0x90400000 := by decide
  rw [hres]
  rintro (h | h)
  · exact absurd h.1 (by decide)
  · exact absurd h.2.1.2.2.1 (by decide)

end Samples

end AreaRequest

end Wine.Virtual
