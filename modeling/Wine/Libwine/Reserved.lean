import Mathlib.Algebra.Group.Nat.Defs
import Mathlib.Algebra.Group.Int.Defs
import Wine.Lib.Intervals
import Wine.Lib.Runs
import Mathlib.Order.Interval.Set.LinearOrder

/-!
# The reserved areas

The list of reserved areas in an address space of `2 ^ w` bytes. Addresses and sizes are numbers
below `2 ^ w`; the arithmetic on them wraps around.
-/

namespace Wine.Reserved

structure ReservedArea where
  base : ℕ
  size : ℕ
  deriving DecidableEq, Repr

/-- `(char *)addr + size` -/
def ptrAdd (w addr size : ℕ) : ℕ := (addr + size) % 2 ^ w

/-- The difference of two pointers, as a size. -/
def ptrDiff (w addr addr' : ℕ) : ℕ := (addr + 2 ^ w - addr') % 2 ^ w

/-- The size of a range, less one byte if the range ends at the top of the address space. -/
def avoidWrap (w addr size : ℕ) : ℕ :=
  if ptrAdd w addr size = 0 then (size + 2 ^ w - 1) % 2 ^ w else size

/-- `area` has taken in the range; try to merge it with the next one too. -/
def mergeNext (w addr size : ℕ) (area : ReservedArea) : List ReservedArea → List ReservedArea
  | [] => [area]
  | next :: areas =>
    if ptrAdd w addr size = next.base then ⟨area.base, ptrAdd w area.size next.size⟩ :: areas
    else area :: next :: areas

/-- The loop of `wine_mmap_add_reserved_area`; `alloc` tells whether `malloc` succeeds. -/
def addArea (w : ℕ) (alloc : Bool) (addr size : ℕ) : List ReservedArea → List ReservedArea
  | [] => if alloc then [⟨addr, size⟩] else []
  | area :: areas =>
    if addr < area.base then
      -- try to merge with the next one
      if ptrAdd w addr size = area.base then ⟨addr, ptrAdd w area.size size⟩ :: areas
      else if alloc then ⟨addr, size⟩ :: area :: areas
      else area :: areas
    else if ptrAdd w area.base area.size = addr then
      -- merge with the previous one
      mergeNext w addr size ⟨area.base, ptrAdd w area.size size⟩ areas
    else area :: addArea w alloc addr size areas

def wineMmapAddReservedArea (w : ℕ) (alloc : Bool) (addr size : ℕ) (areas : List ReservedArea) :
    List ReservedArea :=
  addArea w alloc addr (avoidWrap w addr size) areas

/-- The loop of `wine_mmap_remove_reserved_area`. -/
def removeArea (w : ℕ) (alloc : Bool) (addr size : ℕ) : List ReservedArea → List ReservedArea
  | [] => []
  | area :: areas =>
    if ptrAdd w addr size ≤ area.base then area :: areas
    else if addr < ptrAdd w area.base area.size then
      if addr ≤ area.base then
        if ptrAdd w addr size < ptrAdd w area.base area.size then
          -- range overlaps beginning of area only
          ⟨ptrAdd w addr size,
            ptrDiff w area.size (ptrDiff w (ptrAdd w addr size) area.base)⟩ :: areas
        else removeArea w alloc addr size areas
      else if ptrAdd w addr size < ptrAdd w area.base area.size then
        -- range is in the middle of area
        if alloc then
          ⟨area.base, ptrDiff w addr area.base⟩ ::
            ⟨ptrAdd w addr size,
              ptrDiff w (ptrAdd w area.base area.size) (ptrAdd w addr size)⟩ :: areas
        else ⟨area.base, ptrDiff w addr area.base⟩ :: areas
      else
        -- range overlaps end of area only
        ⟨area.base, ptrDiff w addr area.base⟩ :: removeArea w alloc addr size areas
    else area :: removeArea w alloc addr size areas

def wineMmapRemoveReservedArea (w : ℕ) (alloc : Bool) (addr size : ℕ)
    (areas : List ReservedArea) : List ReservedArea :=
  removeArea w alloc addr (avoidWrap w addr size) areas

def wineMmapIsInReservedArea (w addr size : ℕ) : List ReservedArea → ℤ
  | [] => 0
  | area :: areas =>
    if addr < area.base then 0
    else if ptrAdd w area.base area.size ≤ addr then wineMmapIsInReservedArea w addr size areas
    -- area must contain block completely
    else if ptrAdd w area.base area.size < ptrAdd w addr size then -1
    else 1

end Wine.Reserved

/-!
## Reserved areas as a set of addresses

The list stands for the addresses of its areas, and adding and removing ranges are union and
difference of sets. The last byte of the address space is in no area. The query is answered by the
first area around the start of the range, so that a range that starts below an area is not seen to
meet it.
-/

namespace Wine.Reserved
open Lib

def ReservedArea.stop (area : ReservedArea) : ℕ := area.base + area.size

@[simp] theorem stop_mk (base size : ℕ) : ReservedArea.stop ⟨base, size⟩ = base + size := rfl

theorem ReservedArea.stop_eq (area : ReservedArea) : area.stop = area.base + area.size := rfl

/-- The addresses of the areas. -/
def addresses (areas : List ReservedArea) : Set ℕ :=
  cover ReservedArea.base ReservedArea.stop areas

/-- A list of areas as the operations leave it. Only an area that starts at the last byte can be
empty. -/
structure Sound (w : ℕ) (areas : List ReservedArea) : Prop where
  separated : Separated ReservedArea.base ReservedArea.stop areas
  fits : ∀ area ∈ areas, area.stop < 2 ^ w
  last : ∀ area ∈ areas, area.size = 0 → area.base + 1 = 2 ^ w

variable {w addr n : ℕ} {area : ReservedArea} {areas : List ReservedArea}

theorem ptrAdd_eq {a m : ℕ} (h : a + m < 2 ^ w) : ptrAdd w a m = a + m := Nat.mod_eq_of_lt h

theorem ptrDiff_eq {a b : ℕ} (h : b ≤ a) (ha : a < 2 ^ w) : ptrDiff w a b = a - b := by
  rw [ptrDiff, show a + 2 ^ w - b = a - b + 2 ^ w by omega, Nat.add_mod_right]
  exact Nat.mod_eq_of_lt (by omega)

namespace Sound

theorem nil : Sound w [] := ⟨Separated.nil, by simp, by simp⟩

theorem cons_iff : Sound w (area :: areas) ↔ area.stop < 2 ^ w ∧
    (area.size = 0 → area.base + 1 = 2 ^ w) ∧
    StartsAfter ReservedArea.base area.stop areas ∧ Sound w areas := by
  constructor
  · rintro ⟨hsep, hfits, hlast⟩
    obtain ⟨hfit, hfits⟩ := List.forall_mem_cons.mp hfits
    obtain ⟨hempty, hlast⟩ := List.forall_mem_cons.mp hlast
    exact ⟨hfit, hempty, hsep.after, hsep.tail, hfits, hlast⟩
  · rintro ⟨hfit, hempty, hafter, hsep, hfits, hlast⟩
    exact ⟨hsep.cons (Nat.le_add_right _ _) hafter, List.forall_mem_cons.mpr ⟨hfit, hfits⟩,
      List.forall_mem_cons.mpr ⟨hempty, hlast⟩⟩

theorem cons (h : Sound w areas) (hfit : area.stop < 2 ^ w)
    (hempty : area.size = 0 → area.base + 1 = 2 ^ w)
    (hafter : StartsAfter ReservedArea.base area.stop areas) : Sound w (area :: areas) :=
  cons_iff.mpr ⟨hfit, hempty, hafter, h⟩

theorem fit (h : Sound w (area :: areas)) : area.stop < 2 ^ w := (cons_iff.mp h).1

theorem empty (h : Sound w (area :: areas)) : area.size = 0 → area.base + 1 = 2 ^ w :=
  (cons_iff.mp h).2.1

theorem after (h : Sound w (area :: areas)) : StartsAfter ReservedArea.base area.stop areas :=
  (cons_iff.mp h).2.2.1

theorem tail (h : Sound w (area :: areas)) : Sound w areas := (cons_iff.mp h).2.2.2

/-- A range that starts below an area and does not meet it ends before it. -/
theorem le_base (h : Sound w (area :: areas)) (hn : addr + n < 2 ^ w)
    (hdis : Disjoint (Set.Ico addr (addr + n)) (addresses (area :: areas)))
    (hlt : addr < area.base) : addr + n ≤ area.base := by
  by_contra hgt
  have hempty := h.empty
  have hfit := h.fit
  unfold ReservedArea.stop at hfit
  have hmem : area.base ∈ addresses (area :: areas) := by
    refine ⟨area, List.mem_cons_self, le_rfl, ?_⟩
    unfold ReservedArea.stop
    omega
  exact Set.disjoint_left.mp hdis ⟨hlt.le, not_le.mp hgt⟩ hmem

/-- A range that starts after the start of an area and does not meet it starts after its end. -/
theorem stop_le (h : Sound w (area :: areas)) (hempty : n = 0 → addr + 1 = 2 ^ w)
    (hdis : Disjoint (Set.Ico addr (addr + n)) (addresses (area :: areas)))
    (hle : area.base ≤ addr) : area.stop ≤ addr := by
  by_contra hgt
  have hfit := h.fit
  have hmem : addr ∈ addresses (area :: areas) :=
    ⟨area, List.mem_cons_self, hle, not_le.mp hgt⟩
  exact Set.disjoint_left.mp hdis ⟨le_rfl, by omega⟩ hmem

end Sound

theorem addresses_cons :
    addresses (area :: areas) = Set.Ico area.base area.stop ∪ addresses areas :=
  cover_cons

theorem addresses_nil : addresses [] = ∅ := cover_nil

/-! ## Adding a range -/

/-- What the loop makes of a sound list: it is sound again and has the addresses of the range as
well, and it does not start before both. -/
structure Adds (w addr n : ℕ) (areas areas' : List ReservedArea) : Prop where
  sound : Sound w areas'
  addresses_eq : addresses areas' = Set.Ico addr (addr + n) ∪ addresses areas
  startsAfter : ∀ x, x < addr → StartsAfter ReservedArea.base x areas →
    StartsAfter ReservedArea.base x areas'

/-- The new area in front of areas that start after it. -/
theorem Adds.front (hs : Sound w areas) (hn : addr + n < 2 ^ w)
    (hempty : n = 0 → addr + 1 = 2 ^ w)
    (hafter : StartsAfter ReservedArea.base (addr + n) areas) :
    Adds w addr n areas (⟨addr, n⟩ :: areas) where
  sound := hs.cons hn hempty hafter
  addresses_eq := addresses_cons
  startsAfter _ hx h := startsAfter_cons.mpr ⟨hx, h⟩

/-- The range is joined to the area that starts where it ends. -/
theorem Adds.merge_above (hs : Sound w (area :: areas)) (hbase : addr + n = area.base) :
    Adds w addr n (area :: areas) (⟨addr, area.size + n⟩ :: areas) := by
  have hfit := hs.fit
  have hempty := hs.empty
  have hstop : ReservedArea.stop ⟨addr, area.size + n⟩ = area.stop := by
    rw [stop_mk, area.stop_eq]
    omega
  refine ⟨hs.tail.cons (hstop ▸ hfit) (fun h => ?_) (hstop ▸ hs.after), ?_, fun x hx h => ?_⟩
  · simp only at h
    simp only
    omega
  · rw [addresses_cons, addresses_cons, hstop, ← Set.union_assoc, hbase]
    congr 1
    exact (Set.Ico_union_Ico_eq_Ico (hbase ▸ Nat.le_add_right _ _) (Nat.le_add_right _ _)).symm
  · exact startsAfter_cons.mpr ⟨hx, (startsAfter_cons.mp h).2⟩

/-- The range is joined to the area that ends where it starts. -/
theorem Adds.merge_below (hs : Sound w (area :: areas)) (hn : addr + n < 2 ^ w)
    (hstop : area.stop = addr) (hafter : StartsAfter ReservedArea.base (addr + n) areas) :
    Adds w addr n (area :: areas) (⟨area.base, area.size + n⟩ :: areas) := by
  have hempty := hs.empty
  have hend : ReservedArea.stop ⟨area.base, area.size + n⟩ = addr + n := by
    rw [area.stop_eq] at hstop
    rw [stop_mk]
    omega
  refine ⟨hs.tail.cons (hend ▸ hn) (fun h => hempty ?_) (hend ▸ hafter), ?_, fun x _ h => ?_⟩
  · simp only at h
    omega
  · rw [addresses_cons, addresses_cons, hend, ← Set.union_assoc, hstop,
      Set.union_comm (Set.Ico addr _)]
    congr 1
    exact (Set.Ico_union_Ico_eq_Ico (hstop ▸ Nat.le_add_right _ _) (Nat.le_add_right _ _)).symm
  · exact startsAfter_cons.mpr ⟨(startsAfter_cons.mp h).1, (startsAfter_cons.mp h).2⟩

/-- The range fills the gap between two areas. -/
theorem Adds.merge_both {next : ReservedArea} (hs : Sound w (area :: next :: areas))
    (hstop : area.stop = addr) (hbase : addr + n = next.base) :
    Adds w addr n (area :: next :: areas)
      (⟨area.base, area.size + n + next.size⟩ :: areas) := by
  have hempty := hs.tail.empty
  have hfit := hs.tail.fit
  have hend : ReservedArea.stop ⟨area.base, area.size + n + next.size⟩ = next.stop := by
    rw [area.stop_eq] at hstop
    rw [stop_mk, next.stop_eq]
    omega
  refine ⟨hs.tail.tail.cons (hend ▸ hfit) (fun h => ?_) (hend ▸ hs.tail.after), ?_, fun x _ h => ?_⟩
  · rw [area.stop_eq] at hstop
    simp only at h ⊢
    omega
  · have hlow : area.base ≤ addr := hstop ▸ Nat.le_add_right _ _
    have hmid : addr ≤ next.base := hbase ▸ Nat.le_add_right _ _
    have hhigh : next.base ≤ next.stop := Nat.le_add_right _ _
    have hgap : Set.Ico area.base next.stop =
        Set.Ico area.base addr ∪ Set.Ico addr (addr + n) ∪ Set.Ico next.base next.stop := by
      rw [hbase, Set.Ico_union_Ico_eq_Ico hlow hmid,
        Set.Ico_union_Ico_eq_Ico (hlow.trans hmid) hhigh]
    rw [addresses_cons, addresses_cons, addresses_cons, hend, hgap, hstop,
      Set.union_comm (Set.Ico area.base addr), Set.union_assoc, Set.union_assoc]
  · obtain ⟨hx, hrest⟩ := startsAfter_cons.mp h
    exact startsAfter_cons.mpr ⟨hx, (startsAfter_cons.mp hrest).2⟩

theorem mergeNext_spec (hs : Sound w (area :: areas)) (hn : addr + n < 2 ^ w)
    (hdis : Disjoint (Set.Ico addr (addr + n)) (addresses areas)) (hstop : area.stop = addr) :
    Adds w addr n (area :: areas) (mergeNext w addr n ⟨area.base, area.size + n⟩ areas) := by
  cases areas with
  | nil => exact Adds.merge_below hs hn hstop (by simp [StartsAfter])
  | cons next areas =>
      have hlt : addr < next.base := hstop ▸ (startsAfter_cons.mp hs.after).1
      have hle := hs.tail.le_base hn hdis hlt
      have hfit := hs.tail.fit
      rw [next.stop_eq] at hfit
      rw [area.stop_eq] at hstop
      rw [mergeNext, ptrAdd_eq hn]
      by_cases hmerge : addr + n = next.base
      · rw [if_pos hmerge, ptrAdd_eq (by simp only; omega)]
        exact Adds.merge_both hs hstop hmerge
      · rw [if_neg hmerge]
        exact Adds.merge_below hs hn hstop (hs.tail.separated.startsAfter (by omega))

/-- The range lies above the first area, which stays as it is. -/
theorem Adds.below {areas' : List ReservedArea} (hs : Sound w (area :: areas))
    (hlt : area.stop < addr) (h : Adds w addr n areas areas') :
    Adds w addr n (area :: areas) (area :: areas') where
  sound := h.sound.cons hs.fit hs.empty (h.startsAfter _ hlt hs.after)
  addresses_eq := by
    rw [addresses_cons, addresses_cons, h.addresses_eq, Set.union_left_comm]
  startsAfter x hx hafter :=
    startsAfter_cons.mpr ⟨(startsAfter_cons.mp hafter).1,
      h.startsAfter x hx (startsAfter_cons.mp hafter).2⟩

theorem addArea_spec (hs : Sound w areas) (hn : addr + n < 2 ^ w)
    (hempty : n = 0 → addr + 1 = 2 ^ w)
    (hdis : Disjoint (Set.Ico addr (addr + n)) (addresses areas)) :
    Adds w addr n areas (addArea w true addr n areas) := by
  induction areas with
  | nil => exact Adds.front Sound.nil hn hempty (by simp [StartsAfter])
  | cons area areas ih =>
      have hfit := hs.fit
      rw [area.stop_eq] at hfit
      rw [addArea, ptrAdd_eq hn, ptrAdd_eq hfit]
      by_cases hlt : addr < area.base
      · have hle := hs.le_base hn hdis hlt
        rw [if_pos hlt, if_pos rfl]
        by_cases hmerge : addr + n = area.base
        · rw [if_pos hmerge, ptrAdd_eq (by omega)]
          exact Adds.merge_above hs hmerge
        · rw [if_neg hmerge]
          exact Adds.front hs hn hempty (hs.separated.startsAfter (by omega))
      · have hle := hs.stop_le hempty hdis (not_lt.mp hlt)
        have hrest : Disjoint (Set.Ico addr (addr + n)) (addresses areas) :=
          hdis.mono_right (addresses_cons ▸ Set.subset_union_right)
        rw [if_neg hlt]
        by_cases hstop : area.base + area.size = addr
        · rw [if_pos hstop, ptrAdd_eq (by omega)]
          exact mergeNext_spec hs hn hrest hstop
        · rw [if_neg hstop]
          exact Adds.below hs (lt_of_le_of_ne hle hstop) (ih hs.tail hrest)

/-! ## Removing a range -/

structure Removes (w addr n : ℕ) (areas areas' : List ReservedArea) : Prop where
  sound : Sound w areas'
  addresses_eq : addresses areas' = addresses areas \ Set.Ico addr (addr + n)
  startsAfter : ∀ x, StartsAfter ReservedArea.base x areas → StartsAfter ReservedArea.base x areas'

/-- Areas that start after the range are not changed. -/
theorem Removes.rest {x : ℕ} (hs : Sound w areas) (h : StartsAfter ReservedArea.base x areas)
    (hx : addr + n ≤ x + 1) : Removes w addr n areas areas := by
  refine ⟨hs, (sdiff_eq_left.mpr ?_).symm, fun _ h => h⟩
  refine Set.disjoint_left.mpr fun y hy hpost => ?_
  obtain ⟨_, hlt⟩ := hpost
  exact (h.mono (by omega)).not_mem_cover hy

/-- The first area is replaced by what the range leaves of it. -/
theorem Removes.head {area' : ReservedArea} {areas' : List ReservedArea}
    (hs : Sound w (area :: areas)) (hbase : area.base ≤ area'.base) (hstop : area'.stop ≤ area.stop)
    (hempty : area'.size = 0 → area'.base + 1 = 2 ^ w)
    (hleft : Set.Ico area.base area.stop \ Set.Ico addr (addr + n) =
      Set.Ico area'.base area'.stop)
    (h : Removes w addr n areas areas') : Removes w addr n (area :: areas) (area' :: areas') where
  sound := h.sound.cons (hstop.trans_lt hs.fit) hempty ((h.startsAfter _ hs.after).mono hstop)
  addresses_eq := by
    rw [addresses_cons, addresses_cons, Set.union_sdiff_distrib, hleft, h.addresses_eq]
  startsAfter x hafter := by
    obtain ⟨hx, hrest⟩ := startsAfter_cons.mp hafter
    exact startsAfter_cons.mpr ⟨hx.trans_le hbase, h.startsAfter x hrest⟩

/-- The first area lies inside the range. -/
theorem Removes.drop {areas' : List ReservedArea} (hlow : addr ≤ area.base)
    (hhigh : area.stop ≤ addr + n) (h : Removes w addr n areas areas') :
    Removes w addr n (area :: areas) areas' where
  sound := h.sound
  addresses_eq := by
    have hsub : Set.Ico area.base area.stop \ Set.Ico addr (addr + n) = ∅ :=
      Set.sdiff_eq_empty.mpr (Set.Ico_subset_Ico hlow hhigh)
    rw [addresses_cons, Set.union_sdiff_distrib, hsub, Set.empty_union, h.addresses_eq]
  startsAfter x hafter := h.startsAfter x (startsAfter_cons.mp hafter).2

/-- The range leaves two areas of the first one. -/
theorem Removes.split (hs : Sound w (area :: areas)) (hn : n ≠ 0) (hlow : area.base < addr)
    (hhigh : addr + n < area.stop) : Removes w addr n (area :: areas)
      (⟨area.base, addr - area.base⟩ :: ⟨addr + n, area.stop - (addr + n)⟩ :: areas) := by
  have hfit := hs.fit
  have hstop : ReservedArea.stop ⟨addr + n, area.stop - (addr + n)⟩ = area.stop := by
    rw [stop_mk]
    omega
  have hstop' : ReservedArea.stop ⟨area.base, addr - area.base⟩ = addr := by
    rw [stop_mk]
    omega
  have hupper : Sound w (⟨addr + n, area.stop - (addr + n)⟩ :: areas) := by
    refine hs.tail.cons (by rw [hstop]; exact hfit) (fun h => ?_) (by rw [hstop]; exact hs.after)
    simp only at h
    omega
  have hapart : StartsAfter ReservedArea.base addr
      (⟨addr + n, area.stop - (addr + n)⟩ :: areas) :=
    startsAfter_cons.mpr ⟨by simp only; omega, hs.after.mono (by omega)⟩
  refine ⟨hupper.cons (by rw [hstop']; omega) (fun h => ?_) (by rw [hstop']; exact hapart), ?_,
    fun x h => ?_⟩
  · simp only at h
    omega
  · have hleft : Set.Ico area.base area.stop \ Set.Ico addr (addr + n) =
        Set.Ico area.base addr ∪ Set.Ico (addr + n) area.stop := by
      ext x
      simp only [Set.mem_sdiff, Set.mem_union, Set.mem_Ico]
      omega
    rw [addresses_cons, addresses_cons, addresses_cons, hstop, hstop', Set.union_sdiff_distrib,
      hleft, ← (Removes.rest hs.tail hs.after (by omega) : Removes w addr n _ _).addresses_eq,
      Set.union_assoc]
  · obtain ⟨hx, hrest⟩ := startsAfter_cons.mp h
    exact startsAfter_cons.mpr ⟨hx, startsAfter_cons.mpr ⟨by simp only; omega, hrest⟩⟩

theorem removeArea_spec (hs : Sound w areas) (hn : addr + n < 2 ^ w)
    (hempty : n = 0 → addr + 1 = 2 ^ w) :
    Removes w addr n areas (removeArea w true addr n areas) := by
  induction areas with
  | nil =>
      refine ⟨hs, ?_, fun _ h => h⟩
      rw [removeArea, addresses_nil, Set.empty_sdiff]
  | cons area areas ih =>
      have hrec := ih hs.tail
      have hfit := hs.fit
      have hlast := hs.empty
      have hstop := area.stop_eq
      have hleft : ∀ lo hi : ℕ, (∀ x, (area.base ≤ x ∧ x < area.stop) ∧ ¬(addr ≤ x ∧ x < addr + n) ↔
          lo ≤ x ∧ x < hi) →
          Set.Ico area.base area.stop \ Set.Ico addr (addr + n) = Set.Ico lo hi :=
        fun lo hi h => Set.ext h
      rw [removeArea, ptrAdd_eq hn, ptrAdd_eq hfit, ← hstop]
      by_cases hout : addr + n ≤ area.base
      · -- outside the range
        rw [if_pos hout]
        exact .head hs le_rfl le_rfl hlast (hleft _ _ fun x => by omega)
          (.rest hs.tail hs.after (by omega))
      rw [if_neg hout]
      by_cases hover : addr < area.stop
      · rw [if_pos hover]
        by_cases hbase : addr ≤ area.base
        · rw [if_pos hbase]
          by_cases hend : addr + n < area.stop
          · -- the range takes away the beginning of the area
            rw [if_pos hend, ptrDiff_eq (a := addr + n) (by omega) (by omega),
              ptrDiff_eq (by omega) (by omega)]
            refine .head hs (by simp only; omega) (by rw [stop_mk]; omega)
              (fun h => by simp only at h; omega) (hleft _ _ fun x => ?_)
              (.rest hs.tail hs.after (by omega))
            simp only [stop_mk]
            omega
          · -- the range takes away the whole area
            rw [if_neg hend]
            exact .drop hbase (not_lt.mp hend) hrec
        · rw [if_neg hbase]
          by_cases hend : addr + n < area.stop
          · -- the range splits the area
            rw [if_pos hend, if_pos rfl, ptrDiff_eq (by omega) (by omega),
              ptrDiff_eq (by omega) (by omega)]
            exact .split hs (fun h => by have := hempty h; omega) (not_le.mp hbase) hend
          · -- the range takes away the end of the area
            rw [if_neg hend, ptrDiff_eq (by omega) (by omega)]
            refine .head hs le_rfl (by rw [stop_mk]; omega) (fun h => by simp only at h; omega)
              (hleft _ _ fun x => ?_) hrec
            simp only [stop_mk]
            omega
      · rw [if_neg hover]
        exact .head hs le_rfl le_rfl hlast (hleft _ _ fun x => by omega) hrec

/-! ## The query -/

theorem isIn_of_not_mem {size : ℕ} (hs : Sound w areas) (h : addr ∉ addresses areas) :
    wineMmapIsInReservedArea w addr size areas = 0 := by
  induction areas with
  | nil => rfl
  | cons area areas ih =>
      rw [addresses_cons] at h
      have hrest : addr ∉ addresses areas := fun hmem => h (.inr hmem)
      have hstop : ptrAdd w area.base area.size = area.stop := ptrAdd_eq hs.fit
      rw [wineMmapIsInReservedArea, hstop]
      by_cases hlt : addr < area.base
      · rw [if_pos hlt]
      · have hle : area.stop ≤ addr := not_lt.mp fun hgt => h (.inl ⟨not_lt.mp hlt, hgt⟩)
        rw [if_neg hlt, if_pos hle, ih hs.tail hrest]

/-- The area around the start of the range decides. -/
theorem isIn_of_mem (size : ℕ) (hs : Sound w areas) (h : addr ∈ addresses areas) :
    (ptrAdd w addr size = 0 → wineMmapIsInReservedArea w addr size areas = 1) ∧
    (ptrAdd w addr size = addr + size →
      (Set.Ico addr (addr + size) ⊆ addresses areas ∧
        wineMmapIsInReservedArea w addr size areas = 1) ∨
      (¬Set.Ico addr (addr + size) ⊆ addresses areas ∧
        wineMmapIsInReservedArea w addr size areas = -1)) := by
  induction areas with
  | nil => simp [addresses_nil] at h
  | cons area areas ih =>
      have hstop : ptrAdd w area.base area.size = area.stop := ptrAdd_eq hs.fit
      rw [wineMmapIsInReservedArea, hstop]
      by_cases hhead : area.base ≤ addr ∧ addr < area.stop
      · obtain ⟨hlow, hhigh⟩ := hhead
        rw [if_neg (not_lt.mpr hlow), if_neg (not_le.mpr hhigh)]
        refine ⟨fun htop => by rw [htop, if_neg (Nat.not_lt_zero _)], fun hend => ?_⟩
        have hsub : Set.Ico addr (addr + size) ⊆ addresses (area :: areas) ↔
            addr + size ≤ area.stop := hs.separated.ico_subset_iff hlow hhigh
        rw [hend, hsub]
        by_cases hlt : area.stop < addr + size
        · exact .inr ⟨not_le.mpr hlt, if_pos hlt⟩
        · exact .inl ⟨not_lt.mp hlt, if_neg hlt⟩
      · have hrest : addr ∈ addresses areas := by
          rw [addresses_cons] at h
          exact h.resolve_left hhead
        have hafter : area.stop < addr :=
          not_le.mp fun hle => (hs.after.mono hle).not_mem_cover hrest
        have hlow : ¬addr < area.base := by
          rw [area.stop_eq] at hafter
          omega
        have hsub : Set.Ico addr (addr + size) ⊆ addresses (area :: areas) ↔
            Set.Ico addr (addr + size) ⊆ addresses areas := by
          rw [addresses_cons]
          refine ⟨fun hsub x hx => (hsub hx).resolve_left fun hmem => ?_,
            fun hsub => hsub.trans Set.subset_union_right⟩
          exact absurd (hafter.trans_le hx.1) (not_lt.mpr hmem.2.le)
        rw [if_neg hlow, if_pos hafter.le, hsub]
        exact ih hs.tail hrest

/-! ## Runs -/

/-- A range of the address space: it is not empty, and it may end at the top. -/
structure Range (w : ℕ) where
  addr : ℕ
  size : ℕ
  pos : 0 < size
  size_lt : size < 2 ^ w
  fits : addr + size ≤ 2 ^ w

def Range.bytes (r : Range w) : Set ℕ := Set.Ico r.addr (r.addr + r.size)

/-- The bytes of a range but for the last one of the address space. -/
def Range.usable (r : Range w) : Set ℕ := r.bytes \ {2 ^ w - 1}

theorem Range.ptrAdd_cases (r : Range w) :
    (r.addr + r.size = 2 ^ w ∧ ptrAdd w r.addr r.size = 0 ∧
      avoidWrap w r.addr r.size = r.size - 1) ∨
    (r.addr + r.size < 2 ^ w ∧ ptrAdd w r.addr r.size = r.addr + r.size ∧
      avoidWrap w r.addr r.size = r.size) := by
  have hpos := r.pos
  have hlt := r.size_lt
  rcases r.fits.lt_or_eq with h | h
  · have heq : ptrAdd w r.addr r.size = r.addr + r.size := ptrAdd_eq h
    exact .inr ⟨h, heq, if_neg (by omega)⟩
  · have heq : ptrAdd w r.addr r.size = 0 := by rw [ptrAdd, h, Nat.mod_self]
    refine .inl ⟨h, heq, ?_⟩
    rw [avoidWrap, if_pos heq, show r.size + 2 ^ w - 1 = r.size - 1 + 2 ^ w by omega,
      Nat.add_mod_right, Nat.mod_eq_of_lt (by omega)]

/-- What the loops work with: the size without the last byte of the address space. -/
theorem Range.avoidWrap_spec (r : Range w) :
    r.addr + avoidWrap w r.addr r.size < 2 ^ w ∧
    (avoidWrap w r.addr r.size = 0 → r.addr + 1 = 2 ^ w) ∧
    Set.Ico r.addr (r.addr + avoidWrap w r.addr r.size) = r.usable := by
  have hpos := r.pos
  rcases r.ptrAdd_cases with ⟨h, -, heq⟩ | ⟨h, -, heq⟩ <;> rw [heq]
  · refine ⟨by omega, by omega, ?_⟩
    ext x
    simp only [Range.usable, Range.bytes, Set.mem_sdiff, Set.mem_Ico, Set.mem_singleton_iff]
    omega
  · refine ⟨h, by omega, ?_⟩
    ext x
    simp only [Range.usable, Range.bytes, Set.mem_sdiff, Set.mem_Ico, Set.mem_singleton_iff]
    omega

inductive AreaOp (w : ℕ)
  | add (r : Range w)
  | remove (r : Range w)

/-- The list, beside the set of addresses that the same calls give. -/
structure State where
  areas : List ReservedArea
  bytes : Set ℕ

def init : State := ⟨[], ∅⟩

def step (w : ℕ) (s : State) : AreaOp w → Except Empty State
  | .add r => .ok ⟨wineMmapAddReservedArea w true r.addr r.size s.areas, s.bytes ∪ r.bytes⟩
  | .remove r => .ok ⟨wineMmapRemoveReservedArea w true r.addr r.size s.areas, s.bytes \ r.bytes⟩

/-- Callers add only ranges that meet no current area. -/
def CallOk (s : State) : AreaOp w → Prop
  | .add r => Disjoint r.bytes (addresses s.areas)
  | .remove _ => True

/-- The list is sound and stands for the set, but for the last byte of the address space. -/
structure Represents (w : ℕ) (s : State) : Prop where
  sound : Sound w s.areas
  addresses_eq : addresses s.areas = s.bytes \ {2 ^ w - 1}

theorem represents_step {s s' : State} {op : AreaOp w} (h : Represents w s) (hok : CallOk s op)
    (hst : step w s op = .ok s') : Represents w s' := by
  cases op with
  | add r =>
      cases hst
      obtain ⟨hfit, hempty, hbytes⟩ := r.avoidWrap_spec
      have hadd := addArea_spec h.sound hfit hempty (hbytes ▸ hok.mono_left Set.sdiff_subset)
      refine ⟨hadd.sound, hadd.addresses_eq.trans ?_⟩
      rw [hbytes, h.addresses_eq, Set.union_comm, Set.union_sdiff_distrib]
      rfl
  | remove r =>
      cases hst
      obtain ⟨hfit, hempty, hbytes⟩ := r.avoidWrap_spec
      have hremove := removeArea_spec h.sound hfit hempty
      refine ⟨hremove.sound, hremove.addresses_eq.trans ?_⟩
      rw [hbytes, h.addresses_eq, Range.usable]
      ext x
      simp only [Set.mem_sdiff, Set.mem_singleton_iff]
      tauto

theorem represents_run {s : State} {ops : List (AreaOp w)} (h : Run (step w) CallOk init ops s) :
    Represents w s :=
  h.invariant ⟨Sound.nil, by simp [init, addresses_nil]⟩ fun _ _ _ ht hok hst =>
    represents_step ht hok hst

open Classical in
/-- How a range lies to a set: inside it, apart from it, or neither. -/
noncomputable def inclusion (r s : Set ℕ) : ℤ := if Disjoint r s then 0 else if r ⊆ s then 1 else -1

/-- The ranges about which the query is right. -/
def Answered (r : Range w) (areas : List ReservedArea) : Prop :=
  Disjoint r.usable (addresses areas) ∨
    (r.addr ∈ addresses areas ∧ (r.addr + r.size < 2 ^ w ∨ r.usable ⊆ addresses areas))

theorem isIn_eq_inclusion_iff (hs : Sound w areas) (r : Range w) :
    wineMmapIsInReservedArea w r.addr r.size areas = inclusion r.usable (addresses areas) ↔
      Answered r areas := by
  obtain ⟨-, -, hbytes⟩ := r.avoidWrap_spec
  unfold inclusion Answered
  by_cases haddr : r.addr ∈ addresses areas
  · obtain ⟨htop, hbelow⟩ := isIn_of_mem r.size hs haddr
    have hmeet : ¬Disjoint r.usable (addresses areas) := by
      obtain ⟨area, harea, hlow, hhigh⟩ := haddr
      have hfit := hs.fits area harea
      refine Set.not_disjoint_iff.mpr ⟨r.addr, ?_, area, harea, hlow, hhigh⟩
      exact ⟨⟨le_rfl, Nat.lt_add_of_pos_right r.pos⟩, by simp only [Set.mem_singleton_iff]; omega⟩
    rw [if_neg hmeet]
    rcases r.ptrAdd_cases with ⟨hend, hptr, -⟩ | ⟨hend, hptr, heq⟩
    · rw [htop hptr]
      by_cases hsub : r.usable ⊆ addresses areas
      · simp [hsub, haddr]
      · simp [hsub, hmeet, hend]
    · rw [heq] at hbytes
      rcases hbelow hptr with ⟨hsub, hret⟩ | ⟨hsub, hret⟩ <;> rw [hbytes] at hsub <;> rw [hret]
      · simp [hsub, haddr]
      · simp [hsub, haddr, hend]
  · rw [isIn_of_not_mem hs haddr]
    by_cases hdis : Disjoint r.usable (addresses areas)
    · simp [hdis]
    · by_cases hsub : r.usable ⊆ addresses areas <;> simp [hdis, hsub, haddr]

/-- In every run the list stays sorted, its areas apart, and it stands for the set of addresses
that the calls have added and removed, but for the last byte of the address space. The query is
right exactly about ranges that meet no area or start inside one; a range that ends at the top of
the address space has to lie in the areas as far as that byte. -/
theorem reserved_areas {s : State} {ops : List (AreaOp w)}
    (h : Run (step w) CallOk init ops s) :
    Separated ReservedArea.base ReservedArea.stop s.areas ∧
    addresses s.areas = s.bytes \ {2 ^ w - 1} ∧
    ∀ r : Range w, wineMmapIsInReservedArea w r.addr r.size s.areas =
      inclusion r.usable (addresses s.areas) ↔ Answered r s.areas := by
  obtain ⟨hs, haddr⟩ := represents_run h
  exact ⟨hs.separated, haddr, isIn_eq_inclusion_iff hs⟩

/-- Reserving 64 KB at 1 MB, and then the space between it and 2 MB. -/
theorem reserved_areas_two :
    ∃ s : State, s.areas = [⟨0x100000, 0x100000⟩] ∧
      Separated ReservedArea.base ReservedArea.stop s.areas ∧
      addresses s.areas = s.bytes \ {2 ^ 32 - 1} ∧
      ∀ r : Range 32, wineMmapIsInReservedArea 32 r.addr r.size s.areas =
        inclusion r.usable (addresses s.areas) ↔ Answered r s.areas := by
  let r : Range 32 := ⟨0x100000, 0x10000, by decide, by decide, by decide⟩
  let r' : Range 32 := ⟨0x110000, 0xf0000, by decide, by decide, by decide⟩
  have hfirst : Run (step 32) CallOk init [.add r] ⟨[⟨0x100000, 0x10000⟩], ∅ ∪ r.bytes⟩ :=
    .single (by simp [CallOk, init, addresses_nil])
      (by simp [step, init, wineMmapAddReservedArea, avoidWrap, ptrAdd, addArea, r])
  have hsecond : Run (step 32) CallOk init [.add r, .add r']
      ⟨[⟨0x100000, 0x100000⟩], ∅ ∪ r.bytes ∪ r'.bytes⟩ := by
    refine hfirst.trans (.single ?_
      (by simp [step, wineMmapAddReservedArea, avoidWrap, ptrAdd, addArea, mergeNext, r']))
    refine Set.disjoint_left.mpr fun x hx hx' => ?_
    rw [addresses_cons, addresses_nil, Set.union_empty] at hx'
    exact absurd hx.1 (not_le.mpr hx'.2)
  exact ⟨_, rfl, reserved_areas hsecond⟩

/-- A range that starts below the only area and reaches into it is reported as not included. -/
theorem isIn_starts_below :
    ¬∀ (s : State) (ops : List (AreaOp 32)), Run (step 32) CallOk init ops s →
      ∀ r : Range 32, wineMmapIsInReservedArea 32 r.addr r.size s.areas =
        inclusion r.usable (addresses s.areas) := by
  intro h
  let r : Range 32 := ⟨0x1000, 0x1000, by decide, by decide, by decide⟩
  let r' : Range 32 := ⟨0x800, 0x1000, by decide, by decide, by decide⟩
  have hrun : Run (step 32) CallOk init [.add r] ⟨[⟨0x1000, 0x1000⟩], ∅ ∪ r.bytes⟩ :=
    .single (by simp [CallOk, init, addresses_nil])
      (by simp [step, init, wineMmapAddReservedArea, avoidWrap, ptrAdd, addArea, r])
  have hanswer : Answered r' [⟨0x1000, 0x1000⟩] :=
    (isIn_eq_inclusion_iff (represents_run hrun).sound r').mp (h _ _ hrun r')
  rcases hanswer with hdis | ⟨⟨area, harea, hlow, -⟩, -⟩
  · have hstart : 0x1000 ∈ r'.usable := by
      refine ⟨⟨by decide, by decide⟩, ?_⟩
      simp
    exact Set.disjoint_left.mp hdis hstart ⟨_, List.mem_cons_self, le_rfl, by decide⟩
  · rw [List.mem_singleton.mp harea] at hlow
    exact absurd hlow (by decide)

end Wine.Reserved
