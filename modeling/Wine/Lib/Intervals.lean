import Mathlib.Data.Set.Lattice
import Mathlib.Order.CompletePartialOrder

/-!
# Sets as sorted lists of intervals

`lo` and `hi` give the ends of an interval `[lo a, hi a)`. In a `Separated` list each interval ends
before the next one starts, so that the first interval above or around a point decides about it.
-/

namespace Wine.Lib

variable {ι α : Type} [LinearOrder α] {lo hi : ι → α} {a b : ι} {l : List ι} {x y : α}

/-- The points of the intervals. -/
def cover (lo hi : ι → α) (l : List ι) : Set α := {x | ∃ a ∈ l, x ∈ Set.Ico (lo a) (hi a)}

structure Separated (lo hi : ι → α) (l : List ι) : Prop where
  le : ∀ a ∈ l, lo a ≤ hi a
  apart : l.Pairwise fun a b => hi a < lo b

/-- Every interval starts above `x`. -/
def StartsAfter (lo : ι → α) (x : α) (l : List ι) : Prop := ∀ a ∈ l, x < lo a

@[simp] theorem cover_nil : cover lo hi ([] : List ι) = ∅ := by
  ext x
  simp [cover]

@[simp] theorem cover_cons : cover lo hi (a :: l) = Set.Ico (lo a) (hi a) ∪ cover lo hi l := by
  ext x
  simp [cover]

theorem startsAfter_cons : StartsAfter lo x (a :: l) ↔ x < lo a ∧ StartsAfter lo x l :=
  List.forall_mem_cons

theorem StartsAfter.mono (h : StartsAfter lo y l) (hx : x ≤ y) : StartsAfter lo x l :=
  fun a ha => hx.trans_lt (h a ha)

theorem StartsAfter.not_mem_cover (h : StartsAfter lo x l) : x ∉ cover lo hi l := by
  rintro ⟨a, ha, hx⟩
  exact absurd hx.1 (not_le.mpr (h a ha))

namespace Separated

theorem nil : Separated lo hi [] := ⟨by simp, List.Pairwise.nil⟩

theorem cons_iff : Separated lo hi (a :: l) ↔
    lo a ≤ hi a ∧ StartsAfter lo (hi a) l ∧ Separated lo hi l := by
  constructor
  · rintro ⟨hle, hapart⟩
    obtain ⟨ha, hl⟩ := List.pairwise_cons.mp hapart
    exact ⟨hle a List.mem_cons_self, ha, fun b hb => hle b (List.mem_cons_of_mem a hb), hl⟩
  · rintro ⟨ha, hafter, hl⟩
    exact ⟨List.forall_mem_cons.mpr ⟨ha, hl.le⟩, List.pairwise_cons.mpr ⟨hafter, hl.apart⟩⟩

theorem cons (h : Separated lo hi l) (ha : lo a ≤ hi a) (hafter : StartsAfter lo (hi a) l) :
    Separated lo hi (a :: l) :=
  cons_iff.mpr ⟨ha, hafter, h⟩

theorem head (h : Separated lo hi (a :: l)) : lo a ≤ hi a := (cons_iff.mp h).1

theorem after (h : Separated lo hi (a :: l)) : StartsAfter lo (hi a) l := (cons_iff.mp h).2.1

theorem tail (h : Separated lo hi (a :: l)) : Separated lo hi l := (cons_iff.mp h).2.2

/-- A list that starts above a point with its first interval starts above it altogether. -/
theorem startsAfter (h : Separated lo hi (a :: l)) (hx : x < lo a) : StartsAfter lo x (a :: l) :=
  startsAfter_cons.mpr ⟨hx, h.after.mono (hx.le.trans h.head)⟩

/-- What starts inside an interval is covered as far as this interval goes. -/
theorem ico_subset_iff (h : Separated lo hi (a :: l)) (ha : lo a ≤ x) (hx : x < hi a) :
    Set.Ico x y ⊆ cover lo hi (a :: l) ↔ y ≤ hi a := by
  rw [cover_cons]
  constructor
  · intro hsub
    by_contra hlt
    rcases hsub ⟨hx.le, not_le.mp hlt⟩ with hmem | hmem
    · exact absurd hmem.2 (lt_irrefl _)
    · exact h.after.not_mem_cover hmem
  · exact fun hle z hz => .inl ⟨ha.trans hz.1, hz.2.trans_le hle⟩

end Separated

end Wine.Lib
