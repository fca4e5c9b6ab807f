import Mathlib.Data.List.Nodup
import Mathlib.Data.List.Perm.Basic

/-!
# Circular lists in the order of a key

A circular list is written from one fixed node on. An element that is put right behind a node, or
right before one, leaves the list in the order of its keys when no key lies between the two; from a
node on, a walk then meets every element of a greater key.
-/

namespace Wine.Lib

variable {α : Type} {key : α → ℕ} {l s t : List α} {a b p x y : α}

/-- The list is in the order of its keys and has no element twice. -/
structure Ordered (key : α → ℕ) (l : List α) : Prop where
  sorted : l.Pairwise fun a b => key a ≤ key b
  nodup : l.Nodup

namespace Ordered

theorem split (h : Ordered key l) (hx : x ∈ l) : ∃ s t, l = s ++ x :: t ∧ x ∉ s ∧ x ∉ t := by
  obtain ⟨s, t, rfl⟩ := List.append_of_mem hx
  have hnodup := h.nodup
  rw [List.nodup_append, List.nodup_cons] at hnodup
  exact ⟨s, t, rfl, fun hs => hnodup.2.2 x hs x List.mem_cons_self rfl, hnodup.2.1.1⟩

theorem sorted_append : (s ++ t).Pairwise (fun a b => key a ≤ key b) ↔
    s.Pairwise (fun a b => key a ≤ key b) ∧ t.Pairwise (fun a b => key a ≤ key b) ∧
      ∀ a ∈ s, ∀ b ∈ t, key a ≤ key b :=
  List.pairwise_append

theorem congr {key' : α → ℕ} (h : Ordered key l) (hkey : ∀ a ∈ l, key' a = key a) :
    Ordered key' l where
  nodup := h.nodup
  sorted := h.sorted.imp_of_mem fun ha hb hle => by rwa [hkey _ ha, hkey _ hb]

/-- At the end goes what has no greater key in the list. -/
theorem append (h : Ordered key l) (hp : p ∉ l) (hle : ∀ b ∈ l, key b ≤ key p) :
    Ordered key (l ++ [p]) where
  nodup := (List.perm_append_singleton p l).nodup_iff.mpr (List.nodup_cons.mpr ⟨hp, h.nodup⟩)
  sorted := by
    refine sorted_append.mpr ⟨h.sorted, List.pairwise_singleton _ p, ?_⟩
    intro a ha b hb
    rw [List.mem_singleton.mp hb]
    exact hle a ha

end Ordered

variable [DecidableEq α]

/-- The circle with `p` behind `x`. -/
def addAfter (x p : α) : List α → List α
  | [] => []
  | a :: l => if a = x then a :: p :: l else a :: addAfter x p l

def insertBefore (x p : α) : List α → List α
  | [] => []
  | a :: l => if a = x then p :: a :: l else a :: insertBefore x p l

/-- The circle with `p` before `x`: before its first node is at its end. -/
def addBefore (x p : α) (l : List α) : List α :=
  if l.head? = some x then l ++ [p] else insertBefore x p l

/-- What a walk meets from `x` on, until it is back at the first node. -/
def nodesAfter (x : α) : List α → List α
  | [] => []
  | a :: l => if a = x then l else nodesAfter x l

theorem addAfter_append (h : x ∉ s) : addAfter x p (s ++ x :: t) = s ++ x :: p :: t := by
  induction s with
  | nil => exact if_pos rfl
  | cons a s ih =>
    have ha : a ≠ x := fun he => h (he ▸ List.mem_cons_self)
    rw [List.cons_append, addAfter, if_neg ha, ih fun hx => h (List.mem_cons_of_mem a hx)]
    rfl

theorem insertBefore_append (h : x ∉ s) : insertBefore x p (s ++ x :: t) = s ++ p :: x :: t := by
  induction s with
  | nil => exact if_pos rfl
  | cons a s ih =>
    have ha : a ≠ x := fun he => h (he ▸ List.mem_cons_self)
    rw [List.cons_append, insertBefore, if_neg ha, ih fun hx => h (List.mem_cons_of_mem a hx)]
    rfl

theorem nodesAfter_append (h : x ∉ s) : nodesAfter x (s ++ x :: t) = t := by
  induction s with
  | nil => exact if_pos rfl
  | cons a s ih =>
    have ha : a ≠ x := fun he => h (he ▸ List.mem_cons_self)
    rw [List.cons_append, nodesAfter, if_neg ha, ih fun hx => h (List.mem_cons_of_mem a hx)]

theorem mem_of_mem_nodesAfter (h : a ∈ nodesAfter x l) : a ∈ l := by
  induction l with
  | nil => exact h
  | cons b l ih =>
    rw [nodesAfter] at h
    split at h
    · exact List.mem_cons_of_mem b h
    · exact List.mem_cons_of_mem b (ih h)

namespace Ordered

/-- A walk from a node meets every element of a greater key. -/
theorem mem_nodesAfter (h : Ordered key l) (hx : x ∈ l) (hy : y ∈ l) (hlt : key x < key y) :
    y ∈ nodesAfter x l := by
  obtain ⟨s, t, rfl, hs, -⟩ := h.split hx
  rw [nodesAfter_append hs]
  rcases List.mem_append.mp hy with hy | hy
  · have hle := (sorted_append.mp h.sorted).2.2 y hy x List.mem_cons_self
    omega
  · rcases List.mem_cons.mp hy with rfl | hy
    · omega
    · exact hy

theorem addAfter_perm (h : Ordered key l) (hx : x ∈ l) : (addAfter x p l).Perm (p :: l) := by
  obtain ⟨s, t, rfl, hs, -⟩ := h.split hx
  rw [addAfter_append hs]
  have hswap : (s ++ x :: p :: t).Perm (s ++ p :: x :: t) :=
    List.Perm.append_left s (List.Perm.swap p x t)
  exact hswap.trans List.perm_middle

theorem addAfter (h : Ordered key l) (hx : x ∈ l) (hp : p ∉ l) (hle : key x ≤ key p)
    (hgap : ∀ b ∈ l, b ≠ x → key b ≤ key x ∨ key p ≤ key b)
    (hunique : ∀ b ∈ l, key b = key x → b = x) : Ordered key (addAfter x p l) where
  nodup := (h.addAfter_perm hx).nodup_iff.mpr (List.nodup_cons.mpr ⟨hp, h.nodup⟩)
  sorted := by
    obtain ⟨s, t, rfl, hs, ht⟩ := h.split hx
    rw [addAfter_append hs]
    obtain ⟨hss, hst, hcross⟩ := sorted_append.mp h.sorted
    obtain ⟨hxt, htt⟩ := List.pairwise_cons.mp hst
    have hpt : ∀ b ∈ t, key p ≤ key b := by
      intro b hb
      have hmem : b ∈ s ++ x :: t := List.mem_append_right s (List.mem_cons_of_mem x hb)
      have hbx : b ≠ x := fun he => ht (he ▸ hb)
      have hxb := hxt b hb
      rcases hgap b hmem hbx with hle' | hge
      · exact absurd (hunique b hmem (Nat.le_antisymm hle' hxb)) hbx
      · exact hge
    refine sorted_append.mpr ⟨hss, List.pairwise_cons.mpr ⟨?_, List.pairwise_cons.mpr ⟨hpt, htt⟩⟩, ?_⟩
    · exact List.forall_mem_cons.mpr ⟨hle, hxt⟩
    · intro a ha b hb
      have hax := hcross a ha x List.mem_cons_self
      rcases List.mem_cons.mp hb with rfl | hb
      · exact hax
      · rcases List.mem_cons.mp hb with rfl | hb
        · exact Nat.le_trans hax hle
        · exact hcross a ha b (List.mem_cons_of_mem x hb)

theorem insertBefore_perm (h : Ordered key l) (hx : x ∈ l) :
    (insertBefore x p l).Perm (p :: l) := by
  obtain ⟨s, t, rfl, hs, -⟩ := h.split hx
  rw [insertBefore_append hs]
  exact List.perm_middle

theorem addBefore_perm (h : Ordered key l) (hx : x ∈ l) : (addBefore x p l).Perm (p :: l) := by
  rw [addBefore]
  split
  · exact List.perm_append_singleton p l
  · exact h.insertBefore_perm hx

theorem insertBefore (h : Ordered key l) (hx : x ∈ l) (hp : p ∉ l) (hle : key p ≤ key x)
    (hgap : ∀ b ∈ l, key b < key x → key b ≤ key p)
    (hunique : ∀ b ∈ l, key b = key x → b = x) : Ordered key (insertBefore x p l) where
  nodup := (h.insertBefore_perm hx).nodup_iff.mpr (List.nodup_cons.mpr ⟨hp, h.nodup⟩)
  sorted := by
    obtain ⟨s, t, rfl, hs, ht⟩ := h.split hx
    rw [insertBefore_append hs]
    obtain ⟨hss, hst, hcross⟩ := sorted_append.mp h.sorted
    obtain ⟨hxt, htt⟩ := List.pairwise_cons.mp hst
    have hsp : ∀ a ∈ s, key a ≤ key p := by
      intro a ha
      have hmem : a ∈ s ++ x :: t := List.mem_append_left _ ha
      have hax := hcross a ha x List.mem_cons_self
      rcases Nat.lt_or_ge (key a) (key x) with hlt | hge
      · exact hgap a hmem hlt
      · exact absurd (hunique a hmem (Nat.le_antisymm hax hge) ▸ ha) hs
    refine sorted_append.mpr ⟨hss, List.pairwise_cons.mpr ⟨?_, hst⟩, ?_⟩
    · exact List.forall_mem_cons.mpr ⟨hle, fun b hb => Nat.le_trans hle (hxt b hb)⟩
    · intro a ha b hb
      rcases List.mem_cons.mp hb with rfl | hb
      · exact hsp a ha
      · exact hcross a ha b hb

theorem erase (h : Ordered key l) (p : α) : Ordered key (l.erase p) :=
  ⟨h.sorted.sublist List.erase_sublist, h.nodup.erase p⟩

end Ordered

end Wine.Lib
