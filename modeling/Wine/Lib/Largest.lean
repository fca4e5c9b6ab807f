import Mathlib.Data.List.Sort

/-!
# The largest entries of a list

`IsTop key chosen l` says that `chosen` are entries of `l` with the largest keys. A selection that is
kept with its smallest entry at the end stays one when further entries are offered to it.
-/

namespace Wine.Lib
open scoped List

variable {α β : Type} [LinearOrder β] {key : α → β} {chosen chosen' front l l' : List α} {x y : α}

def IsTop (key : α → β) (chosen l : List α) : Prop :=
  ∃ rest, l.Perm (chosen ++ rest) ∧ ∀ x ∈ chosen, ∀ y ∈ rest, key y ≤ key x

theorem IsTop.refl (key : α → β) (l : List α) : IsTop key l l :=
  ⟨[], by rw [List.append_nil], fun _ _ _ hy => absurd hy List.not_mem_nil⟩

theorem IsTop.perm (h : IsTop key chosen l) (hp : chosen'.Perm chosen) : IsTop key chosen' l := by
  obtain ⟨rest, hl, hle⟩ := h
  exact ⟨rest, hl.trans (hp.symm.append_right rest), fun x hx => hle x (hp.mem_iff.mp hx)⟩

theorem IsTop.subperm (h : IsTop key chosen l) : chosen.Subperm l := by
  obtain ⟨rest, hl, -⟩ := h
  exact (List.sublist_append_left chosen rest).subperm.trans hl.symm.subperm

/-- An entry that is not larger than any chosen one is left out. -/
theorem IsTop.skip (h : IsTop key chosen l) (hx : ∀ y ∈ chosen, key x ≤ key y) :
    IsTop key chosen (l ++ [x]) := by
  obtain ⟨rest, hl, hle⟩ := h
  refine ⟨rest ++ [x], ?_, ?_⟩
  · rw [← List.append_assoc]
    exact hl.append_right [x]
  · intro y hy z hz
    rcases List.mem_append.mp hz with hz | hz
    · exact hle y hy z hz
    · rw [List.mem_singleton.mp hz]
      exact hx y hy

/-- A larger entry takes the place of the smallest one. -/
theorem IsTop.replace (h : IsTop key (front ++ [y]) l) (hx : key y < key x)
    (hy : ∀ z ∈ front, key y ≤ key z) : IsTop key (front ++ [x]) (l ++ [x]) := by
  obtain ⟨rest, hl, hle⟩ := h
  refine ⟨y :: rest, ?_, ?_⟩
  · calc l ++ [x]
      _ ~ (front ++ [y] ++ rest) ++ [x] := hl.append_right [x]
      _ = front ++ ([y] ++ rest ++ [x]) := by simp only [List.append_assoc]
      _ ~ front ++ ([x] ++ ([y] ++ rest)) := List.perm_append_comm.append_left front
      _ = front ++ [x] ++ y :: rest := by simp only [List.append_assoc, List.cons_append,
          List.nil_append]
  · intro z hz w hw
    have hyz : key y ≤ key z := by
      rcases List.mem_append.mp hz with hz | hz
      · exact hy z hz
      · rw [List.mem_singleton.mp hz]
        exact hx.le
    rcases List.mem_cons.mp hw with rfl | hw
    · exact hyz
    · exact (hle y (List.mem_append_right _ List.mem_cons_self) w hw).trans hyz

/-- The keys of the chosen entries are the first keys in decreasing order. -/
theorem IsTop.keys (h : IsTop key chosen l) :
    (chosen.map key).Perm (((l.map key).insertionSort (· ≥ ·)).take chosen.length) := by
  obtain ⟨rest, hl, hle⟩ := h
  let a := (chosen.map key).insertionSort (· ≥ ·)
  let b := (rest.map key).insertionSort (· ≥ ·)
  have ha : a.Perm (chosen.map key) := List.perm_insertionSort _ _
  have hb : b.Perm (rest.map key) := List.perm_insertionSort _ _
  have hperm : ((l.map key).insertionSort (· ≥ ·)).Perm (a ++ b) := by
    calc (l.map key).insertionSort (· ≥ ·)
      _ ~ l.map key := List.perm_insertionSort _ _
      _ ~ (chosen ++ rest).map key := hl.map key
      _ = chosen.map key ++ rest.map key := List.map_append
      _ ~ a ++ b := ha.symm.append hb.symm
  have hsorted : (a ++ b).Pairwise (· ≥ ·) := by
    refine List.pairwise_append.mpr ⟨List.pairwise_insertionSort _ _,
      List.pairwise_insertionSort _ _, fun x hx y hy => ?_⟩
    obtain ⟨x', hx', rfl⟩ := List.mem_map.mp (ha.mem_iff.mp hx)
    obtain ⟨y', hy', rfl⟩ := List.mem_map.mp (hb.mem_iff.mp hy)
    exact hle x' hx' y' hy'
  have heq : (l.map key).insertionSort (· ≥ ·) = a ++ b :=
    hperm.eq_of_pairwise' (List.pairwise_insertionSort _ _) hsorted
  have hlength : a.length = chosen.length := by rw [ha.length_eq, List.length_map]
  rw [heq, ← hlength, List.take_left]
  exact ha.symm

end Wine.Lib
