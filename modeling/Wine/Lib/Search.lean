import Mathlib.Tactic.Common
import Mathlib.Data.Int.Notation

/-!
# Binary search by a three-way comparison

`search cmp fuel lo hi` looks for a position of `[lo, hi)` at which `cmp` is 0, where `cmp i` is the
sign of the entry at `i` compared with the key. It ends with such a position, or with the place at
which the key would have to be inserted.
-/

namespace Wine.Lib

inductive SearchResult where
  | found (i : ℕ)
  | missing (i : ℕ)
  deriving DecidableEq, Repr

def search (cmp : ℕ → ℤ) : ℕ → ℕ → ℕ → SearchResult
  | 0, lo, _ => .missing lo
  | fuel + 1, lo, hi =>
    if lo < hi then
      let i := (lo + hi - 1) / 2
      if cmp i = 0 then .found i
      else if 0 < cmp i then search cmp fuel lo i
      else search cmp fuel (i + 1) hi
    else .missing lo

/-- Search among the first `n` positions. -/
def binarySearch (cmp : ℕ → ℤ) (n : ℕ) : SearchResult := search cmp n 0 n

variable {cmp : ℕ → ℤ} {n : ℕ}

/-- The comparison of the entries of a strictly increasing array with one key. -/
def Increasing (cmp : ℕ → ℤ) (n : ℕ) : Prop :=
  ∀ i j, i < j → j < n → (0 ≤ cmp i → 0 < cmp j) ∧ (cmp j ≤ 0 → cmp i < 0)

/-- What a search of a sorted array returns. -/
def Located (cmp : ℕ → ℤ) (n : ℕ) : SearchResult → Prop
  | .found i => i < n ∧ cmp i = 0
  | .missing i => i ≤ n ∧ (∀ j, j < i → cmp j < 0) ∧ ∀ j, i ≤ j → j < n → 0 < cmp j

theorem search_range (fuel : ℕ) {lo hi : ℕ} (hlo : lo ≤ hi) (hhi : hi ≤ n) :
    (∃ i, search cmp fuel lo hi = .found i ∧ i < n ∧ cmp i = 0) ∨
      ∃ i, search cmp fuel lo hi = .missing i ∧ i ≤ n := by
  induction fuel generalizing lo hi with
  | zero => exact .inr ⟨lo, rfl, Nat.le_trans hlo hhi⟩
  | succ fuel ih =>
    unfold search
    by_cases h : lo < hi
    · simp only [h, if_true]
      have hm : (lo + hi - 1) / 2 < hi := by omega
      by_cases h0 : cmp ((lo + hi - 1) / 2) = 0
      · exact .inl ⟨_, by simp only [h0, if_true], by omega, h0⟩
      · simp only [h0, if_false]
        by_cases hp : 0 < cmp ((lo + hi - 1) / 2)
        · simp only [hp, if_true]
          exact ih (by omega) (by omega)
        · simp only [hp, if_false]
          exact ih (by omega) hhi
    · simp only [h, if_false]
      exact .inr ⟨lo, rfl, Nat.le_trans hlo hhi⟩

/-- The interval that is left always holds the key if it is there: the invariant of the loop. -/
theorem search_located (hs : Increasing cmp n) {fuel lo hi : ℕ} (hfuel : hi - lo ≤ fuel)
    (hle : lo ≤ hi) (hhi : hi ≤ n) (hlow : ∀ j, j < lo → cmp j < 0)
    (hhigh : ∀ j, hi ≤ j → j < n → 0 < cmp j) : Located cmp n (search cmp fuel lo hi) := by
  induction fuel generalizing lo hi with
  | zero =>
    obtain rfl : lo = hi := by omega
    exact ⟨hhi, hlow, hhigh⟩
  | succ fuel ih =>
    unfold search
    by_cases h : lo < hi
    · simp only [h, if_true]
      have hm : (lo + hi - 1) / 2 < hi := by omega
      have hl : lo ≤ (lo + hi - 1) / 2 := by omega
      generalize (lo + hi - 1) / 2 = i at hm hl
      by_cases h0 : cmp i = 0
      · simp only [h0, if_true]
        exact ⟨by omega, h0⟩
      · simp only [h0, if_false]
        by_cases hp : 0 < cmp i
        · simp only [hp, if_true]
          refine ih (by omega) hl (by omega) hlow (fun j hj hn => ?_)
          by_cases hij : i = j
          · exact hij ▸ hp
          · exact (hs i j (by omega) hn).1 (by omega)
        · simp only [hp, if_false]
          refine ih (by omega) (by omega) hhi (fun j hj => ?_) hhigh
          by_cases hij : j = i
          · subst hij; omega
          · exact (hs j i (by omega) (by omega)).2 (by omega)
    · simp only [h, if_false]
      obtain rfl : lo = hi := by omega
      exact ⟨hhi, hlow, hhigh⟩

theorem binarySearch_located (hs : Increasing cmp n) : Located cmp n (binarySearch cmp n) :=
  search_located hs (by omega) (Nat.zero_le _) (Nat.le_refl _) (fun _ hj => absurd hj (Nat.not_lt_zero _))
    (fun _ hj hn => absurd hn (Nat.not_lt.mpr hj))

/-- Whatever the array, a position that is found holds the key and the place to insert lies within
the array or at its end. -/
theorem binarySearch_range (cmp : ℕ → ℤ) (n : ℕ) :
    (∃ i, binarySearch cmp n = .found i ∧ i < n ∧ cmp i = 0) ∨
      ∃ i, binarySearch cmp n = .missing i ∧ i ≤ n :=
  search_range n (Nat.zero_le _) (Nat.le_refl _)

/-- A sorted array holds the key exactly when the search finds it. -/
theorem binarySearch_found_iff (hs : Increasing cmp n) :
    (∃ i, binarySearch cmp n = .found i) ↔ ∃ i, i < n ∧ cmp i = 0 := by
  have hl := binarySearch_located hs
  constructor
  · rintro ⟨i, hi⟩
    rw [hi] at hl
    exact ⟨i, hl⟩
  · rintro ⟨i, hn, h0⟩
    cases hr : binarySearch cmp n with
    | found j => exact ⟨j, rfl⟩
    | missing j =>
      rw [hr] at hl
      by_cases hij : i < j
      · exact absurd (hl.2.1 i hij) (by omega)
      · exact absurd (hl.2.2 i (by omega) hn) (by omega)

/-- Inserting at the place where a search ends keeps a list sorted. -/
theorem pairwise_insertIdx {α : Type} {R : α → α → Prop} {l : List α} {i : ℕ} {a : α}
    (hl : l.Pairwise R) (hi : i ≤ l.length) (hlow : ∀ b ∈ l.take i, R b a)
    (hhigh : ∀ b ∈ l.drop i, R a b) : (l.insertIdx i a).Pairwise R := by
  induction l generalizing i with
  | nil =>
    obtain rfl : i = 0 := Nat.le_zero.mp hi
    simp
  | cons b l ih =>
    cases i with
    | zero => exact List.pairwise_cons.mpr ⟨hhigh, hl⟩
    | succ i =>
      rw [List.pairwise_cons] at hl
      rw [List.insertIdx_succ_cons, List.pairwise_cons]
      refine ⟨fun c hc => ?_, ih hl.2 (by simpa using hi)
        (fun c hc => hlow c (List.mem_cons_of_mem _ hc)) hhigh⟩
      rcases (List.mem_insertIdx (by simpa using hi)).mp hc with rfl | hc
      · exact hlow b List.mem_cons_self
      · exact hl.1 c hc

end Wine.Lib
