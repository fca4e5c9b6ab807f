import Mathlib.Tactic.NormNum
import Wine.Handles.Table

/-!
# The block of a handle table

Where the search for a free entry stops, what a shrunk table still holds, and the bounds that keep
every index inside the block of entries.
-/

namespace Wine.Handles
open Wine.Lib
open Wine.Server (ObjId Access intMax)

/-! ## The search for a free entry -/

theorem le_searchFrom (t : HandleTable) (n i : ℕ) : i ≤ t.searchFrom n i := by
  induction n generalizing i with
  | zero => exact le_rfl
  | succ n ih =>
    simp only [HandleTable.searchFrom]
    split
    · exact le_rfl
    · exact (Nat.le_succ i).trans (ih (i + 1))

theorem searchFrom_le (t : HandleTable) (n i : ℕ) : t.searchFrom n i ≤ i + n := by
  induction n generalizing i with
  | zero => exact le_rfl
  | succ n ih =>
    simp only [HandleTable.searchFrom]
    split
    · omega
    · have := ih (i + 1)
      omega

theorem searchFrom_ptr (t : HandleTable) {n i : ℕ} (h : t.searchFrom n i < i + n) :
    (t.entries (t.searchFrom n i)).ptr = none := by
  induction n generalizing i with
  | zero => exact absurd h (by simp [HandleTable.searchFrom])
  | succ n ih =>
    simp only [HandleTable.searchFrom] at h ⊢
    by_cases hi : (t.entries i).ptr = none
    · simpa only [if_pos hi] using hi
    · simp only [if_neg hi] at h ⊢
      exact ih (by omega)

theorem searchFrom_before (t : HandleTable) {n i j : ℕ} (hi : i ≤ j)
    (hj : j < t.searchFrom n i) : (t.entries j).ptr ≠ none := by
  induction n generalizing i with
  | zero => exact absurd hj (by simp only [HandleTable.searchFrom]; omega)
  | succ n ih =>
    simp only [HandleTable.searchFrom] at hj
    split at hj
    · omega
    · rcases hi.eq_or_lt with rfl | hi
      · assumption
      · exact ih hi hj

theorem free_le_search (t : HandleTable) : t.free ≤ t.search := le_searchFrom t _ _

theorem search_ptr (t : HandleTable) (h : (t.search : ℤ) ≤ t.last) :
    (t.entries t.search).ptr = none := by
  refine searchFrom_ptr t ?_
  unfold HandleTable.search at h
  have := free_le_search t
  unfold HandleTable.search at this
  omega

theorem search_before (t : HandleTable) {j : ℕ} (hf : t.free ≤ j) (hj : j < t.search) :
    (t.entries j).ptr ≠ none := searchFrom_before t hf hj

theorem search_of_last_lt (t : HandleTable) (h : t.last < t.search) :
    t.search = max t.free (t.last + 1).toNat := by
  have hle := searchFrom_le t (t.last + 1 - t.free).toNat t.free
  have hge := free_le_search t
  unfold HandleTable.search at h hge ⊢
  omega

theorem search_le (t : HandleTable) {i : ℕ} (hf : t.free ≤ i)
    (hi : t.last < i ∨ (t.entries i).ptr = none) : t.search ≤ i := by
  by_contra hlt
  rcases hi with hi | hi
  · have hle := searchFrom_le t (t.last + 1 - t.free).toNat t.free
    unfold HandleTable.search at hlt
    omega
  · exact search_before t hf (by omega) hi

/-! ## The last used entry -/

theorem lastUsed_lt (e : ℕ → HandleEntry) (n : ℕ) : lastUsed e n < n := by
  induction n with
  | zero => simp [lastUsed]
  | succ n ih =>
    simp only [lastUsed]
    split <;> push_cast <;> omega

theorem neg_one_le_lastUsed (e : ℕ → HandleEntry) (n : ℕ) : -1 ≤ lastUsed e n := by
  induction n with
  | zero => simp [lastUsed]
  | succ n ih =>
    simp only [lastUsed]
    split
    · exact ih
    · omega

theorem ptr_of_lastUsed_lt (e : ℕ → HandleEntry) {n i : ℕ} (hi : i < n)
    (h : lastUsed e n < i) : (e i).ptr = none := by
  induction n with
  | zero => omega
  | succ n ih =>
    simp only [lastUsed] at h
    split at h
    · rcases Nat.lt_succ_iff_lt_or_eq.mp hi with hi | rfl
      · exact ih hi h
      · assumption
    · omega

theorem le_lastUsed (e : ℕ → HandleEntry) {n i : ℕ} (hi : i < n) (h : (e i).ptr ≠ none) :
    (i : ℤ) ≤ lastUsed e n := by
  by_contra hlt
  exact h (ptr_of_lastUsed_lt e hi (by omega))

/-! ## Bounds -/

/-- The block has a power of two of entries, which keeps the doubled count below `2^31`. -/
structure HandleTable.Bounded (t : HandleTable) : Prop where
  count_eq : ∃ k, 5 ≤ k ∧ k ≤ 30 ∧ t.count = 2 ^ k
  le_last : -1 ≤ t.last
  last_lt : t.last < t.count
  free_lt : t.free < 2 * t.count

theorem HandleTable.Bounded.count_pos {t : HandleTable} (h : t.Bounded) : 32 ≤ t.count := by
  obtain ⟨k, hk, -, hc⟩ := h.count_eq
  calc 32 = 2 ^ 5 := rfl
    _ ≤ 2 ^ k := Nat.pow_le_pow_right (by omega) hk
    _ = t.count := hc.symm

theorem HandleTable.Bounded.count_le {t : HandleTable} (h : t.Bounded) : t.count ≤ 2 ^ 30 := by
  obtain ⟨k, -, hk, hc⟩ := h.count_eq
  rw [hc]
  exact Nat.pow_le_pow_right (by omega) hk

theorem bounded_allocHandleTable_zero (id : TableId) : (allocHandleTable id 0).Bounded := by
  refine ⟨⟨5, le_rfl, by omega, rfl⟩, le_rfl, ?_, ?_⟩ <;>
    simp [allocHandleTable, minHandleEntries]

theorem HandleTable.Bounded.grown {t : HandleTable} (h : t.Bounded) (hlt : t.count < intMax / 2)
    (fill : ℕ → HandleEntry) : (t.grown fill).Bounded := by
  obtain ⟨k, hk, hk', hc⟩ := h.count_eq
  have hlast := h.last_lt
  have hfree := h.free_lt
  refine ⟨⟨k + 1, by omega, ?_, ?_⟩, h.le_last, ?_, ?_⟩
  · by_contra hge
    have : k = 30 := by omega
    subst this
    norm_num [hc, intMax] at hlt
  · simp only [HandleTable.grown, hc, pow_succ]
    omega
  · simp only [HandleTable.grown]
    push_cast
    omega
  · simp only [HandleTable.grown]
    omega

theorem HandleTable.Bounded.setEntry {t : HandleTable} (h : t.Bounded) (i : ℕ) (e : HandleEntry) :
    (t.setEntry i e).Bounded := ⟨h.count_eq, h.le_last, h.last_lt, h.free_lt⟩

theorem HandleTable.Bounded.install {t : HandleTable} (h : t.Bounded) {i : ℕ} (hi : i < t.count)
    (o : ObjId) (access : Access) : (t.install i o access).Bounded :=
  ⟨h.count_eq, h.le_last, h.last_lt, by simp only [HandleTable.install]; omega⟩

theorem shrinkHandleTable_entries (t : HandleTable) (mem : Bool) :
    (shrinkHandleTable t mem).entries = t.entries := by
  simp only [shrinkHandleTable]
  split <;> rfl

theorem shrinkHandleTable_last (t : HandleTable) (mem : Bool) :
    (shrinkHandleTable t mem).last = lastUsed t.entries (t.last + 1).toNat := by
  simp only [shrinkHandleTable]
  split <;> rfl

theorem shrinkHandleTable_free (t : HandleTable) (mem : Bool) :
    (shrinkHandleTable t mem).free = t.free := by
  simp only [shrinkHandleTable]
  split <;> rfl

/-- The free hint has to be inside the old block, as the block may be halved. -/
theorem HandleTable.Bounded.shrink {t : HandleTable} (h : t.Bounded) (hfree : t.free < t.count)
    (mem : Bool) : (shrinkHandleTable t mem).Bounded := by
  have hlt := lastUsed_lt t.entries (t.last + 1).toNat
  have hge := neg_one_le_lastUsed t.entries (t.last + 1).toNat
  have hlast := h.last_lt
  have hle := h.le_last
  simp only [shrinkHandleTable]
  split
  · exact ⟨h.count_eq, hge, by simp only; omega, h.free_lt⟩
  · rename_i hshrink
    simp only [not_or, not_le, not_lt, minHandleEntries] at hshrink
    obtain ⟨k, hk, hk', hc⟩ := h.count_eq
    have hk5 : k ≠ 5 := by
      rintro rfl
      norm_num [hc] at hshrink
    obtain ⟨m, rfl⟩ : ∃ m, k = m + 1 := ⟨k - 1, by omega⟩
    have hhalf : t.count = 2 * 2 ^ m := by rw [hc, pow_succ]; omega
    refine ⟨⟨m, by omega, by omega, by simp only; omega⟩, hge, ?_, ?_⟩ <;> simp only <;> omega

/-- The table that a child process starts with. -/
theorem bounded_copied (id : TableId) {parent : HandleTable} (hb : parent.Bounded)
    (e : ℕ → HandleEntry) (mem : Bool) :
    (shrinkHandleTable { allocHandleTable id parent.count with last := parent.last, entries := e }
      mem).Bounded := by
  have hpos := hb.count_pos
  have hcount : (allocHandleTable id parent.count).count = parent.count := if_neg hpos.not_gt
  have hfree : (allocHandleTable id parent.count).free = 0 := rfl
  apply HandleTable.Bounded.shrink
  · constructor <;> simp only [hcount, hfree]
    · exact hb.count_eq
    · exact hb.le_last
    · exact hb.last_lt
    · omega
  · simp only [hcount, hfree]
    omega

theorem bounded_close {t : HandleTable} (h : t.Bounded) {i : ℕ} (hi : (i : ℤ) ≤ t.last)
    (mem : Bool) : (t.close i mem).Bounded := by
  have hlast := h.last_lt
  have hfree := h.free_lt
  have hb : ({ t.setEntry i { t.entries i with ptr := none, fd := -1 } with
      free := if i < t.free then i else t.free } : HandleTable).Bounded := by
    refine ⟨h.count_eq, h.le_last, h.last_lt, ?_⟩
    simp only [HandleTable.setEntry]
    split <;> omega
  simp only [HandleTable.close]
  split
  · refine hb.shrink ?_ mem
    simp only [HandleTable.setEntry]
    split <;> omega
  · exact hb

end Wine.Handles
