import Wine.Unicode
import Mathlib.Data.List.Lex
import Mathlib.Tactic.NormNum

/-!
# Names in the registry

Keys and values are ordered by the comparison of `find_subkey` and `find_value`: the common prefix
without regard to case, then the lengths, whose difference is taken in 32 bits. On names that the
registry can hold this is the lexicographic order of the folded names.
-/

namespace Wine.Registry

/-- The length of a string in bytes. -/
def byteLen (name : List WChar) : ℕ := 2 * name.length

/-- The difference of two `data_size_t`, as an `int`. -/
def lengthOrder (a b : ℕ) : ℤ := (BitVec.ofNat 32 a - BitVec.ofNat 32 b).toInt

/-- The comparison of an entry with the name that is looked up. -/
def nameOrder (cm : CaseMap) (entry name : List WChar) : ℤ :=
  let len := min (byteLen entry) (byteLen name)
  let res := memicmpW cm entry name (len / 2)
  if res ≠ 0 then res else lengthOrder (byteLen entry) (byteLen name)

/-- `MAX_NAME_LEN` and `MAX_VALUE_LEN`. -/
def maxNameLen : ℕ := 260

/-- No string of a request or of a file is longer: its length in bytes is a `data_size_t`. -/
@[irreducible] def maxPathLen : ℕ := 2 ^ 31

theorem maxPathLen_eq : maxPathLen = 2147483648 := by
  unfold maxPathLen
  norm_num

def fold (cm : CaseMap) (name : List WChar) : List ℕ := name.map fun c => (cm.tolowerW c).toNat

@[simp] theorem fold_length (cm : CaseMap) (name : List WChar) :
    (fold cm name).length = name.length := by
  simp only [fold, List.length_map]

theorem lengthOrder_eq {a b : ℕ} (ha : a ≤ 1048576) (hb : b ≤ 1048576) :
    lengthOrder a b = (a : ℤ) - b := by
  unfold lengthOrder
  rw [BitVec.toInt_sub, BitVec.toInt_ofNat', BitVec.toInt_ofNat']
  simp only [Int.bmod_def]
  omega

theorem lengthOrder_zero {a b : ℕ} (ha : a < 4294967296) (hb : b < 4294967296) :
    lengthOrder a b = 0 ↔ a = b := by
  unfold lengthOrder
  rw [BitVec.toInt_sub, BitVec.toInt_ofNat', BitVec.toInt_ofNat']
  simp only [Int.bmod_def]
  omega

section
variable (cm : CaseMap)

theorem memicmpW_neg {s t : List WChar} {n : ℕ} (h : memicmpW cm s t n < 0) :
    fold cm s < fold cm t := by
  induction s generalizing t n with
  | nil => simp [memicmpW] at h
  | cons c s ih =>
    cases t with
    | nil => simp [memicmpW] at h
    | cons d t =>
      cases n with
      | zero => simp [memicmpW] at h
      | succ n =>
        simp only [memicmpW] at h
        simp only [fold, List.map_cons]
        by_cases hc : ((cm.tolowerW c).toNat : ℤ) - (cm.tolowerW d).toNat = 0
        · simp only [hc, ne_eq, not_true_eq_false, if_false] at h
          have he : (cm.tolowerW c).toNat = (cm.tolowerW d).toNat := by omega
          rw [he]
          exact List.cons_lt_cons_self.mpr (ih h)
        · simp only [ne_eq, hc, not_false_eq_true, if_true] at h
          exact List.cons_lt_cons_iff.mpr (.inl (by omega))

theorem memicmpW_pos {s t : List WChar} {n : ℕ} (h : 0 < memicmpW cm s t n) :
    fold cm t < fold cm s := by
  induction s generalizing t n with
  | nil => simp [memicmpW] at h
  | cons c s ih =>
    cases t with
    | nil => simp [memicmpW] at h
    | cons d t =>
      cases n with
      | zero => simp [memicmpW] at h
      | succ n =>
        simp only [memicmpW] at h
        simp only [fold, List.map_cons]
        by_cases hc : ((cm.tolowerW c).toNat : ℤ) - (cm.tolowerW d).toNat = 0
        · simp only [hc, ne_eq, not_true_eq_false, if_false] at h
          have he : (cm.tolowerW c).toNat = (cm.tolowerW d).toNat := by omega
          rw [he]
          exact List.cons_lt_cons_self.mpr (ih h)
        · simp only [ne_eq, hc, not_false_eq_true, if_true] at h
          exact List.cons_lt_cons_iff.mpr (.inl (by omega))

/-- Where the common prefix does not decide, the shorter name is a prefix of the longer one. -/
theorem memicmpW_zero {s t : List WChar} (h : memicmpW cm s t (min s.length t.length) = 0) :
    (s.length = t.length → fold cm s = fold cm t) ∧ (s.length < t.length → fold cm s < fold cm t) ∧
      (t.length < s.length → fold cm t < fold cm s) := by
  induction s generalizing t with
  | nil =>
    cases t with
    | nil => simp
    | cons d t => simp [fold]
  | cons c s ih =>
    cases t with
    | nil => simp [fold]
    | cons d t =>
      simp only [List.length_cons, Nat.succ_min_succ, memicmpW] at h
      by_cases hc : ((cm.tolowerW c).toNat : ℤ) - (cm.tolowerW d).toNat = 0
      · simp only [hc, ne_eq, not_true_eq_false, if_false] at h
        have he : (cm.tolowerW c).toNat = (cm.tolowerW d).toNat := by omega
        obtain ⟨h1, h2, h3⟩ := ih h
        simp only [fold, List.map_cons, List.length_cons, he, Nat.add_right_cancel_iff,
          Nat.add_lt_add_iff_right, List.cons_lt_cons_self] at h1 h2 h3 ⊢
        exact ⟨fun hl => by rw [h1 hl], h2, h3⟩
      · simp only [ne_eq, hc, not_false_eq_true, if_true] at h

theorem nameOrder_eq (s t : List WChar) : nameOrder cm s t =
    if memicmpW cm s t (min s.length t.length) ≠ 0 then memicmpW cm s t (min s.length t.length)
    else lengthOrder (byteLen s) (byteLen t) := by
  have h : min (byteLen s) (byteLen t) / 2 = min s.length t.length := by
    unfold byteLen
    omega
  simp only [nameOrder, h]

variable {cm}

theorem fold_of_nameOrder_zero {s t : List WChar} (hs : s.length < maxPathLen)
    (ht : t.length < maxPathLen) (h : nameOrder cm s t = 0) : fold cm s = fold cm t := by
  rw [nameOrder_eq] at h
  by_cases hm : memicmpW cm s t (min s.length t.length) = 0
  · simp only [hm, ne_eq, not_true_eq_false, if_false] at h
    rw [maxPathLen_eq] at hs ht
    have hl := (lengthOrder_zero (by unfold byteLen; omega) (by unfold byteLen; omega)).mp h
    unfold byteLen at hl
    exact (memicmpW_zero cm hm).1 (by omega)
  · simp only [ne_eq, hm, not_false_eq_true, if_true] at h

theorem memicmpW_of_fold {s t : List WChar} (n : ℕ) (h : fold cm s = fold cm t) :
    memicmpW cm s t n = 0 := by
  rcases lt_trichotomy (memicmpW cm s t n) 0 with hm | hm | hm
  · exact absurd h (memicmpW_neg cm hm).ne
  · exact hm
  · exact absurd h (memicmpW_pos cm hm).ne'

theorem length_of_fold {s t : List WChar} (h : fold cm s = fold cm t) : s.length = t.length := by
  rw [← fold_length cm s, h, fold_length]

theorem nameOrder_of_fold {s t : List WChar} (h : fold cm s = fold cm t) : nameOrder cm s t = 0 := by
  rw [nameOrder_eq, memicmpW_of_fold _ h]
  simp only [ne_eq, not_true_eq_false, if_false, lengthOrder, byteLen, length_of_fold h,
    BitVec.sub_self, BitVec.toInt_zero]

theorem nameOrder_zero_iff {s t : List WChar} (hs : s.length < maxPathLen)
    (ht : t.length < maxPathLen) : nameOrder cm s t = 0 ↔ fold cm s = fold cm t :=
  ⟨fold_of_nameOrder_zero hs ht, nameOrder_of_fold⟩

theorem fold_of_nameOrder_neg {s t : List WChar} (hs : s.length ≤ maxNameLen)
    (ht : t.length ≤ maxNameLen) (h : nameOrder cm s t < 0) : fold cm s < fold cm t := by
  rw [nameOrder_eq] at h
  unfold maxNameLen at hs ht
  by_cases hm : memicmpW cm s t (min s.length t.length) = 0
  · simp only [hm, ne_eq, not_true_eq_false, if_false] at h
    rw [lengthOrder_eq (by unfold byteLen; omega) (by unfold byteLen; omega)] at h
    unfold byteLen at h
    exact (memicmpW_zero cm hm).2.1 (by omega)
  · simp only [ne_eq, hm, not_false_eq_true, if_true] at h
    exact memicmpW_neg cm h

theorem fold_of_nameOrder_pos {s t : List WChar} (hs : s.length ≤ maxNameLen)
    (ht : t.length ≤ maxNameLen) (h : 0 < nameOrder cm s t) : fold cm t < fold cm s := by
  rw [nameOrder_eq] at h
  unfold maxNameLen at hs ht
  by_cases hm : memicmpW cm s t (min s.length t.length) = 0
  · simp only [hm, ne_eq, not_true_eq_false, if_false] at h
    rw [lengthOrder_eq (by unfold byteLen; omega) (by unfold byteLen; omega)] at h
    unfold byteLen at h
    exact (memicmpW_zero cm hm).2.2 (by omega)
  · simp only [ne_eq, hm, not_false_eq_true, if_true] at h
    exact memicmpW_pos cm h

theorem nameOrder_neg_iff {s t : List WChar} (hs : s.length ≤ maxNameLen)
    (ht : t.length ≤ maxNameLen) : nameOrder cm s t < 0 ↔ fold cm s < fold cm t := by
  constructor
  · exact fold_of_nameOrder_neg hs ht
  · intro h
    rcases lt_trichotomy (nameOrder cm s t) 0 with hn | hn | hn
    · exact hn
    · have hl : maxNameLen < maxPathLen := by rw [maxPathLen_eq]; unfold maxNameLen; omega
      exact absurd (fold_of_nameOrder_zero (by omega) (by omega) hn) h.ne
    · exact absurd (fold_of_nameOrder_pos hs ht hn) h.asymm

theorem nameOrder_pos_iff {s t : List WChar} (hs : s.length ≤ maxNameLen)
    (ht : t.length ≤ maxNameLen) : 0 < nameOrder cm s t ↔ fold cm t < fold cm s := by
  constructor
  · exact fold_of_nameOrder_pos hs ht
  · intro h
    rcases lt_trichotomy (nameOrder cm s t) 0 with hn | hn | hn
    · exact absurd (fold_of_nameOrder_neg hs ht hn) h.asymm
    · have hl : maxNameLen < maxPathLen := by rw [maxPathLen_eq]; unfold maxNameLen; omega
      exact absurd (fold_of_nameOrder_zero (by omega) (by omega) hn) h.ne'
    · exact hn

end

end Wine.Registry
