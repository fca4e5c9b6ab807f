import Mathlib.Algebra.Group.Nat.Defs
import Mathlib.Data.List.GetD
import Mathlib.Tactic.Common

/-!
# Computations that read memory and record every read

Memory is a total function from addresses to bytes, so that a computation has a result
whatever it reads; the events it records say which bytes it looked at and how the pointers of
its walks advanced. A safety property of a program is a property of all its events.
-/

namespace Wine.Lib

/-- The byte at every address. -/
abbrev Memory := ℕ → BitVec 8

inductive Event where
  | read (address length : ℕ)
  | advance (source target : ℕ)
  deriving DecidableEq, Repr

/-- A computation that reads memory: its result and the events in order. -/
structure Reading (α : Type) where
  run : Memory → α × List Event

namespace Reading

variable {α β : Type} {m : Memory} {P : Event → Prop}

def value (x : Reading α) (m : Memory) : α := (x.run m).1

def events (x : Reading α) (m : Memory) : List Event := (x.run m).2

instance : Monad Reading where
  pure a := ⟨fun _ => (a, [])⟩
  bind x f := ⟨fun m =>
    let r := (f (x.value m)).run m
    (r.1, x.events m ++ r.2)⟩

/-- Little-endian number of the `length` bytes at `address`. -/
def load (m : Memory) (address : ℕ) : ℕ → ℕ
  | 0 => 0
  | length + 1 => (m address).toNat + 256 * load m (address + 1) length

def bytesAt (m : Memory) (address length : ℕ) : List (BitVec 8) :=
  (List.range length).map fun i => m (address + i)

def number (address length : ℕ) : Reading ℕ :=
  ⟨fun m => (load m address length, [.read address length])⟩

def block (address length : ℕ) : Reading (List (BitVec 8)) :=
  ⟨fun m => (bytesAt m address length, [.read address length])⟩

def step (source target : ℕ) : Reading Unit :=
  ⟨fun _ => ((), [.advance source target])⟩

/-- Every event of the computation satisfies `P`. -/
def All (P : Event → Prop) (x : Reading α) (m : Memory) : Prop :=
  ∀ e ∈ x.events m, P e

@[simp] theorem value_pure (a : α) : (pure a : Reading α).value m = a := (rfl)

@[simp] theorem value_bind (x : Reading α) (f : α → Reading β) :
    (x >>= f).value m = (f (x.value m)).value m := (rfl)

@[simp] theorem value_number (address length : ℕ) :
    (number address length).value m = load m address length := (rfl)

@[simp] theorem all_pure (a : α) : All P (pure a : Reading α) m ↔ True := by
  simp [All, events, pure]

@[simp] theorem all_bind (x : Reading α) (f : α → Reading β) :
    All P (x >>= f) m ↔ All P x m ∧ All P (f (x.value m)) m := by
  have hev : (x >>= f).events m = x.events m ++ (f (x.value m)).events m := rfl
  simp only [All, hev, List.mem_append]
  constructor
  · intro h
    exact ⟨fun e he => h e (.inl he), fun e he => h e (.inr he)⟩
  · rintro ⟨hx, hf⟩ e (he | he)
    · exact hx e he
    · exact hf e he

@[simp] theorem all_number (address length : ℕ) :
    All P (number address length) m ↔ P (.read address length) := by
  simp [All, events, number]

@[simp] theorem all_block (address length : ℕ) :
    All P (block address length) m ↔ P (.read address length) := by
  simp [All, events, block]

@[simp] theorem all_step (source target : ℕ) :
    All P (step source target) m ↔ P (.advance source target) := by
  simp [All, events, step]

theorem value_ite (c : Prop) [Decidable c] (x y : Reading α) :
    (if c then x else y).value m = if c then x.value m else y.value m := by
  split <;> rfl

theorem all_ite (c : Prop) [Decidable c] (x y : Reading α) :
    All P (if c then x else y) m ↔ (c → All P x m) ∧ (¬c → All P y m) := by
  by_cases hc : c
  · simp [hc]
  · simp [hc]

end Reading

end Wine.Lib

/-!
## Memory that is written

`store` overwrites a block of memory and `move` copies one. A block that is apart from what is
written reads as before, and a block that has been written reads as what was stored there.
-/

namespace Wine.Lib

/-- The memory with `bytes` from `address` on. -/
def store (m : Memory) (address : ℕ) (bytes : List (BitVec 8)) : Memory := fun i =>
  if address ≤ i ∧ i < address + bytes.length then bytes.getD (i - address) 0 else m i

/-- The `length` low bytes of a number. -/
def littleEndian : ℕ → ℕ → List (BitVec 8)
  | 0, _ => []
  | length + 1, n => BitVec.ofNat 8 n :: littleEndian length (n / 256)

namespace Reading

variable {m m' : Memory} {a b n k : ℕ} {bytes : List (BitVec 8)}

@[simp] theorem length_bytesAt : (bytesAt m a n).length = n := by simp [bytesAt]

theorem bytesAt_succ : bytesAt m a (n + 1) = m a :: bytesAt m (a + 1) n := by
  simp only [bytesAt, List.range_succ_eq_map, List.map_cons, List.map_map, Nat.add_zero]
  congr 1
  refine List.map_congr_left fun i _ => ?_
  simp only [Function.comp_apply, Nat.succ_eq_add_one]
  congr 1
  omega

theorem bytesAt_eq (h : ∀ i, i < n → m (a + i) = m' (b + i)) :
    bytesAt m a n = bytesAt m' b n :=
  List.map_congr_left fun i hi => h i (List.mem_range.mp hi)

theorem bytesAt_congr (h : ∀ i, a ≤ i → i < a + n → m i = m' i) :
    bytesAt m a n = bytesAt m' a n :=
  bytesAt_eq fun i hi => h _ (Nat.le_add_right a i) (Nat.add_lt_add_left hi a)

theorem getD_bytesAt {i : ℕ} (h : i < n) : (bytesAt m a n).getD i 0 = m (a + i) := by
  rw [List.getD_eq_getElem?_getD, bytesAt, List.getElem?_map, List.getElem?_range h]
  rfl

theorem eq_of_bytesAt_eq (h : bytesAt m a n = bytesAt m' b n) {i : ℕ} (hi : i < n) :
    m (a + i) = m' (b + i) := by
  rw [← getD_bytesAt (m := m) hi, h, getD_bytesAt hi]

theorem load_congr (h : ∀ i, a ≤ i → i < a + n → m i = m' i) : load m a n = load m' a n := by
  induction n generalizing a with
  | zero => rfl
  | succ n ih =>
      rw [load, load, h a (Nat.le_refl a) (by omega), ih fun i hi hi' => h i (by omega) (by omega)]

theorem load_lt : load m a n < 256 ^ n := by
  induction n generalizing a with
  | zero => simp [load]
  | succ n ih =>
      have hbyte := (m a).isLt
      have hrest := ih (a := a + 1)
      rw [load, Nat.pow_succ]
      omega

theorem store_of_mem {i : ℕ} (h : i < bytes.length) :
    store m a bytes (a + i) = bytes.getD i 0 := by
  rw [store, if_pos ⟨Nat.le_add_right a i, Nat.add_lt_add_left h a⟩, Nat.add_sub_cancel_left]

theorem store_of_not_mem {i : ℕ} (h : i < a ∨ a + bytes.length ≤ i) :
    store m a bytes i = m i :=
  if_neg (by omega)

@[simp] theorem bytesAt_store : bytesAt (store m a bytes) a bytes.length = bytes := by
  refine List.ext_getElem (by simp) fun i _ hi => ?_
  simp only [bytesAt, List.getElem_map, List.getElem_range]
  rw [store_of_mem hi, List.getD_eq_getElem?_getD, List.getElem?_eq_getElem hi]
  rfl

/-- Blocks that are stored one after the other are one block. -/
theorem store_store (bytes' : List (BitVec 8)) (h : b = a + bytes.length) :
    store (store m a bytes) b bytes' = store m a (bytes ++ bytes') := by
  funext i
  simp only [store, List.length_append, h]
  by_cases hlow : i < a + bytes.length
  · rw [if_neg (by omega)]
    by_cases ha : a ≤ i
    · rw [if_pos ⟨ha, hlow⟩, if_pos ⟨ha, by omega⟩, List.getD_append _ _ _ _ (by omega)]
    · rw [if_neg (by omega), if_neg (by omega)]
  · by_cases hhigh : i < a + bytes.length + bytes'.length
    · rw [if_pos ⟨by omega, hhigh⟩, if_pos ⟨by omega, by omega⟩,
        List.getD_append_right _ _ _ _ (by omega)]
      congr 1
      omega
    · rw [if_neg (by omega), if_neg (by omega), if_neg (by omega)]

theorem load_store_of_disjoint (h : b + n ≤ a ∨ a + bytes.length ≤ b) :
    load (store m a bytes) b n = load m b n :=
  load_congr fun _ _ _ => store_of_not_mem (by omega)

@[simp] theorem length_littleEndian : (littleEndian k n).length = k := by
  induction k generalizing n with
  | zero => rfl
  | succ k ih => rw [littleEndian, List.length_cons, ih]

theorem load_littleEndian (h : bytesAt m a k = littleEndian k n) :
    load m a k = n % 256 ^ k := by
  induction k generalizing a n with
  | zero => simp [load, Nat.mod_one]
  | succ k ih =>
      rw [bytesAt_succ, littleEndian, List.cons.injEq] at h
      rw [load, h.1, ih h.2, BitVec.toNat_ofNat]
      change n % 256 + 256 * (n / 256 % 256 ^ k) = n % 256 ^ (k + 1)
      rw [Nat.pow_succ', Nat.mod_mul]

theorem littleEndian_load : littleEndian n (load m a n) = bytesAt m a n := by
  induction n generalizing a with
  | zero => rfl
  | succ n ih =>
      have hbyte := (m a).isLt
      rw [load, littleEndian, bytesAt_succ, Nat.add_mul_div_left _ _ (by decide),
        Nat.div_eq_of_lt hbyte, Nat.zero_add, ih]
      congr 1
      apply BitVec.eq_of_toNat_eq
      rw [BitVec.toNat_ofNat]
      omega

/-- Storing what is there changes nothing. -/
theorem store_bytesAt : store m a (bytesAt m a n) = m := by
  funext i
  by_cases h : a ≤ i ∧ i < a + n
  · obtain ⟨k, rfl⟩ := Nat.exists_eq_add_of_le h.1
    have hk : k < n := by omega
    rw [store_of_mem (by rw [length_bytesAt]; exact hk), getD_bytesAt hk]
  · exact store_of_not_mem (by rw [length_bytesAt]; omega)

/-- A number that has been stored reads as the number, in the width it was stored with. -/
theorem load_store : load (store m a (littleEndian k n)) a k = n % 256 ^ k := by
  apply load_littleEndian
  have h := @bytesAt_store m a (littleEndian k n)
  rwa [length_littleEndian] at h

end Reading

end Wine.Lib
