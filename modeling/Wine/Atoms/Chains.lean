import Wine.Atoms.Counts
import Wine.Casemap

/-!
# The hash lists of a table

The entries of a table stand in an array and in the list of their hash. The hash is that of the upper
case of a name and names are the same if their lower case is. A search misses the entry of a name when
the two disagree, and a table then takes the name a second time.
-/

namespace Wine.Atoms
open Wine.Lib

/-- The comparison of `find_atom_entry`. -/
def Same (cm : CaseMap) (s t : List WChar) : Prop :=
  s.length = t.length ∧ memicmpW cm s t t.length = 0

inductive TableAction where
  | addAtom (str : List WChar) (client : Bool) (mem : Allocations)
  | deleteAtom (atom : Atom) (ifPinned : Bool)
  | pinAtom (atom : Atom)
  | emptyAtomTable (ifPinned : Bool)
  deriving DecidableEq, Repr

namespace AtomTable

/-- `entry->pinned = 1` -/
def pinAtom (t : AtomTable) (atom : Atom) : AtomTable :=
  match t.getAtomEntry atom with
  | none => t
  | some i =>
    match t.entry i with
    | none => t
    | some e => t.setEntry i (some { e with pinned := true })

def step (cm : CaseMap) (t : AtomTable) : TableAction → Except Fault AtomTable
  | .addAtom str client mem => (t.addAtom cm str client mem).map (·.2.2)
  | .deleteAtom atom ifPinned => .ok (t.deleteAtom atom ifPinned).2
  | .pinAtom atom => .ok (t.pinAtom atom)
  | .emptyAtomTable ifPinned => .ok (t.emptyAtomTable ifPinned)

/-- The name has the hash of every entry that it is the same as. -/
def Agrees (cm : CaseMap) (t : AtomTable) (str : List WChar) : Prop :=
  ∀ i e, t.entry i = some e → Same cm e.str str → atomHash cm t e.str = atomHash cm t str

/-- The names that are added have the hash of the entries that they are the same as. -/
def Agreeing (cm : CaseMap) (t : AtomTable) : TableAction → Prop
  | .addAtom str _ _ => t.Agrees cm str
  | _ => True

/-- The hash lists hold the entries of the array. -/
structure Chained (cm : CaseMap) (t : AtomTable) : Prop where
  positive : 0 < t.entriesCount
  chained : ∀ i e, t.entry i = some e → i ∈ t.entries e.hash
  listed : ∀ h i, i ∈ t.entries h → ∃ e, t.entry i = some e ∧ e.hash = h
  once : ∀ h, (t.entries h).Nodup
  hashed : ∀ i e, t.entry i = some e → e.hash = atomHash cm t e.str
  named : ∀ i e, t.entry i = some e → e.str.length ≠ 0 ∧ e.str.length ≤ maxAtomLen

/-- No two entries have the same name. -/
def Distinct (cm : CaseMap) (t : AtomTable) : Prop :=
  ∀ i j e e', t.entry i = some e → t.entry j = some e' → Same cm e.str e'.str → i = j

end AtomTable

variable {cm : CaseMap}

theorem memicmpW_eq_zero {s t : List WChar} (hlen : s.length = t.length) :
    memicmpW cm s t t.length = 0 ↔ s.map cm.tolowerW = t.map cm.tolowerW := by
  induction s generalizing t with
  | nil =>
    obtain rfl := List.length_eq_zero_iff.mp hlen.symm
    simp [memicmpW]
  | cons c s ih =>
    cases t with
    | nil => cases hlen
    | cons d t =>
      have hrest := ih (Nat.succ.inj hlen)
      simp only [memicmpW, List.length_cons, List.map_cons, List.cons.injEq]
      by_cases hcd : cm.tolowerW c = cm.tolowerW d
      · simp [hcd, hrest]
      · have hne : ((cm.tolowerW c).toNat : ℤ) - (cm.tolowerW d).toNat ≠ 0 := by
          intro h
          exact hcd (BitVec.eq_of_toNat_eq (by omega))
        simp [hne, hcd]

theorem same_iff {s t : List WChar} :
    Same cm s t ↔ s.map cm.tolowerW = t.map cm.tolowerW := by
  constructor
  · rintro ⟨hlen, hcmp⟩
    exact (memicmpW_eq_zero hlen).mp hcmp
  · intro h
    have hlen : s.length = t.length := by simpa using congrArg List.length h
    exact ⟨hlen, (memicmpW_eq_zero hlen).mpr h⟩

theorem Same.symm {s t : List WChar} (h : Same cm s t) : Same cm t s :=
  same_iff.mpr (same_iff.mp h).symm

theorem Same.trans {s t u : List WChar} (h : Same cm s t) (h' : Same cm t u) : Same cm s u :=
  same_iff.mpr ((same_iff.mp h).trans (same_iff.mp h'))

theorem atomOfIndex_inj {i j : ℕ} (hi : i < maxAtoms) (hj : j < maxAtoms)
    (h : atomOfIndex i = atomOfIndex j) : i = j := by
  have hval := congrArg BitVec.toNat h
  rw [AtomTable.atomOfIndex_toNat hi, AtomTable.atomOfIndex_toNat hj] at hval
  omega

namespace AtomTable

variable {t t' : AtomTable} {i : ℕ} {e : AtomEntry}

theorem entry_lt (h : t.entry i = some e) : i < maxAtoms :=
  Nat.lt_of_lt_of_le (lt_length_of_entry h) t.length_le

theorem atomEntry_atomOfIndex (hi : i < maxAtoms) : t.atomEntry (atomOfIndex i) = t.entry i := by
  rw [atomEntry, atomOfIndex_toNat hi, if_pos (minStrAtom_le_add i), Nat.add_sub_cancel]

theorem getAtomEntry_atomOfIndex (h : t.entry i = some e) :
    t.getAtomEntry (atomOfIndex i) = some i := by
  simp only [getAtomEntry]
  rw [atomOfIndex_toNat (entry_lt h), Nat.add_sub_cancel,
    if_pos ⟨minStrAtom_le_add i, lt_length_of_entry h, by rw [h]; rfl⟩]

/-- What `add_atom_entry` does to the array. -/
theorem entry_addAtomEntry {mem : Allocations} (h : t.addAtomEntry e mem = some (i, t')) :
    t.entry i = none ∧ ∀ j, t'.entry j = if j = i then some e else t.entry j := by
  obtain ⟨hi, hfree, hset⟩ := addAtomEntry_spec h
  rw [atomEntry_atomOfIndex hi] at hfree
  refine ⟨hfree, fun j => ?_⟩
  by_cases hj : j < maxAtoms
  · have hsame : atomOfIndex j = atomOfIndex i ↔ j = i :=
      ⟨atomOfIndex_inj hj hi, congrArg atomOfIndex⟩
    rw [← atomEntry_atomOfIndex hj, hset, ← atomEntry_atomOfIndex hj]
    simp only [hsame]
  · have hnone (u : AtomTable) : u.entry j = none := by
      by_contra hne
      obtain ⟨x, hx⟩ := Option.ne_none_iff_exists'.mp hne
      exact hj (entry_lt hx)
    rw [if_neg (by omega), hnone, hnone]

theorem entries_addAtomEntry {mem : Allocations} (h : t.addAtomEntry e mem = some (i, t')) :
    t'.entries = t.entries ∧ t'.entriesCount = t.entriesCount := by
  simp only [addAtomEntry] at h
  split at h
  · obtain ⟨-, rfl⟩ := Prod.mk.inj (Option.some.inj h)
    exact ⟨rfl, rfl⟩
  · split at h
    · split at h
      · split at h
        · obtain ⟨-, rfl⟩ := Prod.mk.inj (Option.some.inj h)
          exact ⟨rfl, rfl⟩
        · cases h
      · cases h
    · obtain ⟨-, rfl⟩ := Prod.mk.inj (Option.some.inj h)
      exact ⟨rfl, rfl⟩

/-! ## The search -/

theorem find_some (h : t.Chained cm) {str : List WChar} {hash : ℕ}
    (hf : findAtomEntry cm t str hash = some i) :
    ∃ e, t.entry i = some e ∧ e.hash = hash ∧ Same cm e.str str := by
  obtain ⟨e, he, hhash⟩ := h.listed hash i (List.mem_of_find?_eq_some hf)
  have htest := List.find?_some hf
  simp only [he, Bool.and_eq_true, decide_eq_true_eq] at htest
  exact ⟨e, he, hhash, htest⟩

theorem find_none (h : t.Chained cm) {str : List WChar} {hash : ℕ}
    (hf : findAtomEntry cm t str hash = none) (he : t.entry i = some e) (hhash : e.hash = hash) :
    ¬ Same cm e.str str := by
  intro hsame
  have hmem : i ∈ t.entries hash := hhash ▸ h.chained i e he
  have htest := List.find?_eq_none.mp hf i hmem
  simp only [he, Bool.and_eq_true, decide_eq_true_eq] at htest
  exact htest hsame

theorem findAtom_eq {str : List WChar} (hlen : str.length ≠ 0) (hmax : str.length ≤ maxAtomLen) :
    findAtom cm t str = match findAtomEntry cm t str (atomHash cm t str) with
      | some i => (atomOfIndex i, none)
      | none => (0, some .objectNameNotFound) :=
  (if_neg hlen).trans (if_neg (Nat.not_lt.mpr hmax))

/-- What `find_atom` finds is an entry of the same name. -/
theorem live_of_findAtom (h : t.Chained cm) {str : List WChar} {a : Atom}
    (hf : findAtom cm t str = (a, none)) :
    ∃ i e, t.entry i = some e ∧ Same cm e.str str ∧ a = atomOfIndex i ∧
      e.hash = atomHash cm t str := by
  rw [findAtom] at hf
  split at hf
  · cases hf
  · split at hf
    · cases hf
    · split at hf
      · rename_i i hi
        obtain ⟨e, he, hhash, hsame⟩ := find_some h hi
        exact ⟨i, e, he, hsame, (congrArg Prod.fst hf).symm, hhash⟩
      · cases hf

theorem findAtom_of_live (h : t.Chained cm) (hd : t.Distinct cm) {str : List WChar}
    (ha : t.Agrees cm str) (he : t.entry i = some e) (hsame : Same cm e.str str) :
    findAtom cm t str = (atomOfIndex i, none) := by
  have hlen := h.named i e he
  rw [hsame.1] at hlen
  rw [findAtom_eq hlen.1 hlen.2]
  cases hf : findAtomEntry cm t str (atomHash cm t str) with
  | none =>
    have hhash : e.hash = atomHash cm t str := (h.hashed i e he).trans (ha i e he hsame)
    exact absurd hsame (find_none h hf he hhash)
  | some j =>
    obtain ⟨e', he', -, hsame'⟩ := find_some h hf
    obtain rfl := hd j i e' e he' he (hsame'.trans hsame.symm)
    rfl

/-- `find_atom` finds the entry of a name, whichever it is, if and only if the name has its hash. -/
theorem findAtom_iff (h : t.Chained cm) (hd : t.Distinct cm) (str : List WChar) :
    (∀ a, findAtom cm t str = (a, none) ↔
      ∃ i e, t.entry i = some e ∧ Same cm e.str str ∧ a = atomOfIndex i) ↔ t.Agrees cm str := by
  constructor
  · intro hfind i e he hsame
    obtain ⟨j, e', he', -, hij, hhash⟩ :=
      live_of_findAtom h ((hfind (atomOfIndex i)).mpr ⟨i, e, he, hsame, rfl⟩)
    obtain rfl := atomOfIndex_inj (entry_lt he) (entry_lt he') hij
    obtain rfl := Option.some.inj (he.symm.trans he')
    exact (h.hashed i e he).symm.trans hhash
  · intro ha a
    constructor
    · intro hf
      obtain ⟨i, e, he, hsame, hatom, -⟩ := live_of_findAtom h hf
      exact ⟨i, e, he, hsame, hatom⟩
    · rintro ⟨i, e, he, hsame, rfl⟩
      exact findAtom_of_live h hd ha he hsame

end AtomTable

end Wine.Atoms
