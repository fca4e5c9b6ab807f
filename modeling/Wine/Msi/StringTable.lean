import Wine.Unicode
import Mathlib.Order.Nat
import Wine.Lib.Links

/-!
# The string table of an MSI database

Strings are known by the positions of their entries in an array. The hash chains are lists of
positions, and a position is found from the characters of its string.
-/

namespace Wine.Msi

abbrev Byte := BitVec 8

/-- A read or write outside an array, or a chain that goes round in circles. -/
inductive Fault
  | outOfBounds
  | endless
  deriving DecidableEq, Repr

structure MsiString where
  hashNext : Option ℕ
  refcount : BitVec 32
  str : Option (List WChar)
  deriving DecidableEq, Repr

/-- An entry as `msi_alloc_zero` makes it. -/
def MsiString.zero : MsiString := ⟨some 0, 0, none⟩

/-- `maxcount` is the length of the array. -/
structure StringTable where
  freeslot : ℕ
  codepage : BitVec 32
  hash : ℕ → Option ℕ
  strings : List MsiString

def hashSize : ℕ := 67

def hashStep (hash : BitVec 32) (c : WChar) : BitVec 32 :=
  let hash := (hash ^^^ c.setWidth 32) * 53
  (hash <<< 5) ||| (hash >>> 27)

def makehash (str : List WChar) : ℕ := (str.foldl hashStep 0).toNat % hashSize

/-- Which allocations of a call succeed: that for the converted string of a search, that for a
larger array, and that for the string. -/
structure Allocations where
  search : Bool
  grow : Bool
  string : Bool
  deriving DecidableEq, Repr

namespace StringTable

def init (entries : ℕ) (codepage : BitVec 32) : StringTable :=
  ⟨1, codepage, fun _ => none, List.replicate (max entries 1) MsiString.zero⟩

def refcount (st : StringTable) (i : ℕ) : BitVec 32 := (st.strings.getD i MsiString.zero).refcount

def freeFrom (st : StringTable) (i : ℕ) : Option ℕ :=
  (List.range' i (st.strings.length - i)).find? fun n => st.refcount n = 0

def grow (st : StringTable) : StringTable :=
  { st with
    freeslot := st.strings.length
    strings := st.strings ++ List.replicate (1 + st.strings.length / 2) MsiString.zero }

/-- `st_find_free_entry`; `none` is `-1`. -/
def findFreeEntry (st : StringTable) (mem : Bool) : StringTable × Option ℕ :=
  match (if st.freeslot ≠ 0 then st.freeFrom st.freeslot else none) with
  | some n => (st, some n)
  | none =>
    match st.freeFrom 1 with
    | some n => (st, some n)
    | none => if mem then (st.grow, some st.strings.length) else (st, none)

def setEntry (st : StringTable) (n : ℕ) (str : List WChar) : StringTable :=
  { st with
    freeslot := n + 1
    hash := Function.update st.hash (makehash str) (some n)
    strings := st.strings.set n ⟨st.hash (makehash str), 1, some str⟩ }

/-- `set_st_entry` -/
def setStEntry (st : StringTable) (n : ℕ) (str : List WChar) : Except Fault StringTable :=
  if n < st.strings.length then .ok (st.setEntry n str) else .error .outOfBounds

/-- `msi_string_lookup_id` -/
def lookupId (st : StringTable) (id : ℕ) : Option (List WChar) :=
  if id = 0 then some []
  else if st.strings.length ≤ id then none
  else if st.refcount id = 0 then none
  else (st.strings.getD id MsiString.zero).str

/-- The loop of `msi_string2idW`; no chain is longer than the array. -/
def walkHash (st : StringTable) (str : List WChar) : ℕ → Option ℕ → Except Fault (Option ℕ)
  | _, none => .ok none
  | 0, some _ => .error .endless
  | fuel + 1, some n =>
    match st.strings[n]? with
    | none => .error .outOfBounds
    | some se => if se.str = some str then .ok (some n) else walkHash st str fuel se.hashNext

/-- `msi_string2idW` -/
def string2idW (st : StringTable) (str : List WChar) : Except Fault (Option ℕ) :=
  st.walkHash str st.strings.length (st.hash (makehash str))

/-- `strings[n].refcount++` -/
def addRef (st : StringTable) (n : ℕ) : StringTable :=
  { st with strings := st.strings.modify n fun se => { se with refcount := se.refcount + 1 } }

/-- The end of `msi_addstring` and `msi_addstringW`, once the position is known. -/
def store (st : StringTable) (n : ℕ) (str : List WChar) (mem : Bool) :
    Except Fault (StringTable × Option ℕ) :=
  if n < 1 then .ok (st, none)
  else if !mem then .ok (st, none)
  else do return (← st.setStEntry n str, some n)

/-- What `msi_addstring` and `msi_addstringW` do with a string that is not empty: `find` is the
search for it, and `str` is what they store. The position is unsigned, so that the `-1` of a failed
search for a free one is a position for them. -/
def intern (st : StringTable) (n : ℕ) (find : Except Fault (Option ℕ)) (str : List WChar)
    (mem : Allocations) : Except Fault (StringTable × Option ℕ) :=
  if n ≠ 0 then
    match st.strings[n]? with
    | none => .error .outOfBounds
    | some se => if se.refcount ≠ 0 then .ok (st, none) else st.store n str mem.string
  else do
    match ← find with
    | some n => return (st.addRef n, some n)
    | none =>
      match st.findFreeEntry mem.grow with
      | (st, some n) => st.store n str mem.string
      | (st, none) => st.store (2 ^ 32 - 1) str mem.string

/-- `msi_addstringW`; `data` is empty also for a null pointer. -/
def addStringW (st : StringTable) (n : ℕ) (data : List WChar) (len : Option ℕ)
    (mem : Allocations) : Except Fault (StringTable × Option ℕ) :=
  if data = [] then .ok (st, some 0)
  else st.intern n (st.string2idW data) (data.take (len.getD data.length)) mem

section
variable (toWide : BitVec 32 → List Byte → Option (List WChar))

/-- `MultiByteToWideChar` for a number of bytes; it fails for none. -/
def convert (codepage : BitVec 32) (data : List Byte) : Option (List WChar) :=
  if data = [] then none else toWide codepage data

/-- `msi_string2idA`; the terminator is converted to a terminator. -/
def string2idA (st : StringTable) (buffer : List Byte) (mem : Bool) : Except Fault (Option ℕ) :=
  if buffer = [] then .ok (some 0)
  else
    match convert toWide st.codepage buffer with
    | none => .ok none
    | some str => if !mem then .ok none else st.string2idW str

/-- `msi_addstring` -/
def addString (st : StringTable) (n : ℕ) (data : List Byte) (len : Option ℕ) (mem : Allocations) :
    Except Fault (StringTable × Option ℕ) :=
  if data = [] then .ok (st, some 0)
  else st.intern n (st.string2idA toWide data mem.search)
    ((convert toWide st.codepage (data.take (len.getD data.length))).getD []) mem

end

end StringTable

end Wine.Msi

/-!
## The log of a string table

A string table is a log of the strings that have been stored, the newest first: each chain holds the
positions of the strings with its hash in the order of the log.
-/

namespace Wine.Msi

def Chain (st : StringTable) : Option ℕ → List ℕ → Prop
  | cur, [] => cur = none
  | cur, i :: is => cur = some i ∧ ∃ se, st.strings[i]? = some se ∧ Chain st se.hashNext is

/-- The positions of the strings with the given hash. -/
def bucket (log : List (ℕ × List WChar)) (h : ℕ) : List (ℕ × List WChar) :=
  log.filter fun p => makehash p.2 = h

structure Logged (st : StringTable) (log : List (ℕ × List WChar)) : Prop where
  chain : ∀ h, Chain st (st.hash h) ((bucket log h).map Prod.fst)
  entry : ∀ p ∈ log, p.1 ≠ 0 ∧
    ∃ se, st.strings[p.1]? = some se ∧ se.refcount ≠ 0 ∧ se.str = some p.2
  used : ∀ i se, st.strings[i]? = some se → se.refcount ≠ 0 → i ∈ log.map Prod.fst
  nodup : (log.map Prod.fst).Nodup

variable {st st' : StringTable} {log bs : List (ℕ × List WChar)} {cur : Option ℕ} {i n fuel : ℕ}
  {is : List ℕ} {str : List WChar} {se : MsiString} {p : ℕ × List WChar}

theorem Chain.congr (h : Chain st cur is)
    (heq : ∀ i ∈ is, ∀ se, st.strings[i]? = some se →
      ∃ se', st'.strings[i]? = some se' ∧ se'.hashNext = se.hashNext) : Chain st' cur is := by
  induction is generalizing cur with
  | nil => exact h
  | cons i is ih =>
    obtain ⟨hcur, se, hse, hrest⟩ := h
    obtain ⟨se', hse', hnext⟩ := heq i List.mem_cons_self se hse
    refine ⟨hcur, se', hse', ?_⟩
    rw [hnext]
    exact ih hrest fun j hj => heq j (List.mem_cons_of_mem i hj)

/-! ## The search -/

theorem walkHash_spec (h : Chain st cur (bs.map Prod.fst))
    (hstr : ∀ p ∈ bs, ∃ se, st.strings[p.1]? = some se ∧ se.str = some p.2)
    (hfuel : bs.length ≤ fuel) :
    st.walkHash str fuel cur = .ok ((bs.find? fun p => p.2 = str).map Prod.fst) := by
  induction bs generalizing cur fuel with
  | nil =>
    have hnone : cur = none := h
    subst hnone
    cases fuel <;> rfl
  | cons p bs ih =>
    obtain ⟨rfl, se, hse, hrest⟩ := h
    obtain ⟨se', hse', hp⟩ := hstr p List.mem_cons_self
    cases hse.symm.trans hse'
    cases fuel with
    | zero => cases hfuel
    | succ fuel =>
      simp only [StringTable.walkHash, hse, hp, Option.some.injEq]
      by_cases heq : p.2 = str
      · simp only [List.find?_cons, heq, if_true, decide_true, Option.map_some]
      · simp only [List.find?_cons, heq, if_false, decide_false]
        exact ih hrest (fun q hq => hstr q (List.mem_cons_of_mem p hq))
          (Nat.le_of_succ_le_succ hfuel)

namespace Logged

theorem lt (h : Logged st log) (hp : p ∈ log) : p.1 < st.strings.length := by
  obtain ⟨-, se, hse, -⟩ := h.entry p hp
  exact (List.getElem?_eq_some_iff.mp hse).1

theorem length_le (h : Logged st log) : log.length ≤ st.strings.length := by
  have hlt : ∀ i ∈ log.map Prod.fst, i < st.strings.length := by
    intro i hi
    obtain ⟨p, hp, rfl⟩ := List.mem_map.mp hi
    exact h.lt hp
  have hle := Wine.Lib.length_le_of_nodup h.nodup hlt
  rwa [List.length_map] at hle

theorem find_bucket : (bucket log (makehash str)).find? (fun p => p.2 = str) =
    log.find? fun p => p.2 = str := by
  rw [bucket, List.find?_filter]
  refine congrArg (fun q => List.find? q log) (funext fun p => ?_)
  by_cases heq : p.2 = str
  · simp only [heq, decide_true, and_self]
  · simp only [heq, decide_false, Bool.false_eq_true, and_false]

theorem find (h : Logged st log) :
    st.string2idW str = .ok ((log.find? fun p => p.2 = str).map Prod.fst) := by
  unfold StringTable.string2idW
  rw [walkHash_spec (h.chain _), find_bucket]
  · intro p hp
    obtain ⟨-, se, hse, -, hstr⟩ := h.entry p (List.mem_of_mem_filter hp)
    exact ⟨se, hse, hstr⟩
  · exact Nat.le_trans (List.length_filter_le ..) h.length_le

theorem unique (h : Logged st log) (hp : p ∈ log) {q : ℕ × List WChar} (hq : q ∈ log)
    (heq : p.1 = q.1) : p = q :=
  List.inj_on_of_nodup_map h.nodup hp hq heq

theorem lookup (h : Logged st log) (hp : p ∈ log) : st.lookupId p.1 = some p.2 := by
  obtain ⟨hpos, se, hse, href, hstr⟩ := h.entry p hp
  have hget : st.strings.getD p.1 MsiString.zero = se := by
    rw [List.getD_eq_getElem?_getD, hse, Option.getD_some]
  unfold StringTable.lookupId StringTable.refcount
  rw [if_neg hpos, if_neg (Nat.not_le.mpr (h.lt hp)), hget, if_neg href, hstr]

/-! ## The steps -/

/-- Entries other than `n` keep their chain links and what they hold. -/
theorem entries_of_ne (h : Logged st log)
    (heq : ∀ p ∈ log, st'.strings[p.1]? = st.strings[p.1]?) :
    ∀ p ∈ log, p.1 ≠ 0 ∧
      ∃ se, st'.strings[p.1]? = some se ∧ se.refcount ≠ 0 ∧ se.str = some p.2 := by
  intro p hp
  rw [heq p hp]
  exact h.entry p hp

theorem chain_of_eq (h : Logged st log)
    (heq : ∀ p ∈ log, st'.strings[p.1]? = st.strings[p.1]?) (k : ℕ) :
    Chain st' (st.hash k) ((bucket log k).map Prod.fst) := by
  refine (h.chain k).congr fun i hi se hse => ⟨se, ?_, rfl⟩
  obtain ⟨p, hp, rfl⟩ := List.mem_map.mp hi
  rw [heq p (List.mem_of_mem_filter hp), hse]

/-- A string is stored at a free position. -/
theorem setEntry (h : Logged st log) (hn : n ≠ 0) (hse : st.strings[n]? = some se)
    (hfree : se.refcount = 0) : Logged (st.setEntry n str) ((n, str) :: log) := by
  have hlt : n < st.strings.length := (List.getElem?_eq_some_iff.mp hse).1
  have hnew : n ∉ log.map Prod.fst := by
    intro hmem
    obtain ⟨p, hp, rfl⟩ := List.mem_map.mp hmem
    obtain ⟨-, se', hse', href, -⟩ := h.entry p hp
    cases hse.symm.trans hse'
    exact href hfree
  have hold : ∀ p ∈ log, (st.setEntry n str).strings[p.1]? = st.strings[p.1]? := by
    intro p hp
    refine List.getElem?_set_ne fun heq => hnew ?_
    rw [heq]
    exact List.mem_map_of_mem hp
  have hself : (st.setEntry n str).strings[n]? =
      some ⟨st.hash (makehash str), 1, some str⟩ := List.getElem?_set_self hlt
  refine ⟨fun k => ?_, ?_, fun i se hi href => ?_, List.nodup_cons.mpr ⟨hnew, h.nodup⟩⟩
  · have hchain := h.chain_of_eq hold k
    by_cases hk : k = makehash str
    · subst hk
      have hb : bucket ((n, str) :: log) (makehash str) = (n, str) :: bucket log (makehash str) :=
        List.filter_cons_of_pos (by simp)
      rw [hb, List.map_cons]
      exact ⟨Function.update_self .., _, hself, hchain⟩
    · have hb : bucket ((n, str) :: log) k = bucket log k :=
        List.filter_cons_of_neg (by simpa using fun heq => hk heq.symm)
      have hhash : (st.setEntry n str).hash k = st.hash k := Function.update_of_ne hk ..
      rwa [hb, hhash]
  · rintro p hp
    obtain rfl | hp := List.mem_cons.mp hp
    · exact ⟨hn, _, hself, show (1 : BitVec 32) ≠ 0 by decide, rfl⟩
    · exact h.entries_of_ne hold p hp
  · rw [List.map_cons, List.mem_cons]
    by_cases hi' : i = n
    · exact .inl hi'
    · have hkeep : (st.setEntry n str).strings[i]? = st.strings[i]? :=
        List.getElem?_set_ne (Ne.symm hi')
      exact .inr (h.used i se (hkeep ▸ hi) href)

theorem addRef_getElem? : (st.addRef n).strings[i]? =
    (st.strings[i]?).map fun se => if n = i then { se with refcount := se.refcount + 1 } else se :=
  List.getElem?_modify ..

theorem addRef_of_some (hse : st.strings[i]? = some se) :
    ∃ se', (st.addRef n).strings[i]? = some se' ∧ se'.hashNext = se.hashNext ∧ se'.str = se.str ∧
      se'.refcount = if n = i then se.refcount + 1 else se.refcount := by
  refine ⟨_, addRef_getElem?.trans (congrArg _ hse), ?_, ?_, ?_⟩
  all_goals split <;> rfl

theorem refcount_eq (hse : st.strings[i]? = some se) : st.refcount i = se.refcount := by
  unfold StringTable.refcount
  rw [List.getD_eq_getElem?_getD, hse, Option.getD_some]

theorem addRef (h : Logged st log) (hmem : n ∈ log.map Prod.fst)
    (hn : st.refcount n ≠ 0xffffffff) :
    Logged (st.addRef n) log := by
  refine ⟨fun k => (h.chain k).congr fun i _ se hse => ?_, fun p hp => ?_, fun i se' hi href => ?_,
    h.nodup⟩
  · obtain ⟨se', hse', hnext, -⟩ := addRef_of_some (n := n) hse
    exact ⟨se', hse', hnext⟩
  · obtain ⟨hpos, se, hse, href, hstr⟩ := h.entry p hp
    obtain ⟨se', hse', -, hstr', href'⟩ := addRef_of_some (n := n) hse
    refine ⟨hpos, se', hse', ?_, hstr'.trans hstr⟩
    rw [href']
    split
    · next heq =>
      rw [heq, refcount_eq hse] at hn
      bv_omega
    · exact href
  · rw [addRef_getElem?] at hi
    obtain ⟨se, hse, rfl⟩ := Option.map_eq_some_iff.mp hi
    by_cases hni : n = i
    · exact hni ▸ hmem
    · rw [if_neg hni] at href
      exact h.used i se hse href

theorem grow_getElem? (hse : st.strings[i]? = some se) : st.grow.strings[i]? = some se := by
  have hlt := (List.getElem?_eq_some_iff.mp hse).1
  exact (List.getElem?_append_left hlt).trans hse

theorem grow (h : Logged st log) : Logged st.grow log := by
  refine ⟨fun k => (h.chain k).congr fun i _ se hse => ⟨se, grow_getElem? hse, rfl⟩, fun p hp => ?_,
    fun i se hi href => ?_, h.nodup⟩
  · obtain ⟨hpos, se, hse, hrest⟩ := h.entry p hp
    exact ⟨hpos, se, grow_getElem? hse, hrest⟩
  · by_cases hlt : i < st.strings.length
    · exact h.used i se ((List.getElem?_append_left hlt).symm.trans hi) href
    · have hnew := (List.getElem?_append_right (Nat.not_lt.mp hlt)).symm.trans hi
      have hzero := List.eq_of_mem_replicate (List.mem_of_getElem? hnew)
      exact absurd (congrArg MsiString.refcount hzero) href

theorem free_of_freeFrom {k : ℕ} (hk : k ≠ 0) (h : st.freeFrom k = some n) :
    n ≠ 0 ∧ ∃ se, st.strings[n]? = some se ∧ se.refcount = 0 := by
  have hmem := List.mem_range'_1.mp (List.mem_of_find?_eq_some h)
  have hfree := List.find?_some h
  have hlt : n < st.strings.length := by omega
  refine ⟨by omega, _, List.getElem?_eq_getElem hlt, ?_⟩
  rw [← refcount_eq (List.getElem?_eq_getElem hlt)]
  exact of_decide_eq_true hfree

/-- The position that is found, in the table or in the larger one, is free. -/
theorem findFreeEntry (h : Logged st log) (hpos : st.strings ≠ []) :
    ∃ st' n, st.findFreeEntry true = (st', some n) ∧ Logged st' log ∧ n ≠ 0 ∧
      st'.codepage = st.codepage ∧ ∃ se, st'.strings[n]? = some se ∧ se.refcount = 0 := by
  have hfound : ∀ {k n}, k ≠ 0 → st.freeFrom k = some n → Logged st log ∧ n ≠ 0 ∧
      st.codepage = st.codepage ∧ ∃ se, st.strings[n]? = some se ∧ se.refcount = 0 :=
    fun hk hn => ⟨h, (free_of_freeFrom hk hn).1, rfl, (free_of_freeFrom hk hn).2⟩
  unfold StringTable.findFreeEntry
  split
  · next n hn =>
    refine ⟨st, n, rfl, ?_⟩
    split at hn
    · next hslot => exact hfound hslot hn
    · cases hn
  · split
    · next n hn => exact ⟨st, n, rfl, hfound Nat.one_ne_zero hn⟩
    · refine ⟨st.grow, st.strings.length, rfl, h.grow, ?_, rfl, MsiString.zero, ?_, rfl⟩
      · exact fun hlen => hpos (List.length_eq_zero_iff.mp hlen)
      · refine (List.getElem?_append_right (Nat.le_refl _)).trans ?_
        rw [Nat.sub_self, Nat.add_comm, List.replicate_succ, List.getElem?_cons_zero]

end Logged

end Wine.Msi
