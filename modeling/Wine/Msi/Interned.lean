import Wine.Msi.StringTable

/-!
# Interning strings

A run of additions hands out positions. As long as additions under a position of the table's own
choice take a string as a whole, a position keeps its string, a string that is added again keeps its
position, and exactly the strings that were added are found.
-/

namespace Wine.Msi

/-- An addition; a length is given by `len`, and position 0 stands for one that the table chooses. -/
inductive Call
  | addStringW (n : ℕ) (data : List WChar) (len : Option ℕ) (mem : Allocations)
  | addString (n : ℕ) (data : List Byte) (len : Option ℕ) (mem : Allocations)

namespace Call

def id : Call → ℕ
  | addStringW n _ _ _ => n
  | addString n _ _ _ => n

def mem : Call → Allocations
  | addStringW _ _ _ mem => mem
  | addString _ _ _ mem => mem

def Nonempty : Call → Prop
  | addStringW _ data _ _ => data ≠ []
  | addString _ data _ _ => data ≠ []

/-- The length is within the string. -/
def Within : Call → Prop
  | addStringW _ data len _ => len.getD data.length ≤ data.length
  | addString _ data len _ => len.getD data.length ≤ data.length

variable (toWide : BitVec 32 → List Byte → Option (List WChar))

def run (st : StringTable) : Call → Except Fault (StringTable × Option ℕ)
  | addStringW n data len mem => st.addStringW n data len mem
  | addString n data len mem => st.addString toWide n data len mem

/-- The characters to add, unless they cannot be converted. -/
def chars (codepage : BitVec 32) : Call → Option (List WChar)
  | addStringW _ data len _ => some (data.take (len.getD data.length))
  | addString _ data len _ =>
    if data.take (len.getD data.length) = [] then some []
    else StringTable.convert toWide codepage (data.take (len.getD data.length))

/-- The characters up to the terminator. -/
def text (codepage : BitVec 32) : Call → Option (List WChar)
  | addStringW _ data _ _ => some data
  | addString _ data _ _ => StringTable.convert toWide codepage data

end Call

structure Event where
  call : Call
  before : StringTable
  after : StringTable
  result : Option ℕ

section
variable (toWide : BitVec 32 → List Byte → Option (List WChar)) (codepage : BitVec 32)

/-- Additions to a new table, the last one first; `P` says which ones there are. -/
inductive Run (P : StringTable → Call → Prop) (entries : ℕ) : List Event → StringTable → Prop
  | init : Run P entries [] (.init entries codepage)
  | step {t : List Event} {st st' : StringTable} {c : Call} {r : Option ℕ} :
    Run P entries t st → P st c → c.run toWide st = .ok (st', r) →
    Run P entries (⟨c, st, st', r⟩ :: t) st'

/-- The additions that the interface allows. -/
structure Allowed (st : StringTable) (c : Call) : Prop where
  within : c.Within
  lt : c.id < st.strings.length

/-- The additions after which all is well. -/
structure Clean (st : StringTable) (c : Call) : Prop extends Allowed st c where
  nonempty : c.Nonempty
  chars : ∃ w, c.chars toWide st.codepage = some w
  whole : c.id = 0 → c.text toWide st.codepage = c.chars toWide st.codepage
  mem : c.mem.search = true ∧ c.mem.grow = true
  count : c.id = 0 → ∀ w i, c.chars toWide st.codepage = some w →
    st.string2idW w = .ok (some i) → st.refcount i ≠ 0xffffffff

/-- The position that was handed out last for a string. -/
def lastId (t : List Event) (w : List WChar) : Option ℕ :=
  t.findSome? fun e => if e.call.chars toWide codepage = some w then e.result else none

structure Interned (t : List Event) (st : StringTable) : Prop where
  lookup : ∀ e ∈ t, ∀ i, e.result = some i →
    ∃ w, e.call.chars toWide codepage = some w ∧ st.lookupId i = some w
  distinct : ∀ e ∈ t, ∀ e' ∈ t, ∀ i, e.result = some i → e'.result = some i →
    e.call.chars toWide codepage = e'.call.chars toWide codepage
  found : ∀ w, (∃ i, st.string2idW w = .ok (some i)) ↔
    ∃ e ∈ t, e.call.chars toWide codepage = some w ∧ ∃ i, e.result = some i
  again : ∀ later e t', t = later ++ e :: t' → e.call.id = 0 → ∀ w i,
    e.call.chars toWide codepage = some w → lastId toWide codepage t' w = some i →
    e.result = some i ∧ (e.after.refcount i).toNat = (e.before.refcount i).toNat + 1

end

variable {toWide : BitVec 32 → List Byte → Option (List WChar)} {codepage : BitVec 32}
  {entries n : ℕ} {t : List Event} {st st' : StringTable} {c : Call} {r : Option ℕ}
  {log : List (ℕ × List WChar)} {str w : List WChar} {mem : Allocations} {se : MsiString}

/-! ## One addition -/

/-- What an addition of `w` under the position `n` does. -/
inductive Added (st : StringTable) (log : List (ℕ × List WChar)) (n : ℕ) (w : List WChar) :
    StringTable → Option ℕ → List (ℕ × List WChar) → Prop
  | failed {st' : StringTable} : (n = 0 → log.find? (fun p => p.2 = w) = none) →
    Added st log n w st' none log
  | known {p : ℕ × List WChar} : n = 0 → log.find? (fun p => p.2 = w) = some p →
    Added st log n w (st.addRef p.1) (some p.1) log
  | stored {st' : StringTable} {i : ℕ} : (n = 0 → log.find? (fun p => p.2 = w) = none) →
    Added st log n w st' (some i) ((i, w) :: log)

theorem store_spec {a : StringTable} {k : ℕ} (h : Logged st log) (hn : n ≠ 0)
    (hse : st.strings[n]? = some se) (hfree : se.refcount = 0) (m : Bool)
    (hnew : k = 0 → log.find? (fun p => p.2 = w) = none) :
    ∃ st' r log', st.store n w m = .ok (st', r) ∧ st'.codepage = st.codepage ∧ st'.strings ≠ [] ∧
      Logged st' log' ∧ Added a log k w st' r log' := by
  have hlt := (List.getElem?_eq_some_iff.mp hse).1
  have hne : st.strings ≠ [] := List.ne_nil_of_length_pos (Nat.zero_lt_of_lt hlt)
  unfold StringTable.store
  rw [if_neg (Nat.not_lt.mpr (Nat.one_le_iff_ne_zero.mpr hn))]
  cases m with
  | false => exact ⟨st, none, log, rfl, rfl, hne, h, .failed hnew⟩
  | true =>
    refine ⟨st.setEntry n w, some n, (n, w) :: log, ?_, rfl, ?_, h.setEntry hn hse hfree,
      .stored hnew⟩
    · simp only [Bool.not_true, Bool.false_eq_true, if_false, StringTable.setStEntry, if_pos hlt]
      rfl
    · exact fun hnil => hne ((List.set_eq_nil_iff ..).mp hnil)

theorem intern_spec (h : Logged st log) (hpos : st.strings ≠ []) (hlt : n < st.strings.length)
    {find : Except Fault (Option ℕ)} (hfind : n = 0 → find = st.string2idW w)
    (hmem : mem.grow = true)
    (hcount : n = 0 → ∀ i, st.string2idW w = .ok (some i) → st.refcount i ≠ 0xffffffff) :
    ∃ st' r log', st.intern n find w mem = .ok (st', r) ∧ st'.codepage = st.codepage ∧
      st'.strings ≠ [] ∧ Logged st' log' ∧ Added st log n w st' r log' := by
  unfold StringTable.intern
  by_cases hn : n = 0
  · rw [if_neg (not_not.mpr hn), hfind hn]
    rw [h.find] at hcount ⊢
    cases hlog : log.find? fun p => p.2 = w with
    | some p =>
      refine ⟨st.addRef p.1, some p.1, log, rfl, rfl, ?_, h.addRef ?_ ?_, .known hn hlog⟩
      · exact fun hnil => hpos (List.modify_eq_nil_iff.mp hnil)
      · exact List.mem_map_of_mem (List.mem_of_find?_eq_some hlog)
      · exact hcount hn p.1 (by rw [hlog]; rfl)
    | none =>
      obtain ⟨st', i, hfree, h', hi, hcp, se, hse, hz⟩ := h.findFreeEntry hpos
      obtain ⟨st'', r, log', hstore, hcp', hpos', hlogged, hadd⟩ :=
        store_spec (a := st) h' hi hse hz mem.string fun _ : n = 0 => hlog
      refine ⟨st'', r, log', ?_, hcp'.trans hcp, hpos', hlogged, hadd⟩
      rw [hmem, hfree]
      exact hstore
  · rw [if_pos hn, List.getElem?_eq_getElem hlt]
    dsimp only
    by_cases hz : (st.strings[n]).refcount = 0
    · rw [if_neg (not_not.mpr hz)]
      exact store_spec h hn (List.getElem?_eq_getElem hlt) hz _ fun h0 => absurd h0 hn
    · rw [if_pos hz]
      exact ⟨st, none, log, rfl, rfl, hpos, h, .failed fun h0 => absurd h0 hn⟩

theorem run_eq (hc : Clean toWide st c) (hw : c.chars toWide st.codepage = some w) :
    ∃ find, c.run toWide st = st.intern c.id find w c.mem ∧
      (c.id = 0 → find = st.string2idW w) := by
  have hwhole := hc.whole
  have hsearch := hc.mem.1
  have hne := hc.nonempty
  rw [hw] at hwhole
  cases c with
  | addStringW n data len mem =>
    cases hw
    refine ⟨st.string2idW data, if_neg hne, fun hn => ?_⟩
    exact congrArg _ (Option.some.inj (hwhole hn))
  | addString n data len mem =>
    refine ⟨st.string2idA toWide data mem.search, ?_, fun hn => ?_⟩
    · refine (if_neg hne).trans (congrArg (st.intern n _ · mem) ?_)
      dsimp only [Call.chars] at hw
      split at hw
      · next hnil =>
        rw [hnil]
        exact Option.some.inj hw
      · rw [hw, Option.getD_some]
    · have htext : StringTable.convert toWide st.codepage data = some w := hwhole hn
      have hmem : mem.search = true := hsearch
      unfold StringTable.string2idA
      rw [if_neg hne, htext, hmem]
      rfl

theorem clean_spec (h : Logged st log) (hpos : st.strings ≠ []) (hc : Clean toWide st c)
    (hw : c.chars toWide st.codepage = some w) :
    ∃ st' r log', c.run toWide st = .ok (st', r) ∧ st'.codepage = st.codepage ∧
      st'.strings ≠ [] ∧ Logged st' log' ∧ Added st log c.id w st' r log' := by
  obtain ⟨find, hrun, hfind⟩ := run_eq hc hw
  rw [hrun]
  exact intern_spec h hpos hc.lt hfind hc.mem.2 fun h0 i => hc.count h0 w i hw

/-! ## Runs -/

/-- The log and the events tell the same. -/
structure Tells (toWide : BitVec 32 → List Byte → Option (List WChar)) (codepage : BitVec 32)
    (log : List (ℕ × List WChar)) (t : List Event) : Prop where
  last : ∀ w, (log.find? fun p => p.2 = w).map Prod.fst = lastId toWide codepage t w
  mem : ∀ e ∈ t, ∀ i, e.result = some i →
    ∃ w, e.call.chars toWide codepage = some w ∧ (i, w) ∈ log

theorem lastId_cons {e : Event} (he : e.call.chars toWide codepage = some str) :
    lastId toWide codepage (e :: t) w =
      if str = w then e.result.or (lastId toWide codepage t w)
      else lastId toWide codepage t w := by
  unfold lastId
  rw [List.findSome?_cons, he]
  simp only [Option.some.injEq]
  by_cases heq : str = w
  · simp only [if_pos heq]
    cases e.result <;> rfl
  · simp only [if_neg heq]

theorem Tells.add {st₀ st₁ : StringTable} (h : Tells toWide codepage log t)
    {log' : List (ℕ × List WChar)} (hw : c.chars toWide codepage = some w)
    (ha : Added st log c.id w st' r log') :
    Tells toWide codepage log' (⟨c, st₀, st₁, r⟩ :: t) := by
  have hlast := fun v => lastId_cons (t := t) (e := ⟨c, st₀, st₁, r⟩) (w := v) hw
  have hold : ∀ log'' : List (ℕ × List WChar), (∀ p ∈ log, p ∈ log'') →
      (∀ i, r = some i → (i, w) ∈ log'') → ∀ e ∈ (⟨c, st₀, st₁, r⟩ : Event) :: t, ∀ i,
      e.result = some i → ∃ w, e.call.chars toWide codepage = some w ∧ (i, w) ∈ log'' := by
    intro log'' hsub hnew e he i hi
    obtain rfl | he := List.mem_cons.mp he
    · exact ⟨w, hw, hnew i hi⟩
    · obtain ⟨v, hv, hmem⟩ := h.mem e he i hi
      exact ⟨v, hv, hsub _ hmem⟩
  cases ha with
  | failed _ =>
    refine ⟨fun v => ?_, hold log (fun _ hp => hp) fun i hi => by cases hi⟩
    rw [hlast, h.last, Option.none_or, ite_self]
  | @known p _ hp =>
    have hpw : p.2 = w := by simpa using List.find?_some hp
    refine ⟨fun v => ?_, hold log (fun _ hp => hp) fun i hi => ?_⟩
    · rw [hlast, h.last, Option.some_or]
      split
      · next heq => rw [← heq, ← h.last, hp, Option.map_some]
      · rfl
    · cases hi
      exact hpw ▸ List.mem_of_find?_eq_some hp
  | @stored _ i _ =>
    refine ⟨fun v => ?_, hold _ (fun _ hp => List.mem_cons_of_mem _ hp) fun j hj => ?_⟩
    · rw [hlast, List.find?_cons, ← h.last, Option.some_or]
      dsimp only
      by_cases heq : w = v
      · rw [if_pos heq, decide_eq_true heq, Option.map_some]
      · rw [if_neg heq, decide_eq_false heq]
    · cases hj
      exact List.mem_cons_self

theorem init_logged : Logged (.init entries codepage) [] := by
  refine ⟨fun h => rfl, fun p hp => absurd hp List.not_mem_nil, fun i se hi href => ?_,
    List.nodup_nil⟩
  have hzero := List.eq_of_mem_replicate (List.mem_of_getElem? hi)
  exact absurd (congrArg MsiString.refcount hzero) href

/-- What holds of a run besides its log: strings that are added again are found. -/
def Again (toWide : BitVec 32 → List Byte → Option (List WChar)) (codepage : BitVec 32)
    (t : List Event) : Prop :=
  ∀ later e t', t = later ++ e :: t' → e.call.id = 0 → ∀ w i,
    e.call.chars toWide codepage = some w → lastId toWide codepage t' w = some i →
    e.result = some i ∧ (e.after.refcount i).toNat = (e.before.refcount i).toNat + 1

theorem Again.cons {e : Event} (h : Again toWide codepage t)
    (he : e.call.id = 0 → ∀ w i, e.call.chars toWide codepage = some w →
      lastId toWide codepage t w = some i →
      e.result = some i ∧ (e.after.refcount i).toNat = (e.before.refcount i).toNat + 1) :
    Again toWide codepage (e :: t) := by
  intro later e' t' heq
  cases later with
  | nil =>
    cases heq
    exact he
  | cons x later =>
    cases heq
    exact h later e' t' rfl

theorem addRef_refcount {i : ℕ} (hi : i < st.strings.length) (hmax : st.refcount i ≠ 0xffffffff) :
    ((st.addRef i).refcount i).toNat = (st.refcount i).toNat + 1 := by
  have hse := List.getElem?_eq_getElem hi
  obtain ⟨se', hse', -, -, href⟩ := Logged.addRef_of_some (n := i) hse
  rw [if_pos rfl, ← Logged.refcount_eq hse, ← Logged.refcount_eq hse'] at href
  rw [href]
  bv_omega

theorem run_logged (h : Run toWide codepage (Clean toWide) entries t st) :
    ∃ log, Logged st log ∧ st.codepage = codepage ∧ st.strings ≠ [] ∧
      Tells toWide codepage log t ∧ Again toWide codepage t := by
  induction h with
  | init =>
    refine ⟨[], init_logged, rfl, ?_, ⟨fun w => rfl, fun e he => absurd he List.not_mem_nil⟩, ?_⟩
    · exact fun hnil => absurd (congrArg List.length hnil) (by simp [StringTable.init])
    · intro later e t' heq
      exact absurd heq.symm (List.append_ne_nil_of_right_ne_nil _ (List.cons_ne_nil _ _))
  | @step t st st' c r _ hc hrun ih =>
    obtain ⟨log, hlog, hcp, hpos, htells, hagain⟩ := ih
    obtain ⟨w, hw⟩ := hc.chars
    obtain ⟨st'', r', log', hrun', hcp', hpos', hlog', hadd⟩ := clean_spec hlog hpos hc hw
    cases hrun.symm.trans hrun'
    have hw' := hcp ▸ hw
    refine ⟨log', hlog', hcp'.trans hcp, hpos', htells.add hw' hadd, hagain.cons ?_⟩
    intro hid v i hv hi
    cases hv.symm.trans hw'
    rw [← htells.last] at hi
    obtain ⟨p, hp, rfl⟩ := Option.map_eq_some_iff.mp hi
    have hmem := List.mem_of_find?_eq_some hp
    have hmax : st.refcount p.1 ≠ 0xffffffff := hc.count hid w p.1 hw (by rw [hlog.find, hp]; rfl)
    cases hadd with
    | failed hnone => exact absurd (hp.symm.trans (hnone hid)) (Option.some_ne_none p)
    | known _ hq =>
      cases hq.symm.trans hp
      exact ⟨rfl, addRef_refcount (hlog.lt hmem) hmax⟩
    | stored hnone => exact absurd (hp.symm.trans (hnone hid)) (Option.some_ne_none p)

theorem run_interned (h : Run toWide codepage (Clean toWide) entries t st) :
    Interned toWide codepage t st ∧
      ∀ c, Clean toWide st c → ∃ r, c.run toWide st = .ok r := by
  obtain ⟨log, hlog, hcp, hpos, htells, hagain⟩ := run_logged h
  refine ⟨⟨fun e he i hi => ?_, fun e he e' he' i hi hi' => ?_, fun w => ?_, hagain⟩,
    fun c hc => ?_⟩
  · obtain ⟨w, hw, hmem⟩ := htells.mem e he i hi
    exact ⟨w, hw, hlog.lookup hmem⟩
  · obtain ⟨w, hw, hmem⟩ := htells.mem e he i hi
    obtain ⟨w', hw', hmem'⟩ := htells.mem e' he' i hi'
    cases hlog.unique hmem hmem' rfl
    rw [hw, hw']
  · rw [hlog.find]
    constructor
    · rintro ⟨i, hi⟩
      have hlast := (htells.last w).symm.trans (Except.ok.inj hi)
      obtain ⟨e, he, hsome⟩ := List.exists_of_findSome?_eq_some hlast
      split at hsome
      · next hw => exact ⟨e, he, hw, i, hsome⟩
      · cases hsome
    · rintro ⟨e, he, hw, i, hi⟩
      obtain ⟨w', hw', hmem⟩ := htells.mem e he i hi
      cases hw.symm.trans hw'
      have hfound : (log.find? fun p => p.2 = w).isSome :=
        List.find?_isSome.mpr ⟨(i, w), hmem, decide_eq_true (rfl : w = w)⟩
      obtain ⟨p, hp⟩ := Option.isSome_iff_exists.mp hfound
      exact ⟨p.1, congrArg (fun q => Except.ok (Option.map Prod.fst q)) hp⟩
  · obtain ⟨w, hw⟩ := hc.chars
    obtain ⟨st', r, log', hrun, -⟩ := clean_spec hlog hpos hc hw
    exact ⟨_, hrun⟩

/-- A code page of single bytes. -/
def toLatin (_ : BitVec 32) (data : List Byte) : Option (List WChar) :=
  some (data.map fun b => b.setWidth 16)

def allAllocations : Allocations := ⟨true, true, true⟩

def addAbc (n : ℕ) (len : Option ℕ) : Call := .addStringW n [97, 98, 99] len allAllocations

theorem addAbc_clean (hlt : n < st.strings.length)
    (hcount : n = 0 → ∀ i, st.string2idW [97, 98, 99] = .ok (some i) →
      st.refcount i ≠ 0xffffffff) : Clean toLatin st (addAbc n none) where
  within := Nat.le_refl _
  lt := hlt
  nonempty := List.cons_ne_nil _ _
  chars := ⟨_, rfl⟩
  whole _ := rfl
  mem := ⟨rfl, rfl⟩
  count h0 w i hw hi := by
    cases hw
    exact hcount h0 i hi

/-- The string is stored at 2, and found there the second time. -/
theorem run_interned_twice : ∃ t st, t.map Event.result = [some 2, some 2] ∧
    Interned toLatin 1252 t st ∧ ∀ c, Clean toLatin st c → ∃ r, c.run toLatin st = .ok r := by
  have hrun : (addAbc 2 none).run toLatin (.init 4 1252) =
      .ok ((StringTable.init 4 1252).setEntry 2 [97, 98, 99], some 2) := rfl
  have hagain : (addAbc 0 none).run toLatin ((StringTable.init 4 1252).setEntry 2 [97, 98, 99]) =
      .ok (((StringTable.init 4 1252).setEntry 2 [97, 98, 99]).addRef 2, some 2) := rfl
  have hfirst : Clean toLatin (.init 4 1252) (addAbc 2 none) :=
    addAbc_clean (by decide) (fun h => by cases h)
  refine ⟨_, _, rfl, run_interned (.step (.step .init hfirst hrun) (addAbc_clean ?_ ?_) hagain)⟩
  · decide
  · intro _ i hi
    have hfound : ((StringTable.init 4 1252).setEntry 2 [97, 98, 99]).string2idW [97, 98, 99] =
      .ok (some 2) := rfl
    cases hfound.symm.trans hi
    decide

/-- Two additions of the first two characters of "abc": the second one does not find the string of
the first one, as it looks for all three characters. -/
theorem run_not_interned : ∃ t st, Run toLatin 1252 Allowed 4 t st ∧
    ¬ Interned toLatin 1252 t st := by
  have hrun : (addAbc 0 (some 2)).run toLatin (.init 4 1252) =
      .ok ((StringTable.init 4 1252).setEntry 1 [97, 98], some 1) := rfl
  have hagain : (addAbc 0 (some 2)).run toLatin ((StringTable.init 4 1252).setEntry 1 [97, 98]) =
      .ok (((StringTable.init 4 1252).setEntry 1 [97, 98]).setEntry 2 [97, 98], some 2) := rfl
  refine ⟨_, _, .step (.step .init ⟨?_, ?_⟩ hrun) ⟨?_, ?_⟩ hagain, fun h => ?_⟩
  · exact show 2 ≤ 3 by decide
  · decide
  · exact show 2 ≤ 3 by decide
  · decide
  · obtain ⟨hres, -⟩ := h.again [] _ _ rfl rfl [97, 98] 1 rfl rfl
    cases hres

end Wine.Msi
