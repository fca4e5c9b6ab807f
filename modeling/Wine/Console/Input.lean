import Mathlib.Data.List.TakeWhile
import Wine.Console.Buffers

/-!
# Console input

`write_console_input` copies a batch of records to the end of the queue and, in the processed mode,
takes the Ctrl-C key events out of the copy again. It looks for them in the caller's array, which is
not shifted when the copy is.
-/

namespace Wine.Console.Input
open Wine.Server (Status statusNoMemory)

/-- The `KEY_EVENT_RECORD` is the largest member of the event union, so the other events are read
through it as well. -/
structure KeyEventRecord where
  bKeyDown : BitVec 32
  wRepeatCount : BitVec 16
  wVirtualKeyCode : BitVec 16
  wVirtualScanCode : BitVec 16
  unicodeChar : BitVec 16
  dwControlKeyState : BitVec 32
  deriving DecidableEq, Repr

structure InputRecord where
  eventType : BitVec 16
  event : KeyEventRecord
  deriving DecidableEq, Repr

def keyEvent : BitVec 16 := 0x01
def enhancedKey : BitVec 32 := 0x0100

structure ConsoleInput where
  refs : ℤ
  mode : BitVec 32
  records : List InputRecord
  event : Bool
  /-- The groups of the `CTRL_C` events raised so far. -/
  ctrlC : List ℕ
  error : Option Status
  deriving DecidableEq, Repr

def ConsoleInput.propagateConsoleSignal (c : ConsoleInput) (group : ℕ) : ConsoleInput :=
  { c with ctrlC := c.ctrlC ++ [group] }

def InputRecord.IsCtrlC (r : InputRecord) : Prop :=
  r.eventType = keyEvent ∧ r.event.unicodeChar = 3 ∧ r.event.dwControlKeyState &&& enhancedKey = 0

instance (r : InputRecord) : Decidable r.IsCtrlC := by unfold InputRecord.IsCtrlC; infer_instance

def InputRecord.Down (r : InputRecord) : Prop := r.event.bKeyDown ≠ 0

instance (r : InputRecord) : Decidable r.Down := by unfold InputRecord.Down; infer_instance

/-- `memcpy` of `len` records from the one after `at` onto the place of `at`. -/
def shift (buf : List InputRecord) (pos len : ℕ) : List InputRecord :=
  buf.take pos ++ (buf.drop (pos + 1)).take len ++ buf.drop (pos + len)

/-- The state of the loop: the console, its buffer and the number of new records left in it. -/
structure Filtering where
  console : ConsoleInput
  buf : List InputRecord
  count : ℕ
  deriving DecidableEq, Repr

/-- The loop, where `left` is `count - i`. The record looked at is `records[i]`, wherever that record
now is in the buffer. -/
def filterLoop (records : List InputRecord) (recnum : ℕ) : ℕ → ℕ → Filtering → Filtering
  | 0, _, f => f
  | left + 1, i, f =>
    match records[i]? with
    | none => f
    | some r =>
      if r.IsCtrlC then
        filterLoop records recnum left i
          { console := if r.Down then f.console.propagateConsoleSignal 0 else f.console
            buf := if i ≠ f.count - 1 then shift f.buf (recnum + i) (f.count - i - 1) else f.buf
            count := f.count - 1 }
      else filterLoop records recnum left (i + 1) f

/-- `mem` is the outcome of the `realloc`. -/
def writeConsoleInput (c : ConsoleInput) (records : List InputRecord) (mem : Bool) :
    ConsoleInput × ℤ :=
  if records.length = 0 then (c, 0)
  else if ¬ mem then
    ({ c with error := some statusNoMemory, refs := c.refs - 1 }, -1)
  else
    let f : Filtering := ⟨c, c.records ++ records, records.length⟩
    let f := if c.mode &&& enableProcessedInput ≠ 0 then
      filterLoop records c.records.length records.length 0 f else f
    ({ f.console with
        event := if c.records.length = 0 ∧ f.count ≠ 0 then true else f.console.event
        records := f.buf.take (c.records.length + f.count) }, f.count)

/-- `count` is the room for records in the reply. Reading into no room at all asks for the number of
records. -/
def readConsoleInput (c : ConsoleInput) (count : ℕ) (flush : Bool) :
    ConsoleInput × List InputRecord × ℕ :=
  let n := if count = 0 then c.records.length else min count c.records.length
  let data := if count = 0 then [] else c.records.take n
  if flush then
    ({ c with
        records := c.records.drop n
        event := if c.records.length - n > 0 then c.event else false }, data, n)
  else (c, data, n)

/-! ## What the loop does -/

def beforeCtrlC (records : List InputRecord) : List InputRecord :=
  records.takeWhile (¬ ·.IsCtrlC)

def fromCtrlC (records : List InputRecord) : List InputRecord :=
  records.dropWhile (¬ ·.IsCtrlC)

theorem beforeCtrlC_cons (r : InputRecord) (l : List InputRecord) :
    beforeCtrlC (r :: l) = if r.IsCtrlC then [] else r :: beforeCtrlC l := by
  by_cases h : r.IsCtrlC <;> simp [beforeCtrlC, h]

theorem fromCtrlC_cons (r : InputRecord) (l : List InputRecord) :
    fromCtrlC (r :: l) = if r.IsCtrlC then r :: l else fromCtrlC l := by
  by_cases h : r.IsCtrlC <;> simp [fromCtrlC, h]

/-- The number of times the loop raises `CTRL_C` over the records from the first Ctrl-C on. -/
def raised : List InputRecord → ℕ
  | [] => 0
  | r :: l => if r.Down then (r :: l).length else 0

def ConsoleInput.raise (c : ConsoleInput) (n : ℕ) : ConsoleInput :=
  { c with ctrlC := c.ctrlC ++ List.replicate n 0 }

@[simp] theorem raise_zero (c : ConsoleInput) : c.raise 0 = c := by
  simp [ConsoleInput.raise]

theorem propagateConsoleSignal_raise (c : ConsoleInput) (n : ℕ) :
    (c.propagateConsoleSignal 0).raise n = c.raise (n + 1) := by
  simp [ConsoleInput.raise, ConsoleInput.propagateConsoleSignal, List.replicate_succ]

theorem take_shift {buf : List InputRecord} {pos len : ℕ} (h : pos ≤ buf.length) :
    (shift buf pos len).take pos = buf.take pos := by
  unfold shift
  rw [List.append_assoc, List.take_append_of_le_length (by simp [h]), List.take_take, min_self]

theorem length_shift {buf : List InputRecord} {pos len : ℕ} (h : pos + (len + 1) ≤ buf.length) :
    (shift buf pos len).length = buf.length := by
  simp only [shift, List.length_append, List.length_take, List.length_drop]
  omega

/-- Once a Ctrl-C is found the loop never moves on: it takes out one record after the other until
none is left, and signals each time or never. -/
theorem filterLoop_stuck {records : List InputRecord} {recnum i : ℕ} {r : InputRecord}
    (hr : records[i]? = some r) (hc : r.IsCtrlC) (left : ℕ) (f : Filtering)
    (hcount : f.count = i + left) (hbuf : recnum + f.count ≤ f.buf.length) :
    let g := filterLoop records recnum left i f
    g.count = i ∧ g.buf.take (recnum + i) = f.buf.take (recnum + i) ∧
      g.console = f.console.raise (if r.Down then left else 0) := by
  induction left generalizing f with
  | zero => exact ⟨hcount, rfl, by simp [filterLoop]⟩
  | succ left ih =>
    simp only [filterLoop, hr, hc, if_true]
    generalize hb : (if i ≠ f.count - 1 then shift f.buf (recnum + i) (f.count - i - 1)
      else f.buf) = buf
    have hlen : buf.length = f.buf.length := by
      rw [← hb]
      split
      · exact length_shift (by omega)
      · rfl
    have htake : buf.take (recnum + i) = f.buf.take (recnum + i) := by
      rw [← hb]
      split
      · exact take_shift (by omega)
      · rfl
    obtain ⟨hcount', htake', hconsole⟩ := ih
      ⟨if r.Down then f.console.propagateConsoleSignal 0 else f.console, buf, f.count - 1⟩
      (by simp only; omega) (by simp only; omega)
    refine ⟨hcount', htake'.trans htake, hconsole.trans ?_⟩
    by_cases hd : r.Down
    · simp only [hd, if_true]
      exact propagateConsoleSignal_raise _ _
    · simp only [hd, if_false]

theorem filterLoop_spec (records : List InputRecord) (recnum left i : ℕ) (f : Filtering)
    (hleft : i + left = records.length) (hcount : f.count = records.length)
    (hbuf : recnum + f.count ≤ f.buf.length) :
    let g := filterLoop records recnum left i f
    let n := i + (beforeCtrlC (records.drop i)).length
    g.count = n ∧ g.buf.take (recnum + n) = f.buf.take (recnum + n) ∧
      g.console = f.console.raise (raised (fromCtrlC (records.drop i))) := by
  induction left generalizing i with
  | zero =>
    have hnil : records.drop i = [] := List.drop_eq_nil_of_le (by omega)
    simp [hnil, filterLoop, beforeCtrlC, fromCtrlC, raised]
    omega
  | succ left ih =>
    have hi : i < records.length := by omega
    have hdrop : records.drop i = records[i] :: records.drop (i + 1) :=
      (List.getElem_cons_drop hi).symm
    have hget : records[i]? = some records[i] := List.getElem?_eq_getElem hi
    by_cases hc : records[i].IsCtrlC
    · have hbefore : beforeCtrlC (records.drop i) = [] := by
        rw [hdrop, beforeCtrlC_cons, if_pos hc]
      have hfrom : fromCtrlC (records.drop i) = records.drop i := by
        rw [hdrop, fromCtrlC_cons, if_pos hc]
      have hraised : raised (records.drop i) = if records[i].Down then left + 1 else 0 := by
        have hlen : (records[i] :: records.drop (i + 1)).length = left + 1 := by
          rw [← hdrop, List.length_drop]
          omega
        simp only [hdrop, raised, hlen]
      simp only [hbefore, hfrom, hraised]
      exact filterLoop_stuck hget hc (left + 1) f (by omega) hbuf
    · have hbefore : (beforeCtrlC (records.drop i)).length =
          (beforeCtrlC (records.drop (i + 1))).length + 1 := by
        rw [hdrop, beforeCtrlC_cons, if_neg hc, List.length_cons]
      have hfrom : fromCtrlC (records.drop i) = fromCtrlC (records.drop (i + 1)) := by
        rw [hdrop, fromCtrlC_cons, if_neg hc]
      have hnext := ih (i + 1) (by omega)
      simp only [hbefore, hfrom, filterLoop, hget, hc, if_false, Nat.add_comm _ 1,
        ← Nat.add_assoc] at hnext ⊢
      exact hnext

theorem writeConsoleInput_processed {c : ConsoleInput} (records : List InputRecord)
    (hmode : c.mode &&& enableProcessedInput ≠ 0) :
    let c' := (writeConsoleInput c records true).1
    c'.records = c.records ++ beforeCtrlC records ∧
      c'.ctrlC = c.ctrlC ++ List.replicate (raised (fromCtrlC records)) 0 := by
  obtain ⟨hcount, htake, hconsole⟩ := filterLoop_spec records c.records.length records.length
    0 ⟨c, c.records ++ records, records.length⟩ (by omega) rfl (by simp)
  simp only [List.drop_zero, Nat.zero_add] at hcount htake hconsole
  unfold writeConsoleInput
  by_cases hnil : records.length = 0
  · obtain rfl := List.eq_nil_of_length_eq_zero hnil
    simp [raised, beforeCtrlC, fromCtrlC]
  · have hprefix : records.take (beforeCtrlC records).length = beforeCtrlC records :=
      (List.prefix_iff_eq_take.mp (List.takeWhile_prefix _)).symm
    simp only [hnil, if_false, not_true_eq_false, hmode, ne_eq, not_false_eq_true, if_true, hcount,
      htake, hconsole, List.take_length_add_append, hprefix, true_and]
    rfl

/-! ## The event -/

/-! ## Which batches are filtered -/

/-- The queue has grown by the records of the batch that are not Ctrl-C key events, and `CTRL_C` was
raised for each of the others that is a key-down. -/
structure Filtered (c c' : ConsoleInput) (batch : List InputRecord) : Prop where
  records : c'.records = c.records ++ batch.filter (¬ ·.IsCtrlC)
  ctrlC : c'.ctrlC = c.ctrlC ++ List.replicate (batch.countP fun r => r.IsCtrlC ∧ r.Down) 0

/-- From the first Ctrl-C on there are only Ctrl-C's, all of them key-downs or all key-ups. -/
def OneKind (records : List InputRecord) : Prop :=
  (∀ r ∈ fromCtrlC records, r.IsCtrlC ∧ r.Down) ∨ ∀ r ∈ fromCtrlC records, r.IsCtrlC ∧ ¬ r.Down

instance (records : List InputRecord) : Decidable (OneKind records) := by
  unfold OneKind
  infer_instance

theorem beforeCtrlC_eq_filter_iff (l : List InputRecord) :
    beforeCtrlC l = l.filter (¬ ·.IsCtrlC) ↔ ∀ r ∈ fromCtrlC l, r.IsCtrlC := by
  unfold beforeCtrlC fromCtrlC
  induction l with
  | nil => simp
  | cons r l ih =>
    by_cases hp : r.IsCtrlC
    · simp [hp, eq_comm (a := ([] : List InputRecord)), List.filter_eq_nil_iff]
    · simpa [hp] using ih

theorem countP_beforeCtrlC (l : List InputRecord) :
    (beforeCtrlC l).countP (fun r => r.IsCtrlC ∧ r.Down) = 0 := by
  rw [List.countP_eq_zero]
  intro r hr
  have hnot := List.mem_takeWhile_imp hr
  simp only [decide_eq_true_eq] at hnot
  simp [hnot]

theorem countP_fromCtrlC (l : List InputRecord) :
    l.countP (fun r => r.IsCtrlC ∧ r.Down) =
      (fromCtrlC l).countP (fun r => r.IsCtrlC ∧ r.Down) := by
  have happ : beforeCtrlC l ++ fromCtrlC l = l := List.takeWhile_append_dropWhile
  have hsum := congrArg (List.countP fun r => decide (r.IsCtrlC ∧ r.Down)) happ
  rw [List.countP_append, countP_beforeCtrlC, Nat.zero_add] at hsum
  exact hsum.symm

theorem raised_eq_countP_iff {l : List InputRecord} (hall : ∀ r ∈ l, r.IsCtrlC) :
    raised l = l.countP (fun r => r.IsCtrlC ∧ r.Down) ↔
      (∀ r ∈ l, r.IsCtrlC ∧ r.Down) ∨ ∀ r ∈ l, r.IsCtrlC ∧ ¬ r.Down := by
  cases l with
  | nil => simp [raised]
  | cons r l =>
    by_cases hd : r.Down
    · have hup : ¬ ∀ s ∈ r :: l, s.IsCtrlC ∧ ¬ s.Down := fun h => (h r (List.mem_cons_self)).2 hd
      rw [or_iff_left hup, eq_comm]
      simp only [raised, hd, if_true]
      rw [List.countP_eq_length]
      simp only [decide_eq_true_eq]
    · have hdown : ¬ ∀ s ∈ r :: l, s.IsCtrlC ∧ s.Down := fun h => hd (h r (List.mem_cons_self)).2
      rw [or_iff_right hdown, eq_comm]
      simp only [raised, hd, if_false]
      rw [List.countP_eq_zero]
      constructor
      · intro h s hs
        have hs' := h s hs
        have hc := hall s hs
        simp only [decide_eq_true_eq, not_and] at hs'
        exact ⟨hc, hs' hc⟩
      · intro h s hs
        simp [(h s hs).2]

theorem writeConsoleInput_no_memory {c : ConsoleInput} (records : List InputRecord) :
    let c' := (writeConsoleInput c records false).1
    c'.records = c.records ∧ c'.ctrlC = c.ctrlC := by
  unfold writeConsoleInput
  split <;> simp

theorem filtered_writeConsoleInput_iff {c : ConsoleInput} (records : List InputRecord) (mem : Bool)
    (hmode : c.mode &&& enableProcessedInput ≠ 0) :
    Filtered c (writeConsoleInput c records mem).1 records ↔
      if mem then OneKind records else ∀ r ∈ records, r.IsCtrlC ∧ ¬ r.Down := by
  cases mem with
  | false =>
    obtain ⟨hrecords, hctrlC⟩ := writeConsoleInput_no_memory (c := c) records
    simp only [Bool.false_eq_true, if_false]
    constructor
    · rintro ⟨hr, hn⟩ r hmem
      rw [hrecords] at hr
      rw [hctrlC] at hn
      have hnone := List.filter_eq_nil_iff.mp (List.append_right_eq_self.mp hr.symm) r hmem
      have hzero := (List.replicate_eq_nil_iff 0).mp (List.append_right_eq_self.mp hn.symm)
      have hup := List.countP_eq_zero.mp hzero r hmem
      simp only [decide_not, Bool.not_eq_true', decide_eq_false_iff_not, not_not] at hnone
      simp only [decide_eq_true_eq, not_and] at hup
      exact ⟨hnone, hup hnone⟩
    · intro h
      constructor
      · rw [hrecords, List.filter_eq_nil_iff.mpr (by simpa using fun r hr => (h r hr).1),
          List.append_nil]
      · rw [hctrlC, List.countP_eq_zero.mpr (by simpa using fun r hr _ => (h r hr).2),
          List.replicate_zero, List.append_nil]
  | true =>
    obtain ⟨hrecords, hctrlC⟩ := writeConsoleInput_processed records hmode
    simp only [if_true]
    constructor
    · rintro ⟨hr, hn⟩
      rw [hrecords] at hr
      rw [hctrlC] at hn
      have hall := (beforeCtrlC_eq_filter_iff records).mp (List.append_cancel_left hr)
      have hcount := congrArg List.length (List.append_cancel_left hn)
      simp only [List.length_replicate] at hcount
      exact (raised_eq_countP_iff hall).mp (hcount.trans (countP_fromCtrlC records))
    · intro h
      have hall : ∀ r ∈ fromCtrlC records, r.IsCtrlC := by
        intro r hr
        rcases h with h | h
        · exact (h r hr).1
        · exact (h r hr).1
      constructor
      · rw [hrecords, (beforeCtrlC_eq_filter_iff records).mpr hall]
      · rw [hctrlC, (raised_eq_countP_iff hall).mpr h, ← countP_fromCtrlC]

def sampleKey (unicodeChar : BitVec 16) : InputRecord :=
  ⟨keyEvent, ⟨1, 1, 0, 0, unicodeChar, 0⟩⟩

def sampleConsole : ConsoleInput := ⟨1, enableProcessedInput, [], false, [], none⟩

theorem filtered_ctrlC_last :
    sampleConsole.mode &&& enableProcessedInput ≠ 0 ∧
      Filtered sampleConsole
        (writeConsoleInput sampleConsole [sampleKey 97, sampleKey 3, sampleKey 3] true).1
        [sampleKey 97, sampleKey 3, sampleKey 3] :=
  ⟨by decide, (filtered_writeConsoleInput_iff _ _ (by decide)).mpr (by decide)⟩

/-- A key typed after a Ctrl-C is lost, and the one Ctrl-C raises two signals. -/
theorem not_filtered_ctrlC_first :
    sampleConsole.mode &&& enableProcessedInput ≠ 0 ∧
      ¬ Filtered sampleConsole
        (writeConsoleInput sampleConsole [sampleKey 3, sampleKey 97] true).1
        [sampleKey 3, sampleKey 97] := by
  refine ⟨by decide, fun h => ?_⟩
  have hlost : [] = [sampleKey 97] := h.records
  cases hlost

end Wine.Console.Input
