import Wine.Lib.Links
import Wine.Lib.Runs
import Wine.Server.State

/-!
# Process and thread ids

The ids of processes and threads are places in an array. Freed ids form a queue that is threaded
through the array by id, with 0 as its end, and are handed out again in the order in which they were
freed.
-/

namespace Wine.Server
open Wine.Lib

/-- The address of a process or thread object. -/
abbrev PtidObj := ℕ

structure PtidEntry where
  ptr : Option PtidObj
  next : ℕ
  deriving DecidableEq, Repr

def ptidOffset : ℕ := 8

/-- `sizeof(struct ptid_entry)` -/
def sizeofPtidEntry : ℕ := 8

/-- `sizeof(struct object)` -/
def sizeofObject : ℕ := 20

/-- `entries` is the used part of the array and `capacity` the number of entries that its block has
room for. No function of the source reads `live`, the ids that are in use, or `waiting`, the ids
that were freed and not handed out since, in the order in which they were freed. -/
structure PtidTable where
  entries : List PtidEntry
  capacity : ℕ
  allocPtidEntries : ℕ
  nextFreePtid : ℕ
  lastFreePtid : ℕ
  error : Status
  live : List (ℕ × PtidObj)
  waiting : List ℕ
  deriving DecidableEq, Repr

inductive PtidFault
  | outOfBounds
  deriving DecidableEq, Repr

namespace PtidTable

def initial : PtidTable where
  entries := []
  capacity := 0
  allocPtidEntries := 0
  nextFreePtid := 0
  lastFreePtid := 0
  error := 0
  live := []
  waiting := []

def usedPtidEntries (s : PtidTable) : ℕ := s.entries.length

def liveIds (s : PtidTable) : List ℕ := s.live.map Prod.fst

/-- `ptid_entries[id - PTID_OFFSET].next` -/
def next (s : PtidTable) (id : ℕ) : ℕ := ((s.entries[id - ptidOffset]?).map (·.next)).getD 0

def handOut (s : PtidTable) (id : ℕ) (ptr : PtidObj) : ℕ × PtidTable :=
  (id, { s with live := (id, ptr) :: s.live, waiting := s.waiting.erase id })

/-- The first entry behind the used ones. Its `next` is not read before it is set. -/
def useEntry (s : PtidTable) (ptr : PtidObj) : Except PtidFault (ℕ × PtidTable) :=
  if s.usedPtidEntries < s.capacity then
    .ok (handOut { s with entries := s.entries ++ [⟨some ptr, 0⟩] }
      ((s.usedPtidEntries + ptidOffset) % 2 ^ 32) ptr)
  else .error .outOfBounds

def grownCount (s : PtidTable) : ℕ :=
  let count := (s.allocPtidEntries + s.allocPtidEntries / 2) % 2 ^ 32
  if count = 0 then 64 else count

/-- `mem` is the outcome of `realloc`. -/
def allocPtid (s : PtidTable) (ptr : PtidObj) (mem : Bool) : Except PtidFault (ℕ × PtidTable) :=
  if s.usedPtidEntries < s.allocPtidEntries then s.useEntry ptr
  else if s.nextFreePtid ≠ 0 then
    let id := s.nextFreePtid
    match s.entries[id - ptidOffset]? with
    | none => .error .outOfBounds
    | some entry =>
      .ok (handOut { s with
        entries := s.entries.set (id - ptidOffset) { entry with ptr := some ptr }
        nextFreePtid := entry.next
        lastFreePtid := if entry.next = 0 then 0 else s.lastFreePtid } id ptr)
  else if mem = false then .ok (0, { s with error := statusNoMemory })
  else
    -- the size of the block is the product in 32 bits
    { s with
      allocPtidEntries := s.grownCount
      capacity := s.grownCount * sizeofPtidEntry % 2 ^ 32 / sizeofPtidEntry }.useEntry ptr

/-- The id is no longer in use and waits to be handed out again. -/
def retire (s : PtidTable) (id : ℕ) : PtidTable :=
  { s with live := s.live.filter fun e => e.1 ≠ id, waiting := s.waiting ++ [id] }

def inBounds (s : PtidTable) (id : ℕ) : Bool :=
  ptidOffset ≤ id && id - ptidOffset < s.usedPtidEntries

def freePtid (s : PtidTable) (id : ℕ) : Except PtidFault PtidTable :=
  if s.inBounds id = false then .error .outOfBounds
  else
    let entries := s.entries.set (id - ptidOffset) ⟨none, 0⟩
    if s.lastFreePtid ≠ 0 then
      -- append to end of free list so that we don't reuse it too early
      if s.inBounds s.lastFreePtid = false then .error .outOfBounds
      else .ok (retire { s with
        entries := entries.modify (s.lastFreePtid - ptidOffset) fun e => { e with next := id }
        lastFreePtid := id } id)
    else .ok (retire { s with entries := entries, nextFreePtid := id, lastFreePtid := id } id)

def getPtidEntry (s : PtidTable) (id : ℕ) : Option PtidObj :=
  if id < ptidOffset then none
  else if s.usedPtidEntries ≤ id - ptidOffset then none
  else (s.entries[id - ptidOffset]?).bind (·.ptr)

end PtidTable

inductive PtidAction
  | alloc (ptr : PtidObj) (mem : Bool)
  | free (id : ℕ)
  deriving DecidableEq, Repr

namespace PtidTable

def step (s : PtidTable) : PtidAction → Except PtidFault PtidTable
  | .alloc ptr mem => (s.allocPtid ptr mem).map (·.2)
  | .free id => s.freePtid id

/-- An id is freed while it is in use. The array, the objects of the ids in use and the new object
stand in one address space of 32 bits. -/
def Allowed (s : PtidTable) : PtidAction → Prop
  | .alloc _ _ =>
    sizeofPtidEntry * s.allocPtidEntries + sizeofObject * (s.live.length + 1) ≤ 2 ^ 32
  | .free id => id ∈ s.liveIds

/-- The freed ids are threaded through the array, and they and the ids in use are the used part of
the array. -/
structure Inv (s : PtidTable) : Prop where
  queue : Threaded s.next 0 s.nextFreePtid s.waiting
  last : s.lastFreePtid = s.waiting.getLast?.getD 0
  ids : (s.waiting ++ s.liveIds).Perm ((List.range s.usedPtidEntries).map (· + ptidOffset))
  live : ∀ id o, s.getPtidEntry id = some o ↔ (id, o) ∈ s.live
  used : s.usedPtidEntries ≤ s.allocPtidEntries
  room : s.allocPtidEntries ≤ s.capacity
  least : s.allocPtidEntries = 0 ∨ 64 ≤ s.allocPtidEntries

variable {s s' : PtidTable} {id : ℕ} {ptr : PtidObj} {mem : Bool}

theorem inv_initial : Inv initial where
  queue := rfl
  last := rfl
  ids := List.Perm.refl _
  live id o := by
    have hnone : initial.getPtidEntry id = none := by
      simp [getPtidEntry, initial, usedPtidEntries]
    rw [hnone]
    simp [initial]
  used := Nat.le_refl 0
  room := Nat.le_refl 0
  least := .inl rfl

theorem Inv.nodup (h : Inv s) : (s.waiting ++ s.liveIds).Nodup := by
  rw [h.ids.nodup_iff]
  exact List.nodup_range.map fun a b hab => Nat.add_right_cancel hab

theorem Inv.mem_iff (h : Inv s) :
    id ∈ s.waiting ∨ id ∈ s.liveIds ↔ ptidOffset ≤ id ∧ id < s.usedPtidEntries + ptidOffset := by
  rw [← List.mem_append, h.ids.mem_iff, List.mem_map]
  constructor
  · rintro ⟨i, hi, rfl⟩
    have := List.mem_range.mp hi
    omega
  · rintro ⟨hle, hlt⟩
    exact ⟨id - ptidOffset, List.mem_range.mpr (by omega), by omega⟩

theorem inBounds_iff :
    s.inBounds id = true ↔ ptidOffset ≤ id ∧ id < s.usedPtidEntries + ptidOffset := by
  simp only [inBounds, Bool.and_eq_true, decide_eq_true_eq]
  omega

theorem Inv.inBounds_of_mem (h : Inv s) (hid : id ∈ s.waiting ∨ id ∈ s.liveIds) :
    s.inBounds id = true := inBounds_iff.mpr (h.mem_iff.mp hid)

theorem Inv.length (h : Inv s) : s.waiting.length + s.live.length = s.usedPtidEntries := by
  have hlen := h.ids.length_eq
  simpa [liveIds] using hlen

theorem Inv.not_live_of_waiting (h : Inv s) (hid : id ∈ s.waiting) : id ∉ s.liveIds :=
  fun hl => (List.nodup_append.mp h.nodup).2.2 id hid id hl rfl

theorem getPtidEntry_eq : s.getPtidEntry id =
    if id < ptidOffset then none else (s.entries[id - ptidOffset]?).bind (·.ptr) := by
  rw [getPtidEntry]
  split_ifs with hlow hhigh
  · rfl
  · rw [List.getElem?_eq_none hhigh]
    rfl
  · rfl

theorem mem_liveIds : id ∈ s.liveIds ↔ ∃ o, (id, o) ∈ s.live := by
  simp [liveIds]

/-- An id that was not handed out before is taken from the end of the used part. -/
theorem Inv.useEntry (h : Inv s) (ptr : PtidObj) (hroom : s.usedPtidEntries < s.allocPtidEntries)
    (hmem : sizeofPtidEntry * s.allocPtidEntries ≤ 2 ^ 32) :
    ∃ s', s.useEntry ptr = .ok (s.usedPtidEntries + ptidOffset, s') ∧ Inv s' ∧
      s.usedPtidEntries + ptidOffset ∉ s.waiting := by
  have hnew : ∀ i ∈ s.waiting ++ s.liveIds, i ≠ s.usedPtidEntries + ptidOffset := by
    intro i hi he
    have hlt := h.mem_iff.mp (List.mem_append.mp hi)
    omega
  have hnw : s.usedPtidEntries + ptidOffset ∉ s.waiting := fun hi =>
    hnew _ (List.mem_append_left _ hi) rfl
  have hsize : (s.usedPtidEntries + ptidOffset) % 2 ^ 32 = s.usedPtidEntries + ptidOffset :=
    Nat.mod_eq_of_lt (by simp only [sizeofPtidEntry, ptidOffset] at *; omega)
  refine ⟨_, by rw [PtidTable.useEntry, if_pos (Nat.lt_of_lt_of_le hroom h.room), hsize]; rfl,
    ?_, hnw⟩
  refine ⟨?_, ?_, ?_, ?_, ?_, h.room, h.least⟩
  · simp only [List.erase_of_not_mem hnw]
    refine h.queue.congr fun i hi => ?_
    have hb := h.mem_iff.mp (.inl hi)
    simp only [next]
    rw [List.getElem?_append_left (by simp only [usedPtidEntries] at hb; omega)]
  · simp only [List.erase_of_not_mem hnw]
    exact h.last
  · have hids := (h.ids.cons (s.usedPtidEntries + ptidOffset)).trans
      (List.perm_append_singleton _ _).symm
    simp only [List.erase_of_not_mem hnw]
    simpa only [liveIds, usedPtidEntries, List.map_cons,
      List.length_append, List.length_singleton, List.range_succ, List.map_append, List.map_nil]
      using List.perm_middle.trans hids
  · intro i o
    rw [getPtidEntry_eq]
    simp only [List.mem_cons, Prod.mk.injEq]
    by_cases hi : i = s.usedPtidEntries + ptidOffset
    · subst hi
      have hnl : (s.usedPtidEntries + ptidOffset, o) ∉ s.live := fun hl =>
        hnew _ (List.mem_append_right _ (List.mem_map_of_mem hl)) rfl
      rw [if_neg (by omega), Nat.add_sub_cancel]
      simp only [hnl, or_false, true_and]
      simp [usedPtidEntries, eq_comm]
    · rw [← h.live, getPtidEntry_eq]
      simp only [hi, false_and, false_or]
      split_ifs with hlow
      · rfl
      · rw [List.getElem?_append]
        split_ifs with hlt
        · rfl
        · have hne : i - ptidOffset - s.entries.length ≠ 0 := by
            simp only [usedPtidEntries] at hi
            omega
          obtain ⟨k, hk⟩ := Nat.exists_eq_succ_of_ne_zero hne
          rw [hk, List.getElem?_eq_none (Nat.le_of_not_lt hlt)]
          rfl
  · simp only [usedPtidEntries, List.length_append, List.length_singleton]
    exact hroom

/-- With all ids in use, the array has room in the address space to grow. -/
theorem Inv.grow (h : Inv s) (hfull : s.allocPtidEntries ≤ s.usedPtidEntries)
    (hwait : s.waiting = [])
    (hok : sizeofPtidEntry * s.allocPtidEntries + sizeofObject * (s.live.length + 1) ≤ 2 ^ 32) :
    let t := { s with
      allocPtidEntries := s.grownCount
      capacity := s.grownCount * sizeofPtidEntry % 2 ^ 32 / sizeofPtidEntry }
    Inv t ∧ t.usedPtidEntries < t.allocPtidEntries ∧
      sizeofPtidEntry * t.allocPtidEntries ≤ 2 ^ 32 := by
  have hlen := h.length
  have hused := h.used
  have hroom := h.room
  rw [hwait] at hlen
  simp only [sizeofPtidEntry, sizeofObject, List.length_nil] at hok hlen
  have hleast := h.least
  have hcount : s.usedPtidEntries < s.grownCount ∧ s.grownCount * 8 < 2 ^ 32 ∧
      64 ≤ s.grownCount := by
    rw [grownCount, Nat.mod_eq_of_lt (by omega)]
    split_ifs with h0 <;> omega
  have hcap : s.grownCount * 8 % 2 ^ 32 / 8 = s.grownCount := by
    rw [Nat.mod_eq_of_lt hcount.2.1]
    omega
  refine ⟨⟨h.queue, h.last, h.ids, h.live, Nat.le_of_lt hcount.1, ?_, .inr hcount.2.2⟩, hcount.1, ?_⟩
  · simp only [sizeofPtidEntry, hcap]
    exact Nat.le_refl _
  · simp only [sizeofPtidEntry]
    omega

/-- The id that was freed first is handed out. -/
theorem Inv.reuse (h : Inv s) {w : List ℕ} (hw : s.waiting = id :: w) {entry : PtidEntry}
    (he : s.entries[id - ptidOffset]? = some entry) :
    Inv (handOut { s with
      entries := s.entries.set (id - ptidOffset) { entry with ptr := some ptr }
      nextFreePtid := entry.next
      lastFreePtid := if entry.next = 0 then 0 else s.lastFreePtid } id ptr).2 := by
  have hq := h.queue
  rw [hw] at hq
  obtain ⟨hhead, hne, hrest⟩ := hq
  have hnext : s.next id = entry.next := by rw [next, he]; rfl
  rw [hnext] at hrest
  have hnodup := h.nodup
  rw [hw] at hnodup
  have hidw : id ∉ w := fun hm => (List.nodup_cons.mp hnodup).1 (List.mem_append_left _ hm)
  have hb := h.mem_iff.mp (.inl (hw ▸ List.mem_cons_self : id ∈ s.waiting))
  have hlow : ∀ i ∈ w, ptidOffset ≤ i := fun i hi =>
    (h.mem_iff.mp (.inl (hw ▸ List.mem_cons_of_mem id hi))).1
  have herase : s.waiting.erase id = w := by rw [hw, List.erase_cons_head]
  have hnl := h.not_live_of_waiting (hw ▸ List.mem_cons_self : id ∈ s.waiting)
  simp only [handOut, herase]
  refine ⟨?_, ?_, ?_, ?_, ?_, h.room, h.least⟩
  · refine hrest.congr fun i hi => ?_
    have hii : id - ptidOffset ≠ i - ptidOffset := by
      have := hlow i hi
      intro heq
      exact hidw ((by omega : id = i) ▸ hi)
    simp only [next, List.getElem?_set_ne hii]
  · have hlast := h.last
    rw [hw] at hlast
    dsimp only
    split_ifs with h0
    · rw [hrest.head_eq_stop.mp h0]
      rfl
    · cases w with
      | nil => exact absurd hrest h0
      | cons b w => rw [hlast, List.getLast?_cons_cons]
  · have hids := h.ids
    rw [hw] at hids
    simp only [liveIds, usedPtidEntries, List.map_cons, List.length_set]
    exact List.perm_middle.trans hids
  · intro i o
    rw [getPtidEntry_eq]
    simp only [List.mem_cons, Prod.mk.injEq]
    by_cases hi : i = id
    · subst hi
      have hno : (i, o) ∉ s.live := fun hl => hnl (mem_liveIds.mpr ⟨o, hl⟩)
      have hlt : i - ptidOffset < s.entries.length := by
        simp only [usedPtidEntries] at hb
        omega
      rw [if_neg (by omega), List.getElem?_set_self hlt]
      simp only [hno, or_false, true_and, Option.bind_some, Option.some.injEq, eq_comm]
    · rw [← h.live, getPtidEntry_eq]
      simp only [hi, false_and, false_or]
      split_ifs with hl
      · rfl
      · rw [List.getElem?_set_ne (by omega)]
  · simp only [usedPtidEntries, List.length_set]
    exact h.used

theorem Inv.alloc (h : Inv s) (hok : s.Allowed (.alloc ptr mem)) :
    ∃ id s', s.allocPtid ptr mem = .ok (id, s') ∧ Inv s' ∧
      (id ∈ s.waiting → s.waiting.head? = some id) := by
  simp only [allocPtid]
  split_ifs with hfree hqueue hmem
  · obtain ⟨s', hs', hinv, hnot⟩ := h.useEntry ptr hfree
      (Nat.le_trans (Nat.le_add_right _ _) hok)
    exact ⟨_, s', hs', hinv, fun hm => absurd hm hnot⟩
  · obtain ⟨id, w, hw⟩ := List.exists_cons_of_ne_nil
      fun hnil => hqueue (h.queue.head_eq_stop.mpr hnil)
    have hq := h.queue
    rw [hw] at hq
    have hb := h.mem_iff.mp (.inl (hw ▸ List.mem_cons_self : id ∈ s.waiting))
    have hlt : id - ptidOffset < s.entries.length := by
      simp only [usedPtidEntries] at hb
      omega
    have he := List.getElem?_eq_getElem hlt
    rw [hq.1, he]
    exact ⟨id, _, rfl, h.reuse hw he, fun _ => by rw [hw]; rfl⟩
  · refine ⟨0, _, rfl, ⟨h.queue, h.last, h.ids, h.live, h.used, h.room, h.least⟩, fun hm => ?_⟩
    have hb := (h.mem_iff.mp (.inl hm)).1
    simp [ptidOffset] at hb
  · have hnil := h.queue.head_eq_stop.mp (not_not.mp hqueue)
    obtain ⟨hinv, hlt, hsize⟩ := h.grow (Nat.le_of_not_lt hfree) hnil hok
    obtain ⟨s', hs', hinv', hnot⟩ := hinv.useEntry ptr hlt hsize
    exact ⟨_, s', hs', hinv', fun hm => absurd hm hnot⟩

/-- What freeing an id does to the queue, whether it was empty or not. -/
theorem Inv.retire (h : Inv s) (hid : id ∈ s.liveIds)
    (hlen : s'.usedPtidEntries = s.usedPtidEntries) (halloc : s'.allocPtidEntries = s.allocPtidEntries)
    (hcap : s'.capacity = s.capacity) (hwait : s'.waiting = s.waiting ++ [id])
    (hlive : s'.live = s.live.filter fun e => e.1 ≠ id) (hlast : s'.lastFreePtid = id)
    (hqueue : Threaded s'.next 0 s'.nextFreePtid (s.waiting ++ [id]))
    (hget : s'.getPtidEntry id = none)
    (hother : ∀ i, i ≠ id → s'.getPtidEntry i = s.getPtidEntry i) : Inv s' := by
  refine ⟨hwait ▸ hqueue, ?_, ?_, ?_, by rw [hlen, halloc]; exact h.used,
    by rw [halloc, hcap]; exact h.room, by rw [halloc]; exact h.least⟩
  · rw [hlast, hwait, List.getLast?_concat]
    rfl
  · have hn := (List.nodup_append.mp h.nodup).2.1
    have herase : s'.liveIds = s.liveIds.erase id := by
      rw [hn.erase_eq_filter, liveIds, hlive, liveIds, List.filter_map]
      refine congrArg (List.map Prod.fst) (List.filter_congr fun e _ => ?_)
      by_cases he : e.1 = id <;> simp [he]
    rw [hwait, herase, hlen, List.append_assoc, List.singleton_append]
    exact ((List.perm_cons_erase hid).symm.append_left _).trans h.ids
  · intro i o
    rw [hlive, List.mem_filter]
    by_cases hi : i = id
    · subst hi
      simp [hget]
    · rw [hother i hi, h.live]
      simp [hi]

theorem Inv.free (h : Inv s) (hid : id ∈ s.liveIds) :
    ∃ s', s.freePtid id = .ok s' ∧ Inv s' := by
  have hb := h.inBounds_of_mem (.inr hid)
  obtain ⟨hlow, hhigh⟩ := inBounds_iff.mp hb
  have hlt : id - ptidOffset < s.entries.length := by
    simp only [usedPtidEntries] at hhigh
    omega
  have hne : id ≠ 0 := by
    rintro rfl
    simp [ptidOffset] at hlow
  have hnw : id ∉ s.waiting := fun hm => h.not_live_of_waiting hm hid
  simp only [freePtid, hb, Bool.true_eq_false, if_false]
  have hlast := h.last
  cases ht : s.waiting.getLast? with
  | none =>
    have hnil := List.getLast?_eq_none_iff.mp ht
    rw [ht, Option.getD_none] at hlast
    rw [if_neg (not_not.mpr hlast)]
    refine ⟨_, rfl, h.retire hid ?_ rfl rfl rfl rfl rfl ?_ ?_ ?_⟩
    · simp [usedPtidEntries, PtidTable.retire]
    · rw [hnil]
      refine ⟨rfl, hne, ?_⟩
      simp [next, PtidTable.retire, hlt, Threaded]
    · rw [getPtidEntry_eq, if_neg (by omega)]
      simp [PtidTable.retire, hlt]
    · intro i hi
      rw [getPtidEntry_eq, getPtidEntry_eq]
      split_ifs with hil
      · rfl
      · simp only [PtidTable.retire]
        rw [List.getElem?_set_ne (by omega)]
  | some t =>
    rw [ht, Option.getD_some] at hlast
    have hmem : t ∈ s.waiting := List.mem_of_getLast? ht
    have htid : t ≠ id := fun he => hnw (he ▸ hmem)
    have hbt := h.inBounds_of_mem (.inl hmem)
    obtain ⟨htlow, hthigh⟩ := inBounds_iff.mp hbt
    have htlt : t - ptidOffset < s.entries.length := by
      simp only [usedPtidEntries] at hthigh
      omega
    have ht0 : t ≠ 0 := h.queue.ne_stop hmem
    have hnodup := (List.nodup_append.mp h.nodup).1
    rw [hlast, if_pos ht0, if_neg (by rw [hbt]; decide)]
    refine ⟨_, rfl, h.retire hid ?_ rfl rfl rfl rfl rfl ?_ ?_ ?_⟩
    · simp [usedPtidEntries, PtidTable.retire]
    · refine h.queue.push hnodup ht hnw hne (fun a ha hat => ?_) ?_ ?_
      · simp only [next, PtidTable.retire]
        have hba := (h.mem_iff.mp (.inl ha)).1
        have hai : a ≠ id := fun he => hnw (he ▸ ha)
        rw [List.getElem?_modify_ne _ _ (by omega : t - ptidOffset ≠ a - ptidOffset),
          List.getElem?_set_ne (by omega)]
      · simp only [next, PtidTable.retire]
        rw [List.getElem?_modify_ne _ _ (by omega : t - ptidOffset ≠ id - ptidOffset),
          List.getElem?_set_self hlt]
        rfl
      · simp only [next, PtidTable.retire]
        rw [List.getElem?_modify_eq, List.getElem?_set_ne (by omega), List.getElem?_eq_getElem htlt]
        rfl
    · rw [getPtidEntry_eq, if_neg (by omega)]
      simp only [PtidTable.retire]
      rw [List.getElem?_modify_ne _ _ (by omega : t - ptidOffset ≠ id - ptidOffset),
        List.getElem?_set_self hlt]
      rfl
    · intro i hi
      rw [getPtidEntry_eq, getPtidEntry_eq]
      split_ifs with hil
      · rfl
      · simp only [PtidTable.retire]
        by_cases hit : i = t
        · subst hit
          rw [List.getElem?_modify_eq, List.getElem?_set_ne (by omega)]
          cases s.entries[i - ptidOffset]? <;> rfl
        · rw [List.getElem?_modify_ne _ _ (by omega : t - ptidOffset ≠ i - ptidOffset),
            List.getElem?_set_ne (by omega)]

theorem Inv.step (h : Inv s) {a : PtidAction} (hok : s.Allowed a) :
    ∃ s', s.step a = .ok s' ∧ Inv s' := by
  cases a with
  | alloc ptr mem =>
    obtain ⟨id, s', hs', hinv, -⟩ := h.alloc hok
    exact ⟨s', by rw [PtidTable.step, hs']; rfl, hinv⟩
  | free id => exact h.free hok

theorem inv_run {as : List PtidAction} (hr : Run step Allowed initial as s) : Inv s := by
  refine hr.invariant inv_initial fun t a t' ht hok hst => ?_
  obtain ⟨t'', ht'', hinv⟩ := ht.step hok
  rw [hst] at ht''
  cases ht''
  exact hinv

/-- In every run the ids in use differ, none of them is 0, `get_ptid_entry` knows exactly them, the
ends of the queue are 0 together, no call reaches past the array, and an id that waits is handed
out only when it was freed before all others that wait. -/
theorem ptid_run {as : List PtidAction} (hr : Run step Allowed initial as s) :
    s.liveIds.Nodup ∧ 0 ∉ s.liveIds ∧
    (∀ id o, s.getPtidEntry id = some o ↔ (id, o) ∈ s.live) ∧
    (s.nextFreePtid = 0 ↔ s.lastFreePtid = 0) ∧
    (∀ a, s.Allowed a → ∃ s', s.step a = .ok s') ∧
    ∀ ptr mem id s', s.Allowed (.alloc ptr mem) → s.allocPtid ptr mem = .ok (id, s') →
      id ∈ s.waiting → s.waiting.head? = some id := by
  have h := inv_run hr
  refine ⟨(List.nodup_append.mp h.nodup).2.1, fun h0 => ?_, h.live, ?_, fun a ha => ?_, ?_⟩
  · have hlow := (h.mem_iff.mp (.inr h0)).1
    simp [ptidOffset] at hlow
  · rw [h.last, h.queue.head_eq_stop, h.queue.getLast?_eq_stop]
  · obtain ⟨s', hs', -⟩ := h.step ha
    exact ⟨s', hs'⟩
  · intro ptr mem id s' hok hs' hid
    obtain ⟨id', s'', hs'', -, hfirst⟩ := h.alloc hok
    rw [hs'] at hs''
    cases hs''
    exact hfirst hid

instance (s : PtidTable) : (a : PtidAction) → Decidable (s.Allowed a)
  | .alloc _ _ => inferInstanceAs (Decidable (_ ≤ _))
  | .free id => inferInstanceAs (Decidable (id ∈ s.liveIds))

/-- Three ids are handed out and two of them freed, the second one first. -/
theorem ptid_run_freed : ∃ s, Run step Allowed initial
      [.alloc 100 true, .alloc 101 true, .alloc 102 true, .free 9, .free 8] s ∧
    s.waiting = [9, 8] ∧ s.liveIds.Nodup ∧ (s.nextFreePtid = 0 ↔ s.lastFreePtid = 0) := by
  obtain ⟨s, hr, hw⟩ := run_of_execTo (f := step) (q := Allowed)
    (g := fun s a => decide (s.Allowed a)) (p := fun s => s.waiting = [9, 8]) (s := initial)
    (l := [.alloc 100 true, .alloc 101 true, .alloc 102 true, .free 9, .free 8])
    (fun _ _ h => of_decide_eq_true h) (by decide)
  exact ⟨s, hr, of_decide_eq_true hw, (ptid_run hr).1, (ptid_run hr).2.2.2.1⟩

end PtidTable
end Wine.Server
