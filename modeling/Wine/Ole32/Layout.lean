import Wine.Ole32.Depot

/-!
# Where the depot lies

Each depot block describes 128 blocks, and the first of these are its own: the depot block itself,
or, where the depot needs a new extended block, that block and behind it the depot block. So the place
of every depot block follows from its index, and the header and the extended blocks list these places.
-/

namespace Wine.Ole32

/-- How many of the blocks that a depot block describes the depot itself takes. -/
def reserved (n : ℕ) : ℕ := if 109 ≤ n ∧ (n - 109) % 127 = 0 then 2 else 1

def depotPos (n : ℕ) : ℕ := n * 128 + (reserved n - 1)

def extPos (j : ℕ) : ℕ := (109 + 127 * j) * 128

def extBlocksFor (c : ℕ) : ℕ := (c - 109 + 126) / 127

/-- A depot block with no entries but those for the blocks of the depot. -/
def newDepot (n : ℕ) : ℕ → ℕ :=
  if reserved n = 2 then
    writeDWord 0 blockExtBBDepot (writeDWord 1 blockSpecial fun _ => blockUnused)
  else writeDWord 0 blockSpecial fun _ => blockUnused

/-- So many depot blocks fit into a file of less than 4 GiB. -/
def depotLimit : ℕ := 65535

/-- The table of the header and the chain of `x` extended blocks list the first `c` depot blocks. -/
structure Tables (st : Storage) (c x : ℕ) : Prop where
  start : ∀ n < 109, st.bigBlockDepotStart n = if n < c then depotPos n else blockUnused
  extStart : st.extBigBlockDepotStart = if x = 0 then blockEndOfChain else extPos 0
  next : ∀ j < x, st.block (extPos j + 1) 127 = if j + 1 < x then extPos (j + 1) else blockUnused
  listed : ∀ j < x, ∀ i < 127, st.block (extPos j + 1) i =
    if 109 + 127 * j + i < c then depotPos (109 + 127 * j + i) else blockUnused
  held : ∀ j < x, 512 * (extPos j + 2) ≤ st.filesize
  aligned : 512 ∣ st.filesize
  small : st.filesize < 2 ^ 32

/-- The invariant of the depot. -/
structure Laid (st : Storage) : Prop where
  tables : Tables st st.bigBlockDepotCount st.extBigBlockDepotCount
  ext : st.extBigBlockDepotCount = extBlocksFor st.bigBlockDepotCount
  pos : 0 < st.bigBlockDepotCount
  le : st.bigBlockDepotCount ≤ depotLimit
  held : ∀ n < st.bigBlockDepotCount, 512 * (depotPos n + 2) ≤ st.filesize
  marks : ∀ n < st.bigBlockDepotCount, ∀ i < reserved n,
    st.block (depotPos n + 1) i = newDepot n i
  cached : st.indexBlockDepotCached = 0xffffffff ∨
    st.indexBlockDepotCached < st.bigBlockDepotCount ∧ ∀ i < 128,
      st.blockDepotCached i = st.block (depotPos st.indexBlockDepotCached + 1) i
  prev : st.prevFreeBlock < st.bigBlockDepotCount * 128

variable {st st' : Storage} {c x n i j k p b v : ℕ} {write : (ℕ → ℕ) → ℕ → ℕ} {counted : List ℕ}

/-! ## Places -/

theorem reserved_cases (n : ℕ) : reserved n = 1 ∨ reserved n = 2 := by
  unfold reserved
  split
  · exact .inr rfl
  · exact .inl rfl

theorem reserved_ext (j : ℕ) : reserved (109 + 127 * j) = 2 :=
  if_pos ⟨by omega, by omega⟩

theorem depotPos_div (n : ℕ) : depotPos n / 128 = n := by
  unfold depotPos
  obtain h | h := reserved_cases n <;> omega

theorem depotPos_ne (h : n ≠ k) : depotPos n ≠ depotPos k := fun heq =>
  h (by rw [← depotPos_div n, heq, depotPos_div])

theorem depotPos_ne_extPos (n j : ℕ) : depotPos n ≠ extPos j := by
  have hext := reserved_ext j
  intro heq
  have hn : n = 109 + 127 * j := by
    have hdiv := congrArg (· / 128) heq
    simp only [depotPos_div, extPos] at hdiv
    omega
  subst hn
  unfold depotPos extPos at heq
  omega

theorem extPos_ne (h : j ≠ k) : extPos j ≠ extPos k := by
  unfold extPos
  omega

/-- A block that the depot leaves to others. -/
theorem ne_depotPos (h : reserved (b / 128) ≤ b % 128) (n : ℕ) : b ≠ depotPos n := by
  rintro rfl
  rw [depotPos_div] at h
  unfold depotPos at h
  obtain hn | hn := reserved_cases n <;> omega

theorem ne_extPos (h : reserved (b / 128) ≤ b % 128) (j : ℕ) : b ≠ extPos j := by
  rintro rfl
  have hdiv : extPos j / 128 = 109 + 127 * j := by
    unfold extPos
    omega
  rw [hdiv, reserved_ext] at h
  unfold extPos at h
  omega

theorem newDepot_reserved (h : i < reserved n) : newDepot n i ≠ blockUnused := by
  unfold newDepot writeDWord Function.update
  obtain hn | hn := reserved_cases n
  · have hi : i = 0 := by omega
    subst hi
    simp [hn, blockSpecial, blockUnused]
  · rw [if_pos hn]
    obtain rfl | rfl : i = 0 ∨ i = 1 := by omega
    · simp [blockExtBBDepot, blockUnused]
    · simp [blockSpecial, blockUnused]

theorem newDepot_free (h : reserved n ≤ i) : newDepot n i = blockUnused := by
  unfold newDepot writeDWord Function.update
  obtain hn | hn := reserved_cases n
  · simp [hn, show i ≠ 0 by omega]
  · simp [hn, show i ≠ 0 by omega, show i ≠ 1 by omega]

/-! ## Blocks that the file holds -/

theorem fileIndex_eq (h : p < 0xffffffff) : fileIndex p = p + 1 := if_neg (by omega)

theorem blockPlace_eq (h : p + 1 < 2 ^ 23) : blockPlace p = p + 1 := by
  rw [blockPlace, fileIndex_eq (by omega), Nat.mod_eq_of_lt h]

theorem blockEnd_eq (h : p + 2 < 2 ^ 23) : ulong (512 * (fileIndex p + 1)) = 512 * (p + 2) := by
  rw [fileIndex_eq (by omega), ulong, Nat.mod_eq_of_lt (by omega)]

theorem getROBigBlock_eq (ha : 512 ∣ st.filesize) (hs : st.filesize < 2 ^ 32)
    (hp : 512 * (p + 2) ≤ st.filesize) : getROBigBlock st p = some (st.block (p + 1)) := by
  have hround : ulong ((st.filesize + 511) / 512 * 512) = st.filesize := by
    unfold ulong
    omega
  rw [getROBigBlock, hround, blockEnd_eq (by omega), if_neg (Nat.not_lt.mpr hp),
    blockPlace_eq (by omega)]

theorem ensureExists_eq (h : p + 2 < 2 ^ 23) :
    ensureExists st p = { st with filesize := max st.filesize (512 * (p + 2)) } := by
  unfold ensureExists
  rw [blockEnd_eq h]
  split
  · next hlt => rw [Nat.max_eq_right (Nat.le_of_lt hlt)]
  · next hge => rw [Nat.max_eq_left (Nat.not_lt.mp hge)]

theorem writeBigBlock_eq (h : p + 2 < 2 ^ 23) :
    writeBigBlock st p write = { st with
      filesize := max st.filesize (512 * (p + 2))
      block := Function.update st.block (p + 1) (write (st.block (p + 1))) } := by
  rw [writeBigBlock, ensureExists_eq h, blockPlace_eq (by omega)]

/-! ## The tables -/

namespace Tables

theorem extPos_lt (h : Tables st c x) (hj : j < x) : extPos j + 2 < 2 ^ 23 := by
  have hheld := h.held j hj
  have hsmall := h.small
  omega

theorem read (h : Tables st c x) (hp : 512 * (p + 2) ≤ st.filesize) :
    getROBigBlock st p = some (st.block (p + 1)) :=
  getROBigBlock_eq h.aligned h.small hp

/-- Following the chain of the extended blocks. -/
theorem extBlockAfter_eq (h : Tables st c x) (hj : j < x) (hk : j + k ≤ x) :
    extBlockAfter st k (extPos j) = if j + k < x then extPos (j + k) else blockUnused := by
  induction k generalizing j with
  | zero =>
    rw [Nat.add_zero, if_pos hj, extBlockAfter]
  | succ k ih =>
    have hnext := h.next j hj
    unfold extBlockAfter getNextExtendedBlock
    rw [h.read (h.held j hj)]
    dsimp only
    rw [hnext]
    by_cases hlt : j + 1 < x
    · rw [if_pos hlt, ih hlt (by omega), Nat.add_right_comm, Nat.add_assoc]
    · have hk : k = 0 := by omega
      subst hk
      rw [Nat.zero_add, if_neg hlt, extBlockAfter]

/-- The extended blocks from the first one on. -/
theorem extBlock_eq (h : Tables st c x) (hx : 0 < x) (hk : k ≤ x) :
    extBlockAfter st k st.extBigBlockDepotStart = if k < x then extPos k else blockUnused := by
  rw [h.extStart, if_neg (by omega), h.extBlockAfter_eq hx (by omega), Nat.zero_add]

theorem getExtDepotBlock_eq (h : Tables st c x) (hx : c ≤ 109 + 127 * x) (hn : 109 ≤ n)
    (hle : n ≤ 109 + 127 * x) :
    getExtDepotBlock st n = if n < c then depotPos n else blockUnused := by
  unfold getExtDepotBlock
  by_cases hzero : x = 0
  · rw [if_pos (by rw [h.extStart, if_pos hzero]), if_neg (by omega)]
  have hstart : st.extBigBlockDepotStart ≠ blockEndOfChain := by
    have hlt := h.extPos_lt (Nat.pos_of_ne_zero hzero)
    rw [h.extStart, if_neg hzero, blockEndOfChain]
    omega
  rw [if_neg hstart, h.extBlock_eq (Nat.pos_of_ne_zero hzero) (by omega)]
  by_cases hj : (n - 109) / 127 < x
  · have hlt := h.extPos_lt hj
    rw [if_pos hj, if_neg (show extPos ((n - 109) / 127) ≠ blockUnused by unfold blockUnused; omega),
      h.read (h.held _ hj)]
    dsimp only
    rw [h.listed _ hj _ (Nat.mod_lt _ (by omega)), Nat.add_assoc, Nat.div_add_mod, Nat.add_sub_cancel' hn]
  · rw [if_neg hj, if_pos rfl, if_neg (by omega)]

/-- Every depot block is found where it lies, and behind the last one nothing is found. -/
theorem depotBlockIndexPos_eq (h : Tables st c x) (hx : c ≤ 109 + 127 * x)
    (hn : n ≤ 109 + 127 * x) :
    depotBlockIndexPos st n = if n < c then depotPos n else blockUnused := by
  unfold depotBlockIndexPos
  split
  · next hlt => exact h.start n hlt
  · next hge => exact h.getExtDepotBlock_eq hx (Nat.not_lt.mp hge) hn

theorem congr (h : Tables st c x) (hstart : st'.bigBlockDepotStart = st.bigBlockDepotStart)
    (hext : st'.extBigBlockDepotStart = st.extBigBlockDepotStart)
    (hblock : ∀ j < x, st'.block (extPos j + 1) = st.block (extPos j + 1))
    (hsize : st.filesize ≤ st'.filesize) (ha : 512 ∣ st'.filesize) (hs : st'.filesize < 2 ^ 32) :
    Tables st' c x where
  start := by rw [hstart]; exact h.start
  extStart := by rw [hext]; exact h.extStart
  next j hj := by rw [hblock j hj]; exact h.next j hj
  listed j hj := by rw [hblock j hj]; exact h.listed j hj
  held j hj := Nat.le_trans (h.held j hj) hsize
  aligned := ha
  small := hs

theorem size_write (h : Tables st c x) (hp : p + 2 < 2 ^ 23) :
    512 ∣ max st.filesize (512 * (p + 2)) ∧ max st.filesize (512 * (p + 2)) < 2 ^ 32 := by
  have ha := h.aligned
  have hs := h.small
  omega

/-- Blocks that are no extended blocks can be written. -/
theorem written (h : Tables st c x) (hp : p + 2 < 2 ^ 23) (hne : ∀ j < x, extPos j ≠ p) :
    Tables (writeBigBlock st p write) c x := by
  obtain ⟨ha, hs⟩ := h.size_write hp
  rw [writeBigBlock_eq hp]
  refine h.congr rfl rfl (fun j hj => ?_) (Nat.le_max_left _ _) ha hs
  exact Function.update_of_ne (fun heq => hne j hj (Nat.succ.inj heq)) ..

/-- The header lists one more depot block. -/
theorem listInHeader (h : Tables st c x) (hc : c < 109) (hlt : depotPos c + 2 < 2 ^ 23) :
    Tables (listInHeader st c (depotPos c)) (c + 1) x := by
  obtain ⟨ha, hs⟩ := h.size_write hlt
  have hblock : ∀ j, Function.update st.block (depotPos c + 1) (fun _ => blockUnused)
      (extPos j + 1) = st.block (extPos j + 1) := fun j =>
    Function.update_of_ne (fun heq => depotPos_ne_extPos c j (Nat.succ.inj heq).symm) ..
  unfold Wine.Ole32.listInHeader addBlockDepot
  rw [writeBigBlock_eq hlt]
  constructor
  · intro n hn
    dsimp only
    by_cases heq : n = c
    · subst heq
      rw [Function.update_self, if_pos (Nat.lt_succ_self n)]
    · rw [Function.update_of_ne heq, h.start n hn]
      exact if_congr (by omega) rfl rfl
  · exact h.extStart
  · intro j hj
    dsimp only
    rw [hblock, h.next j hj]
  · intro j hj i hi
    dsimp only
    rw [hblock, h.listed j hj i hi, if_neg (by omega), if_neg (by omega)]
  · exact fun j hj => Nat.le_trans (h.held j hj) (Nat.le_max_left _ _)
  · exact ha
  · exact hs

/-- An extended block lists one more depot block. -/
theorem setExtDepotBlock_eq (h : Tables st c x) (hc : 109 ≤ c) (hx : c < 109 + 127 * x) :
    setExtDepotBlock st c v = writeBigBlock st (extPos ((c - 109) / 127))
      (writeDWord ((c - 109) % 127) v) := by
  have hj : (c - 109) / 127 < x := by omega
  have hlt := h.extPos_lt hj
  have hne : extPos ((c - 109) / 127) ≠ blockUnused := by
    unfold blockUnused
    omega
  unfold setExtDepotBlock
  rw [h.extBlock_eq (by omega) (Nat.le_of_lt hj), if_pos hj]
  exact if_neg hne

theorem listInExt (h : Tables st c x) (hc : 109 ≤ c) (hx : c < 109 + 127 * x) :
    Tables (setExtDepotBlock st c (depotPos c)) (c + 1) x := by
  have hj : (c - 109) / 127 < x := by omega
  have hlt := h.extPos_lt hj
  obtain ⟨ha, hs⟩ := h.size_write hlt
  rw [h.setExtDepotBlock_eq hc hx, writeBigBlock_eq hlt]
  constructor
  · intro n hn
    exact (h.start n hn).trans (by rw [if_pos (by omega), if_pos (by omega)])
  · exact h.extStart
  · intro k hk
    dsimp only
    refine (?_ : _ = st.block (extPos k + 1) 127).trans (h.next k hk)
    by_cases heq : k = (c - 109) / 127
    · subst heq
      rw [Function.update_self]
      exact Function.update_of_ne (by omega) ..
    · rw [Function.update_of_ne fun he => extPos_ne heq (Nat.succ.inj he)]
  · intro k hk i hi
    dsimp only
    by_cases heq : k = (c - 109) / 127
    · subst heq
      rw [Function.update_self]
      by_cases hi' : i = (c - 109) % 127
      · subst hi'
        have hsum : 109 + 127 * ((c - 109) / 127) + (c - 109) % 127 = c := by omega
        rw [writeDWord, Function.update_self, hsum, if_pos (Nat.lt_succ_self c)]
      · rw [writeDWord, Function.update_of_ne hi', h.listed _ hk i hi]
        exact if_congr (by omega) rfl rfl
    · rw [Function.update_of_ne (fun he => extPos_ne heq (Nat.succ.inj he)), h.listed k hk i hi]
      exact if_congr (by omega) rfl rfl
  · intro k hk
    exact Nat.le_trans (h.held k hk) (Nat.le_max_left _ _)
  · exact ha
  · exact hs

/-- The chain leads to the new extended block, which is not yet there. -/
theorem linkExtBlock_eq (h : Tables st c st.extBigBlockDepotCount)
    (hlt : extPos st.extBigBlockDepotCount + 2 < 2 ^ 23) :
    linkExtBlock st (extPos st.extBigBlockDepotCount) = { st with
      extBigBlockDepotStart := extPos 0
      block := if st.extBigBlockDepotCount = 0 then st.block else
        Function.update st.block (extPos (st.extBigBlockDepotCount - 1) + 1)
          (writeDWord 127 (extPos st.extBigBlockDepotCount)
            (st.block (extPos (st.extBigBlockDepotCount - 1) + 1))) } := by
  unfold linkExtBlock
  dsimp only
  by_cases hx : st.extBigBlockDepotCount = 0
  · have hstart : st.extBigBlockDepotStart = blockEndOfChain := by rw [h.extStart, if_pos hx]
    rw [if_pos ⟨hx, hstart⟩, if_pos hx, hx]
  · have hstart : st.extBigBlockDepotStart = extPos 0 := by rw [h.extStart, if_neg hx]
    have hlast : st.extBigBlockDepotCount - 1 < st.extBigBlockDepotCount := by omega
    have hwrap : ulong (st.extBigBlockDepotCount + 2 ^ 32 - 1) = st.extBigBlockDepotCount - 1 := by
      unfold extPos at hlt
      unfold ulong
      omega
    have hwalk := h.extBlock_eq (Nat.pos_of_ne_zero hx) (Nat.le_of_lt hlast)
    rw [if_pos hlast] at hwalk
    rw [if_neg (fun hc => hx hc.1), hwrap, hwalk, writeBigBlock_eq (h.extPos_lt hlast),
      Nat.max_eq_left (h.held _ hlast), if_neg hx, ← hstart]

/-- One more extended block, all of whose entries are unused. -/
theorem extend (h : Tables st c st.extBigBlockDepotCount)
    (hc : c ≤ 109 + 127 * st.extBigBlockDepotCount)
    (hlt : extPos st.extBigBlockDepotCount + 2 < 2 ^ 23) :
    addExtBlockDepot st = (writeBigBlock (linkExtBlock st (extPos st.extBigBlockDepotCount))
      (extPos st.extBigBlockDepotCount) (fun _ _ => blockUnused), extPos st.extBigBlockDepotCount) ∧
    Tables (writeBigBlock (linkExtBlock st (extPos st.extBigBlockDepotCount))
      (extPos st.extBigBlockDepotCount) fun _ _ => blockUnused) c (st.extBigBlockDepotCount + 1) := by
  have hindex : ulong ((109 + st.extBigBlockDepotCount * 127) * 128) =
      extPos st.extBigBlockDepotCount := by
    unfold extPos ulong at *
    omega
  refine ⟨by rw [addExtBlockDepot, hindex], ?_⟩
  obtain ⟨ha, hs⟩ := h.size_write hlt
  rw [h.linkExtBlock_eq hlt, writeBigBlock_eq hlt]
  generalize st.extBigBlockDepotCount = x at *
  have hother : ∀ j < x, extPos j + 1 ≠ extPos x + 1 := fun j hj heq =>
    extPos_ne (Nat.ne_of_lt hj) (Nat.succ.inj heq)
  -- what an older extended block holds now
  have hold : ∀ j < x, ∀ i, (if x = 0 then st.block else Function.update st.block
      (extPos (x - 1) + 1) (writeDWord 127 (extPos x) (st.block (extPos (x - 1) + 1))))
        (extPos j + 1) i =
      if j + 1 = x ∧ i = 127 then extPos x else st.block (extPos j + 1) i := by
    intro j hj i
    rw [if_neg (by omega)]
    by_cases hlast : j = x - 1
    · subst hlast
      rw [Function.update_self, writeDWord]
      by_cases hi : i = 127
      · rw [if_pos ⟨by omega, hi⟩, hi, Function.update_self]
      · rw [if_neg (fun hc => hi hc.2), Function.update_of_ne hi]
    · rw [Function.update_of_ne (fun heq => extPos_ne hlast (Nat.succ.inj heq)),
        if_neg (by omega)]
  constructor
  · exact h.start
  · exact (if_neg (Nat.succ_ne_zero x)).symm
  · intro j hj
    dsimp only
    by_cases hjx : j = x
    · subst hjx
      rw [Function.update_self, if_neg (Nat.lt_irrefl _)]
    · have hlt : j < x := by omega
      rw [Function.update_of_ne (hother j hlt), hold j hlt, h.next j hlt]
      by_cases hlast : j + 1 = x
      · rw [if_pos ⟨hlast, rfl⟩, if_pos (by omega), hlast]
      · rw [if_neg (fun hc => hlast hc.1), if_pos (by omega), if_pos (by omega)]
  · intro j hj i hi
    dsimp only
    by_cases hjx : j = x
    · subst hjx
      rw [Function.update_self, if_neg (by omega)]
    · have hlt : j < x := by omega
      rw [Function.update_of_ne (hother j hlt), hold j hlt, if_neg (by omega), h.listed j hlt i hi]
  · intro j hj
    by_cases hjx : j = x
    · subst hjx
      exact Nat.le_max_right _ _
    · exact Nat.le_trans (h.held j (by omega)) (Nat.le_max_left _ _)
  · exact ha
  · exact hs

end Tables

end Wine.Ole32
