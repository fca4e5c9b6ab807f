import Wine.Ole32.Layout

/-!
# Reading and changing entries of the depot

An entry of the depot is changed on the disk and in the copy of the depot block, so that reading it
through the copy gives what is on the disk.
-/

namespace Wine.Ole32

/-- The storage with another entry for the block. -/
def marked (st : Storage) (b v : ℕ) : Storage :=
  let place := depotPos (b / 128) + 1
  { st with
    block := Function.update st.block place (writeDWord (b % 128) v (st.block place))
    blockDepotCached := if b / 128 = st.indexBlockDepotCached then
      writeDWord (b % 128) v st.blockDepotCached else st.blockDepotCached }

/-- The entry of the block on the disk. -/
def entry (st : Storage) (b : ℕ) : ℕ := st.block (depotPos (b / 128) + 1) (b % 128)

variable {st st' : Storage} {c x n i j k b v a : ℕ} {buffer : ℕ → ℕ} {counted : List ℕ}

theorem entry_eq (hi : i < 128) : entry st (n * 128 + i) = st.block (depotPos n + 1) i := by
  have hdiv : (n * 128 + i) / 128 = n := by omega
  have hmod : (n * 128 + i) % 128 = i := by omega
  rw [entry, hdiv, hmod]

theorem entry_marked : entry (marked st b v) b = v := by
  unfold entry marked
  dsimp only
  rw [Function.update_self, writeDWord, Function.update_self]

theorem entry_marked_of_ne (h : a ≠ b) : entry (marked st b v) a = entry st a := by
  unfold entry marked
  dsimp only
  by_cases hdiv : a / 128 = b / 128
  · rw [hdiv, Function.update_self, writeDWord, Function.update_of_ne (by omega)]
  · rw [Function.update_of_ne fun heq => depotPos_ne hdiv (Nat.succ.inj heq)]

theorem depotPos_ge (n : ℕ) : n * 128 ≤ depotPos n := Nat.le_add_right _ _

/-- The arithmetic that finds the entry. -/
theorem offset_eq (hb : b < 2 ^ 30) :
    ulong (b * 4) / 512 = b / 128 ∧ ulong (b * 4) % 512 / 4 = b % 128 := by
  unfold ulong
  omega

theorem setNextBlockInChain_eq (h : Tables st st.bigBlockDepotCount x)
    (hx : st.bigBlockDepotCount ≤ 109 + 127 * x) (hb : b / 128 < st.bigBlockDepotCount)
    (hheld : 512 * (depotPos (b / 128) + 2) ≤ st.filesize) (hne : b ≠ v) :
    setNextBlockInChain st b v = .ok (marked st b v) := by
  have hsmall := h.small
  have hge := depotPos_ge (b / 128)
  obtain ⟨hdiv, hmod⟩ := offset_eq (show b < 2 ^ 30 by omega)
  have hpos := h.depotBlockIndexPos_eq hx (show b / 128 ≤ 109 + 127 * x by omega)
  rw [if_pos hb] at hpos
  unfold setNextBlockInChain
  dsimp only
  rw [hdiv, hmod, if_neg (not_or.mpr ⟨Nat.not_le.mpr hb, hne⟩), hpos, writeBigBlock_eq (by omega),
    Nat.max_eq_left hheld]
  unfold marked
  dsimp only
  by_cases hcached : b / 128 = st.indexBlockDepotCached
  · rw [if_pos hcached, if_pos hcached]
  · rw [if_neg hcached, if_neg hcached]

namespace Laid

theorem size_lt (h : Laid st) (hn : n < st.bigBlockDepotCount) : depotPos n + 2 < 2 ^ 23 := by
  have hheld := h.held n hn
  have hsmall := h.tables.small
  omega

theorem count_le (h : Laid st) :
    st.bigBlockDepotCount ≤ 109 + 127 * st.extBigBlockDepotCount := by
  rw [h.ext]
  unfold extBlocksFor
  omega

theorem depotBlockIndexPos_eq (h : Laid st) (hn : n < st.bigBlockDepotCount) :
    depotBlockIndexPos st n = depotPos n := by
  have hle := h.count_le
  rw [h.tables.depotBlockIndexPos_eq hle (by omega), if_pos hn]

theorem set (h : Laid st) (hb : b / 128 < st.bigBlockDepotCount) (hne : b ≠ v) :
    setNextBlockInChain st b v = .ok (marked st b v) :=
  setNextBlockInChain_eq h.tables h.count_le hb (h.held _ hb) hne

/-- The copy may be of any depot block. -/
theorem withCache (h : Laid st) (hk : k = 0xffffffff ∨ k < st.bigBlockDepotCount ∧ ∀ i < 128,
    buffer i = st.block (depotPos k + 1) i) :
    Laid { st with indexBlockDepotCached := k, blockDepotCached := buffer } where
  tables := h.tables.congr rfl rfl (fun _ _ => rfl) (Nat.le_refl _) h.tables.aligned h.tables.small
  ext := h.ext
  pos := h.pos
  le := h.le
  held := h.held
  marks := h.marks
  cached := hk
  prev := h.prev

theorem cacheDepotBlock_eq (h : Laid st) (hk : k < st.bigBlockDepotCount) :
    cacheDepotBlock st k = ({ st with
      indexBlockDepotCached := k
      blockDepotCached := st.block (depotPos k + 1) }, true) := by
  have htables : Tables { st with indexBlockDepotCached := k } st.bigBlockDepotCount
      st.extBigBlockDepotCount :=
    h.tables.congr rfl rfl (fun _ _ => rfl) (Nat.le_refl _) h.tables.aligned h.tables.small
  have hle := h.count_le
  have hpos := htables.depotBlockIndexPos_eq hle (show k ≤ _ by omega)
  rw [if_pos hk] at hpos
  have hread := htables.read (h.held k hk)
  unfold cacheDepotBlock
  simp only [hpos, hread]

/-- Reading an entry keeps all but the copy, and gives what is on the disk. -/
theorem get (h : Laid st) (b : ℕ) : ∃ k buffer,
    (getNextBlockInChain st b).1 =
      { st with indexBlockDepotCached := k, blockDepotCached := buffer } ∧
    Laid (getNextBlockInChain st b).1 ∧
    (b / 128 < st.bigBlockDepotCount → (getNextBlockInChain st b).2 = some (entry st b)) := by
  have hbound : b / 128 < st.bigBlockDepotCount → b < 2 ^ 30 := by
    intro hb
    have hlt := h.size_lt hb
    have hge := depotPos_ge (b / 128)
    omega
  unfold getNextBlockInChain
  dsimp only
  generalize hk : ulong (b * 4) / 512 = k
  by_cases hcount : st.bigBlockDepotCount ≤ k
  · rw [if_pos hcount]
    refine ⟨_, _, rfl, h, fun hb => ?_⟩
    have hdiv := (offset_eq (hbound hb)).1
    omega
  have hlt := Nat.lt_of_not_le hcount
  rw [if_neg hcount]
  by_cases hcached : k = st.indexBlockDepotCached
  · rw [if_pos hcached]
    refine ⟨_, _, rfl, h, fun hb => ?_⟩
    obtain ⟨hdiv, hmod⟩ := offset_eq (hbound hb)
    have hlt' := Nat.mod_lt b (show 128 > 0 by decide)
    obtain hnone | ⟨-, hsome⟩ := h.cached
    · have hle := h.le
      unfold depotLimit at hle
      omega
    · rw [if_pos rfl, hmod, hsome _ hlt', ← hcached, ← hk, hdiv, entry]
  · rw [if_neg hcached, h.cacheDepotBlock_eq hlt]
    refine ⟨k, _, rfl, h.withCache (.inr ⟨hlt, fun _ _ => rfl⟩), fun hb => ?_⟩
    obtain ⟨hdiv, hmod⟩ := offset_eq (hbound hb)
    rw [if_pos rfl, hmod, ← hk, hdiv, entry]

end Laid

end Wine.Ole32

/-!
## A depot that has to grow

Once no block is free the depot gets one more depot block, and an extended block before it where the
last one is full. The new blocks are entered into the new depot block, so that it describes itself.
-/

namespace Wine.Ole32

/-- A new depot block is listed, with the entries `last`. -/
structure Growing (st st' : Storage) (last : ℕ → ℕ) : Prop where
  tables : Tables st' (st.bigBlockDepotCount + 1) st'.extBigBlockDepotCount
  ext : st'.extBigBlockDepotCount = extBlocksFor (st.bigBlockDepotCount + 1)
  count : st'.bigBlockDepotCount = st.bigBlockDepotCount + 1
  frame : ∀ q, (∀ j, q ≠ extPos j) → q ≠ depotPos st.bigBlockDepotCount →
    st'.block (q + 1) = st.block (q + 1)
  new : ∀ i < 128, st'.block (depotPos st.bigBlockDepotCount + 1) i = last i
  held : 512 * (depotPos st.bigBlockDepotCount + 2) ≤ st'.filesize
  size : st.filesize ≤ st'.filesize
  index : st'.indexBlockDepotCached = st.indexBlockDepotCached
  copy : st'.blockDepotCached = st.blockDepotCached
  prev : st'.prevFreeBlock = st.prevFreeBlock

/-- The depot has grown by one depot block; nothing else has changed. -/
structure Grown (st st' : Storage) : Prop where
  count : st'.bigBlockDepotCount = st.bigBlockDepotCount + 1
  frame : ∀ q, (∀ j, q ≠ extPos j) → q ≠ depotPos st.bigBlockDepotCount →
    st'.block (q + 1) = st.block (q + 1)
  new : ∀ i < 128,
    st'.block (depotPos st.bigBlockDepotCount + 1) i = newDepot st.bigBlockDepotCount i
  prev : st'.prevFreeBlock = st.prevFreeBlock

variable {st st' : Storage} {c x n i j k p q b v : ℕ} {last : ℕ → ℕ} {counted : List ℕ}
  {write : (ℕ → ℕ) → ℕ → ℕ}

theorem block_writeBigBlock (hp : p + 2 < 2 ^ 23) (hne : q ≠ p) :
    (writeBigBlock st p write).block (q + 1) = st.block (q + 1) := by
  rw [writeBigBlock_eq hp]
  exact Function.update_of_ne (fun heq => hne (Nat.succ.inj heq)) ..

theorem depotPos_lt (hc : c < depotLimit) : depotPos c + 2 < 2 ^ 23 := by
  unfold depotLimit at hc
  unfold depotPos
  obtain h | h := reserved_cases c <;> omega

/-! ## The header -/

theorem Laid.saveFileHeader_eq (h : Laid st) : ∃ k buffer, saveFileHeader st counted =
    { st with indexBlockDepotCached := k, blockDepotCached := buffer } ∧
    Laid (saveFileHeader st counted) := by
  have hexists : ensureExists st blockUnused = st := by
    have hheld := h.held 0 h.pos
    have hindex : fileIndex blockUnused = 0 := if_pos rfl
    have hlt : ¬ st.filesize < ulong (512 * (fileIndex blockUnused + 1)) := by
      rw [hindex]
      unfold ulong
      omega
    exact if_neg hlt
  unfold saveFileHeader
  rw [hexists]
  clear hexists
  induction counted generalizing st with
  | nil => exact ⟨_, _, rfl, h⟩
  | cons b counted ih =>
    obtain ⟨k, buffer, heq, hlaid, -⟩ := h.get b
    obtain ⟨k', buffer', hrest, hlaid'⟩ := ih hlaid
    refine ⟨k', buffer', ?_, hlaid'⟩
    rw [List.foldl_cons, hrest, heq]

/-! ## The entries of the new depot block -/

namespace Growing

theorem index_lt (h : Laid st) (hg : Growing st st' last) (hc : st.bigBlockDepotCount < depotLimit) :
    st.bigBlockDepotCount ≠ st'.indexBlockDepotCached := by
  rw [hg.index]
  obtain hnone | ⟨hlt, -⟩ := h.cached
  · unfold depotLimit at hc
    omega
  · omega

/-- An entry for a block of the new depot block. -/
theorem set (h : Laid st) (hg : Growing st st' last) (hc : st.bigBlockDepotCount < depotLimit)
    (hi : i < 128) (hne : st.bigBlockDepotCount * 128 + i ≠ v) :
    ∃ st'', setNextBlockInChain st' (st.bigBlockDepotCount * 128 + i) v = .ok st'' ∧
      Growing st st'' (writeDWord i v last) := by
  have hdiv : (st.bigBlockDepotCount * 128 + i) / 128 = st.bigBlockDepotCount := by omega
  have hmod : (st.bigBlockDepotCount * 128 + i) % 128 = i := by omega
  have hle : st'.bigBlockDepotCount ≤ 109 + 127 * st'.extBigBlockDepotCount := by
    rw [hg.count, hg.ext, extBlocksFor]
    omega
  have htables := hg.tables
  rw [← hg.count] at htables
  refine ⟨_, setNextBlockInChain_eq htables hle (by rw [hdiv, hg.count]; omega)
    (hdiv.symm ▸ hg.held) hne, ?_⟩
  unfold marked
  rw [hdiv, hmod, if_neg (index_lt h hg hc)]
  constructor
  · refine hg.tables.congr rfl rfl (fun j _ => ?_) (Nat.le_refl _) hg.tables.aligned hg.tables.small
    exact Function.update_of_ne (fun heq => depotPos_ne_extPos _ j (Nat.succ.inj heq).symm) ..
  · exact hg.ext
  · exact hg.count
  · intro q hq hne
    exact (Function.update_of_ne (fun heq => hne (Nat.succ.inj heq)) ..).trans (hg.frame q hq hne)
  · intro k hk
    dsimp only
    rw [Function.update_self, writeDWord, writeDWord]
    by_cases heq : k = i
    · rw [heq, Function.update_self, Function.update_self]
    · rw [Function.update_of_ne heq, Function.update_of_ne heq, hg.new k hk]
  · exact hg.held
  · exact hg.size
  · exact hg.index
  · exact hg.copy
  · exact hg.prev

theorem old (hg : Growing st st' last) (hn : n < st.bigBlockDepotCount) :
    st'.block (depotPos n + 1) = st.block (depotPos n + 1) :=
  hg.frame _ (depotPos_ne_extPos n) (depotPos_ne (Nat.ne_of_lt hn))

/-- With all its entries the new depot block is one of the depot. -/
theorem laid (h : Laid st) (hc : st.bigBlockDepotCount < depotLimit)
    (hg : Growing st st' (newDepot st.bigBlockDepotCount)) : Laid st' where
  tables := by
    rw [hg.count]
    exact hg.tables
  ext := by rw [hg.ext, hg.count]
  pos := by
    rw [hg.count]
    exact Nat.succ_pos _
  le := by
    rw [hg.count]
    exact hc
  held n hn := by
    rw [hg.count] at hn
    obtain hlt | rfl := Nat.lt_succ_iff_lt_or_eq.mp hn
    · exact Nat.le_trans (h.held n hlt) hg.size
    · exact hg.held
  marks n hn i hi := by
    rw [hg.count] at hn
    obtain hlt | rfl := Nat.lt_succ_iff_lt_or_eq.mp hn
    · rw [hg.old hlt]
      exact h.marks n hlt i hi
    · obtain hr | hr := reserved_cases st.bigBlockDepotCount
      · exact hg.new i (by omega)
      · exact hg.new i (by omega)
  cached := by
    rw [hg.index, hg.copy, hg.count]
    obtain hnone | ⟨hlt, hcopy⟩ := h.cached
    · exact .inl hnone
    · refine .inr ⟨Nat.lt_succ_of_lt hlt, fun i hi => ?_⟩
      rw [hg.old hlt]
      exact hcopy i hi
  prev := by
    have hprev := h.prev
    rw [hg.prev, hg.count]
    omega

/-- The header is saved, and the depot is in order again. -/
theorem finish (h : Laid st) (hc : st.bigBlockDepotCount < depotLimit)
    (hg : Growing st st' (newDepot st.bigBlockDepotCount)) (counted : List ℕ) :
    Laid (saveFileHeader st' counted) ∧ Grown st (saveFileHeader st' counted) := by
  obtain ⟨k, buffer, heq, hlaid⟩ := (laid h hc hg).saveFileHeader_eq
  refine ⟨hlaid, ?_⟩
  rw [heq]
  exact ⟨hg.count, hg.frame, hg.new, hg.prev⟩

end Growing

/-! ## Growing -/

theorem reserved_header (hc : c < 109) : reserved c = 1 := if_neg (by omega)

theorem depotPos_of_reserved (h : reserved c = 1) : depotPos c = c * 128 := by
  rw [depotPos, h]
  rfl

theorem newDepot_of_reserved (h : reserved c = 1) :
    newDepot c = writeDWord 0 blockSpecial fun _ => blockUnused := by
  rw [newDepot, h]
  exact if_neg (by decide)

theorem ulong_depot (hc : c < depotLimit) : ulong (c * 128) = c * 128 := by
  unfold depotLimit at hc
  unfold ulong
  omega

theorem ulong_count (hc : c < depotLimit) : ulong (c + 1) = c + 1 := by
  unfold depotLimit at hc
  unfold ulong
  omega

/-- The depot block has no entries but its own yet. -/
theorem Growing.flag (h : Laid st) (hc : st.bigBlockDepotCount < depotLimit)
    (hr : reserved st.bigBlockDepotCount = 1) (hg : Growing st st' fun _ => blockUnused) :
    ∃ st'', setNextBlockInChain st' (depotPos st.bigBlockDepotCount) blockSpecial = .ok st'' ∧
      Growing st st'' (newDepot st.bigBlockDepotCount) := by
  have hne : st.bigBlockDepotCount * 128 + 0 ≠ blockSpecial := by
    unfold depotLimit at hc
    unfold blockSpecial
    omega
  obtain ⟨st'', hset, hg'⟩ := hg.set h hc (show 0 < 128 by omega) hne
  rw [Nat.add_zero, ← depotPos_of_reserved hr] at hset
  rw [← newDepot_of_reserved hr] at hg'
  exact ⟨st'', hset, hg'⟩

theorem growing_header (h : Laid st) (hc : st.bigBlockDepotCount < 109) :
    Growing st (listInHeader st st.bigBlockDepotCount (depotPos st.bigBlockDepotCount))
      fun _ => blockUnused := by
  have hlimit : st.bigBlockDepotCount < depotLimit := by
    unfold depotLimit
    omega
  have hlt := depotPos_lt hlimit
  have htables := h.tables.listInHeader hc hlt
  have hext : st.extBigBlockDepotCount = extBlocksFor (st.bigBlockDepotCount + 1) := by
    rw [h.ext]
    unfold extBlocksFor
    omega
  unfold listInHeader addBlockDepot at htables ⊢
  rw [writeBigBlock_eq hlt] at htables ⊢
  constructor
  · exact htables
  · exact hext
  · exact ulong_count hlimit
  · exact fun q _ hq => Function.update_of_ne (fun heq => hq (Nat.succ.inj heq)) ..
  · intro i _
    dsimp only
    rw [Function.update_self]
  · exact Nat.le_max_right _ _
  · exact Nat.le_max_left _ _
  · rfl
  · rfl
  · rfl

theorem growHeaderDepot_spec (h : Laid st) (hc : st.bigBlockDepotCount < 109)
    (counted : List ℕ) : ∃ st', growHeaderDepot st st.bigBlockDepotCount counted =
      .ok (st', depotPos st.bigBlockDepotCount) ∧ Laid st' ∧ Grown st st' := by
  have hlimit : st.bigBlockDepotCount < depotLimit := by
    unfold depotLimit
    omega
  have hr := reserved_header hc
  obtain ⟨st', hset, hg⟩ := Growing.flag h hlimit hr (growing_header h hc)
  refine ⟨saveFileHeader st' counted, ?_, hg.finish h hlimit counted⟩
  unfold growHeaderDepot
  rw [ulong_depot hlimit, ← depotPos_of_reserved hr]
  dsimp only
  rw [hset]
  rfl

/-- What the storage looks like once the extended depot has room for one more depot block. -/
structure Roomy (st st' : Storage) : Prop where
  tables : Tables st' st.bigBlockDepotCount st'.extBigBlockDepotCount
  ext : st'.extBigBlockDepotCount = extBlocksFor (st.bigBlockDepotCount + 1)
  count : st'.bigBlockDepotCount = st.bigBlockDepotCount
  frame : ∀ q, (∀ j, q ≠ extPos j) → st'.block (q + 1) = st.block (q + 1)
  size : st.filesize ≤ st'.filesize
  index : st'.indexBlockDepotCached = st.indexBlockDepotCached
  copy : st'.blockDepotCached = st.blockDepotCached
  prev : st'.prevFreeBlock = st.prevFreeBlock

/-- The new depot block is initialized and listed. -/
theorem Roomy.growing (hr : Roomy st st') (hc : st.bigBlockDepotCount < depotLimit)
    (hext : 109 ≤ st.bigBlockDepotCount) :
    Growing st (listInExtBlock st' st.bigBlockDepotCount (depotPos st.bigBlockDepotCount))
      fun _ => blockUnused := by
  have hlt := depotPos_lt hc
  have hroom : st.bigBlockDepotCount < 109 + 127 * st'.extBigBlockDepotCount := by
    rw [hr.ext]
    unfold extBlocksFor
    omega
  have hcount : ulong (st'.bigBlockDepotCount + 1) = st.bigBlockDepotCount + 1 := by
    rw [hr.count]
    exact ulong_count hc
  have htables : Tables (writeBigBlock st' (depotPos st.bigBlockDepotCount) fun _ _ => blockUnused)
      st.bigBlockDepotCount st'.extBigBlockDepotCount :=
    hr.tables.written hlt fun j _ => (depotPos_ne_extPos _ j).symm
  rw [writeBigBlock_eq hlt] at htables
  have hcounted : Tables { st' with
      filesize := max st'.filesize (512 * (depotPos st.bigBlockDepotCount + 2))
      block := Function.update st'.block (depotPos st.bigBlockDepotCount + 1)
        fun _ => blockUnused
      bigBlockDepotCount := st.bigBlockDepotCount + 1 } st.bigBlockDepotCount
        st'.extBigBlockDepotCount :=
    htables.congr rfl rfl (fun _ _ => rfl) (Nat.le_refl _) htables.aligned htables.small
  have hplace : (st.bigBlockDepotCount - 109) / 127 < st'.extBigBlockDepotCount := by omega
  have hextlt := hcounted.extPos_lt hplace
  have hlisted := hcounted.listInExt hext hroom
  unfold listInExtBlock addBlockDepot
  rw [writeBigBlock_eq hlt]
  dsimp only
  rw [hcount]
  rw [hcounted.setExtDepotBlock_eq hext hroom, writeBigBlock_eq hextlt] at hlisted ⊢
  constructor
  · exact hlisted
  · exact hr.ext
  · rfl
  · intro q hq hne
    dsimp only
    rw [Function.update_of_ne fun heq => hq _ (Nat.succ.inj heq),
      Function.update_of_ne fun heq => hne (Nat.succ.inj heq), hr.frame q hq]
  · intro i _
    dsimp only
    rw [Function.update_of_ne fun heq => depotPos_ne_extPos _ _ (Nat.succ.inj heq),
      Function.update_self]
  · exact Nat.le_trans (Nat.le_max_right _ _) (Nat.le_max_left _ _)
  · exact Nat.le_trans hr.size (Nat.le_trans (Nat.le_max_left _ _) (Nat.le_max_left _ _))
  · exact hr.index
  · exact hr.copy
  · exact hr.prev

/-- The last extended block has room. -/
theorem roomy_of_ne (h : Laid st) (hext : 109 ≤ st.bigBlockDepotCount)
    (hne : (st.bigBlockDepotCount - 109) % 127 ≠ 0) : Roomy st st := by
  refine ⟨h.tables, ?_, rfl, fun _ _ => rfl, Nat.le_refl _, rfl, rfl, rfl⟩
  rw [h.ext]
  unfold extBlocksFor
  omega

/-- A new extended block is added. -/
theorem roomy_of_eq (h : Laid st) (hc : st.bigBlockDepotCount < depotLimit)
    (hext : 109 ≤ st.bigBlockDepotCount) (heq : (st.bigBlockDepotCount - 109) % 127 = 0) :
    st.bigBlockDepotCount = 109 + 127 * st.extBigBlockDepotCount ∧ ∃ st',
      growExtBlocks st st.bigBlockDepotCount = (st', some (extPos st.extBigBlockDepotCount)) ∧
      Roomy st st' := by
  have hx : st.bigBlockDepotCount = 109 + 127 * st.extBigBlockDepotCount := by
    rw [h.ext]
    unfold extBlocksFor
    omega
  have hlt : extPos st.extBigBlockDepotCount + 2 < 2 ^ 23 := by
    unfold depotLimit at hc
    unfold extPos
    omega
  obtain ⟨hadded, htables⟩ := h.tables.extend (Nat.le_of_eq hx) hlt
  have hlink := h.tables.linkExtBlock_eq hlt
  have hcount : ulong (st.extBigBlockDepotCount + 1) = st.extBigBlockDepotCount + 1 :=
    ulong_count (Nat.lt_of_le_of_lt (by omega) hc)
  rw [writeBigBlock_eq hlt, hlink] at hadded htables
  refine ⟨hx, { (addExtBlockDepot st).1 with
    extBigBlockDepotCount := st.extBigBlockDepotCount + 1 }, ?_, ?_⟩
  · unfold growExtBlocks
    rw [if_pos heq, hadded]
    dsimp only
    rw [hcount]
  · rw [hadded]
    refine ⟨htables.congr rfl rfl (fun _ _ => rfl) (Nat.le_refl _) htables.aligned htables.small, ?_,
      rfl, fun q hq => ?_, Nat.le_max_left _ _, rfl, rfl, rfl⟩
    · show st.extBigBlockDepotCount + 1 = _
      rw [h.ext]
      unfold extBlocksFor
      omega
    · dsimp only
      rw [Function.update_of_ne fun he => hq _ (Nat.succ.inj he)]
      by_cases h0 : st.extBigBlockDepotCount = 0
      · rw [if_pos h0]
      · rw [if_neg h0, Function.update_of_ne fun he => hq _ (Nat.succ.inj he)]

theorem growExtDepot_spec (h : Laid st) (hc : st.bigBlockDepotCount < depotLimit)
    (hext : 109 ≤ st.bigBlockDepotCount) (counted : List ℕ) :
    ∃ st', growExtDepot st st.bigBlockDepotCount counted =
      .ok (st', depotPos st.bigBlockDepotCount) ∧ Laid st' ∧ Grown st st' := by
  by_cases heq : (st.bigBlockDepotCount - 109) % 127 = 0
  · obtain ⟨hx, st₁, hgrow, hroomy⟩ := roomy_of_eq h hc hext heq
    have hr : reserved st.bigBlockDepotCount = 2 := if_pos ⟨hext, heq⟩
    have hpos : depotPos st.bigBlockDepotCount = st.bigBlockDepotCount * 128 + 1 := by
      rw [depotPos, hr]
    have hextPos : extPos st.extBigBlockDepotCount = st.bigBlockDepotCount * 128 + 0 := by
      unfold extPos
      omega
    have hnew : newDepotPos st.bigBlockDepotCount (some (extPos st.extBigBlockDepotCount)) =
        depotPos st.bigBlockDepotCount := by
      show ulong (extPos st.extBigBlockDepotCount + 1) = _
      unfold ulong
      unfold depotLimit at hc
      omega
    obtain ⟨st₂, hset, hg⟩ := (hroomy.growing hc hext).set h hc (show 1 < 128 by omega)
      (show st.bigBlockDepotCount * 128 + 1 ≠ blockSpecial by
        unfold depotLimit at hc
        unfold blockSpecial
        omega)
    obtain ⟨st₃, hset', hg'⟩ := hg.set h hc (show 0 < 128 by omega)
      (show st.bigBlockDepotCount * 128 + 0 ≠ blockExtBBDepot by
        unfold depotLimit at hc
        unfold blockExtBBDepot
        omega)
    have hlast : writeDWord 0 blockExtBBDepot (writeDWord 1 blockSpecial fun _ => blockUnused) =
        newDepot st.bigBlockDepotCount := (if_pos hr).symm
    rw [hlast] at hg'
    refine ⟨saveFileHeader st₃ counted, ?_, hg'.finish h hc counted⟩
    unfold growExtDepot
    rw [hgrow]
    dsimp only
    rw [hnew, hpos]
    rw [hpos] at hset
    rw [hset]
    have hflag : flagExtBlock st₂ (some (extPos st.extBigBlockDepotCount)) = .ok st₃ := by
      rw [hextPos]
      exact hset'
    show (flagExtBlock st₂ (some (extPos st.extBigBlockDepotCount)) >>= fun st' =>
      pure (saveFileHeader st' counted, st.bigBlockDepotCount * 128 + 1)) = _
    rw [hflag]
    rfl
  · have hr : reserved st.bigBlockDepotCount = 1 := if_neg fun hand => heq hand.2
    have hgrow : growExtBlocks st st.bigBlockDepotCount = (st, none) := if_neg heq
    obtain ⟨st₁, hset, hg⟩ := Growing.flag h hc hr ((roomy_of_ne h hext heq).growing hc hext)
    refine ⟨saveFileHeader st₁ counted, ?_, hg.finish h hc counted⟩
    unfold growExtDepot
    rw [hgrow]
    dsimp only
    rw [newDepotPos, ulong_depot hc, ← depotPos_of_reserved hr, hset]
    rfl

/-- A depot block that is there is found. -/
theorem depotBlockFor_old (h : Laid st) (hn : n < st.bigBlockDepotCount) (counted : List ℕ) :
    depotBlockFor st n counted = .ok (st, depotPos n) := by
  have hne : depotPos n ≠ blockUnused := by
    have hsize := h.size_lt hn
    unfold blockUnused
    omega
  unfold depotBlockFor
  dsimp only
  rw [h.depotBlockIndexPos_eq hn, if_pos hne]

/-- Behind the last depot block the depot grows. -/
theorem depotBlockFor_new (h : Laid st) (hc : st.bigBlockDepotCount < depotLimit)
    (counted : List ℕ) : ∃ st', depotBlockFor st st.bigBlockDepotCount counted =
      .ok (st', depotPos st.bigBlockDepotCount) ∧ Laid st' ∧ Grown st st' := by
  have hle := h.count_le
  have hunused : depotBlockIndexPos st st.bigBlockDepotCount = blockUnused := by
    rw [h.tables.depotBlockIndexPos_eq hle hle, if_neg (Nat.lt_irrefl _)]
  unfold depotBlockFor
  dsimp only
  rw [hunused, if_neg (not_not.2 rfl)]
  by_cases hheader : st.bigBlockDepotCount < 109
  · rw [if_pos hheader]
    exact growHeaderDepot_spec h hheader counted
  · rw [if_neg hheader]
    exact growExtDepot_spec h hc (Nat.le_of_not_lt hheader) counted

end Wine.Ole32
