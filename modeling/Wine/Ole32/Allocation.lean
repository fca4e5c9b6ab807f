import Wine.Lib.Links
import Wine.Lib.Runs
import Wine.Ole32.Entries

/-!
# Allocating blocks

A free block is looked for from a hint on, and the depot grows when there is none. The blocks that the
depot marks as used are those that have been given out, so that a block that is found belongs to
nobody.
-/

namespace Wine.Ole32
open Wine.Lib

/-- The depot block table, the extended blocks and the counts describe one depot, and the copy of a
depot block is what is on the disk. -/
structure Describes (st : Storage) : Prop where
  counts : st.extBigBlockDepotCount = extBlocksFor st.bigBlockDepotCount
  covers : ∀ b, b / 128 < st.bigBlockDepotCount → ∃ depotBuffer,
    getROBigBlock st (depotBlockIndexPos st (b / 128)) = some depotBuffer ∧
    (getNextBlockInChain st b).2 = some (depotBuffer (b % 128))
  own : ∀ n < st.bigBlockDepotCount, depotBlockIndexPos st n / 128 = n ∧
    (getNextBlockInChain st (depotBlockIndexPos st n)).2 = some blockSpecial
  ends : depotBlockIndexPos st st.bigBlockDepotCount = blockUnused
  ext : ∀ j < st.extBigBlockDepotCount,
    (getNextBlockInChain st (extBlockAfter st j st.extBigBlockDepotStart)).2 = some blockExtBBDepot
  extEnds : 0 < st.extBigBlockDepotCount →
    extBlockAfter st st.extBigBlockDepotCount st.extBigBlockDepotStart = blockUnused
  copy : st.indexBlockDepotCached = 0xffffffff ∨
    st.indexBlockDepotCached < st.bigBlockDepotCount ∧ ∃ depotBuffer,
      getROBigBlock st (depotBlockIndexPos st st.indexBlockDepotCached) = some depotBuffer ∧
      ∀ i < 128, st.blockDepotCached i = depotBuffer i

/-- A block that the depot leaves to others. -/
def IsData (b : ℕ) : Prop := reserved (b / 128) ≤ b % 128

/-- An allocation in a storage whose blocks `used` have been given out: it finds a free block, which is
none of them and none of the depot's, and leaves the other blocks and their entries alone. -/
structure Allocates (st : Storage) (used counted : List ℕ) (st' : Storage) (b : ℕ) : Prop where
  found : getNextFreeBigBlock st counted = .ok (st', b)
  index : b < blockExtBBDepot
  free : (getNextBlockInChain st' b).2 = some blockUnused
  fresh : b ∉ used
  data : IsData b
  entries : ∀ a, a / 128 < st.bigBlockDepotCount → IsData a →
    (getNextBlockInChain st' a).2 = (getNextBlockInChain st a).2
  blocks : ∀ a, IsData a → st'.block (a + 1) = st.block (a + 1)
  describes : Describes st'
  marks : ∀ v, v ≠ b → ∃ st'', setNextBlockInChain st' b v = .ok st''

/-! ## Runs -/

/-- What is done with the blocks of a storage: a block is allocated and ends its chain, the entry of a
block in use is changed or read, a block is freed, and the contents of a block are written. -/
inductive BlockOp
  | allocate (counted : List ℕ)
  | link (blockIndex nextBlock : ℕ)
  | free (blockIndex : ℕ)
  | next (blockIndex : ℕ)
  | write (blockIndex : ℕ) (data : ℕ → ℕ)

/-- A step of a storage with the blocks that have been given out. -/
def step (s : Storage × List ℕ) : BlockOp → Except DepotFault (Storage × List ℕ)
  | .allocate counted => do
    let found ← getNextFreeBigBlock s.1 counted
    let st ← setNextBlockInChain found.1 found.2 blockEndOfChain
    pure (st, found.2 :: s.2)
  | .link blockIndex nextBlock => do
    let st ← setNextBlockInChain s.1 blockIndex nextBlock
    pure (st, s.2)
  | .free blockIndex => do
    let st ← freeBigBlock s.1 blockIndex
    pure (st, s.2.erase blockIndex)
  | .next blockIndex => pure ((getNextBlockInChain s.1 blockIndex).1, s.2)
  | .write blockIndex data => pure (writeBigBlock s.1 blockIndex fun _ => data, s.2)

/-- Only blocks that have been given out are linked, freed and written. -/
def Possible (s : Storage × List ℕ) : BlockOp → Prop
  | .link blockIndex nextBlock => blockIndex ∈ s.2 ∧ nextBlock ≠ blockUnused
  | .free blockIndex => blockIndex ∈ s.2
  | .write blockIndex _ => blockIndex ∈ s.2
  | _ => True

/-- A new storage; block 1 is the root chain. -/
def created (rest : ℕ → ℕ → ℕ) : Storage × List ℕ := (createStorage rest, [1])

/-- There is room for another depot block, or a free block from the hint on. -/
def HasRoom (st : Storage) : Prop :=
  st.bigBlockDepotCount < depotLimit ∨ ∃ a, st.prevFreeBlock ≤ a ∧
    a / 128 < st.bigBlockDepotCount ∧ (getNextBlockInChain st a).2 = some blockUnused

/-- Blocks are only allocated where there is room. -/
def Fits (s : Storage × List ℕ) : BlockOp → Prop
  | .allocate _ => HasRoom s.1
  | _ => True

variable {st st' : Storage} {used counted : List ℕ} {n i j a b v off fuel : ℕ} {buffer : ℕ → ℕ}
  {s s' : Storage × List ℕ} {op : BlockOp}

/-! ## The search -/

theorem scanDepot_some (h : scanDepot buffer off = some i) :
    i < 128 ∧ buffer i = blockUnused := by
  unfold scanDepot at h
  have hmem := List.mem_of_find?_eq_some h
  have hfound := List.find?_some h
  rw [List.mem_range'_1] at hmem
  exact ⟨by omega, of_decide_eq_true hfound⟩

theorem scanDepot_none (h : scanDepot buffer off = none) (hoff : off ≤ i) (hi : i < 128) :
    buffer i ≠ blockUnused := by
  unfold scanDepot at h
  have hno := List.find?_eq_none.1 h i (List.mem_range'_1.2 ⟨hoff, by omega⟩)
  exact fun heq => hno (decide_eq_true heq)

theorem ulong_block (hn : n ≤ depotLimit) (hi : i < 128) : ulong (n * 128 + i) = n * 128 + i := by
  unfold depotLimit at hn
  unfold ulong
  omega

/-- The depot of `st` has changed into that of `st'` at most by growing. -/
def GrownOrSame (st st' : Storage) : Prop := st' = st ∨ Grown st st'

theorem scanDepots_found {pos : ℕ} (hfor : depotBlockFor st n counted = .ok (st', pos))
    (hread : getROBigBlock st' pos = some buffer) (hfind : scanDepot buffer off = some i) :
    scanDepots counted (fuel + 1) st n off = .ok (st', ulong (n * 128 + i)) := by
  change (depotBlockFor st n counted >>= _) = _
  rw [hfor]
  dsimp only [bind, Except.bind]
  rw [hread, Option.bind_some, hfind]
  rfl

theorem scanDepots_next {pos : ℕ} (hfor : depotBlockFor st n counted = .ok (st', pos))
    (hread : getROBigBlock st' pos = some buffer) (hfind : scanDepot buffer off = none) :
    scanDepots counted (fuel + 1) st n off = scanDepots counted fuel st' (n + 1) 0 := by
  change (depotBlockFor st n counted >>= _) = _
  rw [hfor]
  dsimp only [bind, Except.bind]
  rw [hread, Option.bind_some, hfind]

/-- A block is found: a free one from the place of the search on, or one of a new depot block. -/
theorem scanDepots_spec (h : Laid st) (hn : n ≤ st.bigBlockDepotCount) (hoff : off < 128)
    (hroom : st.bigBlockDepotCount < depotLimit ∨
      ∃ a, n * 128 + off ≤ a ∧ a / 128 < st.bigBlockDepotCount ∧ entry st a = blockUnused)
    (hfuel : st.bigBlockDepotCount - n < fuel) :
    ∃ st' b, scanDepots counted fuel st n off = .ok (st', b) ∧ Laid st' ∧ GrownOrSame st st' ∧
      b / 128 < st'.bigBlockDepotCount ∧ entry st' b = blockUnused := by
  induction fuel generalizing n off with
  | zero => exact absurd hfuel (Nat.not_lt_zero _)
  | succ fuel ih =>
    by_cases hold : n < st.bigBlockDepotCount
    · have hfor := depotBlockFor_old h hold counted
      have hread := h.tables.read (h.held n hold)
      cases hfind : scanDepot (st.block (depotPos n + 1)) off with
      | some i =>
        obtain ⟨hi, hunused⟩ := scanDepot_some hfind
        have hle := h.le
        refine ⟨st, n * 128 + i, ?_, h, .inl rfl, by omega, ?_⟩
        · rw [scanDepots_found hfor hread hfind, ulong_block (by omega) hi]
        · rw [entry_eq hi]
          exact hunused
      | none =>
        rw [scanDepots_next hfor hread hfind]
        refine ih hold (by omega) (hroom.imp_right ?_) (by omega)
        rintro ⟨a, hle, ha, hfree⟩
        refine ⟨a, ?_, ha, hfree⟩
        by_contra hlt
        have hdiv : a / 128 = n := by omega
        rw [entry, hdiv] at hfree
        exact scanDepot_none hfind (by omega) (Nat.mod_lt _ (by decide)) hfree
    · obtain rfl := Nat.le_antisymm hn (Nat.le_of_not_lt hold)
      have hc : st.bigBlockDepotCount < depotLimit := by
        obtain hc | ⟨a, hle, ha, -⟩ := hroom
        · exact hc
        · omega
      obtain ⟨st', hfor, hlaid, hg⟩ := depotBlockFor_new h hc counted
      have hlt : st.bigBlockDepotCount < st'.bigBlockDepotCount := by
        rw [hg.count]
        exact Nat.lt_succ_self _
      have hread := hlaid.tables.read (hlaid.held _ hlt)
      cases hfind : scanDepot (st'.block (depotPos st.bigBlockDepotCount + 1)) off with
      | some i =>
        obtain ⟨hi, hunused⟩ := scanDepot_some hfind
        refine ⟨st', st.bigBlockDepotCount * 128 + i, ?_, hlaid, .inr hg, by omega, ?_⟩
        · rw [scanDepots_found hfor hread hfind, ulong_block (Nat.le_of_lt hc) hi]
        · rw [entry_eq hi]
          exact hunused
      | none =>
        -- a new depot block has free entries
        have hlast : reserved st.bigBlockDepotCount ≤ 127 := by
          obtain hr | hr := reserved_cases st.bigBlockDepotCount <;> omega
        refine absurd ?_ (scanDepot_none hfind (show off ≤ 127 by omega) (by omega))
        rw [hg.new 127 (by omega), newDepot_free hlast]

/-! ## An allocation -/

theorem entry_of_grown (hs : GrownOrSame st st') (ha : a / 128 < st.bigBlockDepotCount) :
    entry st' a = entry st a := by
  obtain rfl | hg := hs
  · rfl
  · unfold entry
    rw [hg.frame _ (depotPos_ne_extPos _) (depotPos_ne (Nat.ne_of_lt ha))]

theorem block_of_grown (hs : GrownOrSame st st') (ha : IsData a) :
    st'.block (a + 1) = st.block (a + 1) := by
  obtain rfl | hg := hs
  · rfl
  · exact hg.frame a (ne_extPos ha) (ne_depotPos ha _)

theorem count_of_grown (hs : GrownOrSame st st') :
    st.bigBlockDepotCount ≤ st'.bigBlockDepotCount := by
  obtain rfl | hg := hs
  · exact Nat.le_refl _
  · rw [hg.count]
    exact Nat.le_succ _

namespace Laid

/-- An entry of the depot itself is never free. -/
theorem isData (h : Laid st) (hb : b / 128 < st.bigBlockDepotCount) (he : entry st b = blockUnused) :
    IsData b := by
  refine Nat.le_of_not_lt fun hlt => newDepot_reserved hlt ?_
  rw [← h.marks _ hb _ hlt]
  exact he

theorem blockIndex_lt (h : Laid st) (hb : b / 128 < st.bigBlockDepotCount) : b + 2 < 2 ^ 23 := by
  have hle := h.le
  unfold depotLimit at hle
  omega

/-- The file may get longer, and the hint may be any block of the depot. -/
theorem hinted (h : Laid st) (hb : b / 128 < st.bigBlockDepotCount) :
    Laid { ensureExists st b with prevFreeBlock := b } := by
  have hlt := h.blockIndex_lt hb
  obtain ⟨ha, hs⟩ := h.tables.size_write hlt
  rw [ensureExists_eq hlt]
  exact {
    tables := h.tables.congr rfl rfl (fun _ _ => rfl) (Nat.le_max_left _ _) ha hs
    ext := h.ext
    pos := h.pos
    le := h.le
    held := fun n hn => Nat.le_trans (h.held n hn) (Nat.le_max_left _ _)
    marks := h.marks
    cached := h.cached
    prev := by
      show b < st.bigBlockDepotCount * 128
      omega }

theorem describes (h : Laid st) : Describes st where
  counts := h.ext
  covers b hb := by
    obtain ⟨-, -, -, -, hget⟩ := h.get b
    rw [h.depotBlockIndexPos_eq hb]
    exact ⟨_, h.tables.read (h.held _ hb), hget hb⟩
  own n hn := by
    obtain ⟨-, -, -, -, hget⟩ := h.get (depotPos n)
    rw [depotPos_div] at hget
    rw [h.depotBlockIndexPos_eq hn, depotPos_div, hget hn]
    refine ⟨rfl, congrArg some ?_⟩
    have hmod : depotPos n % 128 = reserved n - 1 := by
      unfold depotPos
      obtain hr | hr := reserved_cases n <;> omega
    have hlt : reserved n - 1 < reserved n := by
      obtain hr | hr := reserved_cases n <;> omega
    rw [entry, depotPos_div, hmod, h.marks n hn _ hlt, newDepot]
    obtain hr | hr := reserved_cases n
    · rw [hr, if_neg (by decide)]
      rfl
    · rw [hr, if_pos rfl]
      rfl
  ends := by
    have hle := h.count_le
    rw [h.tables.depotBlockIndexPos_eq hle hle, if_neg (Nat.lt_irrefl _)]
  ext j hj := by
    have hpos : 109 + 127 * j < st.bigBlockDepotCount := by
      rw [h.ext] at hj
      unfold extBlocksFor at hj
      omega
    have hdiv : extPos j / 128 = 109 + 127 * j := by
      unfold extPos
      omega
    have hmod : extPos j % 128 = 0 := by
      unfold extPos
      omega
    have hr := reserved_ext j
    obtain ⟨-, -, -, -, hget⟩ := h.get (extPos j)
    rw [hdiv] at hget
    rw [h.tables.extBlock_eq (Nat.lt_of_le_of_lt (Nat.zero_le j) hj) (Nat.le_of_lt hj), if_pos hj,
      hget hpos, entry, hdiv, hmod, h.marks _ hpos 0 (by omega), newDepot, if_pos hr]
    rfl
  extEnds hx := by
    rw [h.tables.extBlock_eq hx (Nat.le_refl _), if_neg (Nat.lt_irrefl _)]
  copy := by
    obtain hnone | ⟨hlt, hcopy⟩ := h.cached
    · exact .inl hnone
    · refine .inr ⟨hlt, _, ?_, hcopy⟩
      rw [h.depotBlockIndexPos_eq hlt]
      exact h.tables.read (h.held _ hlt)

end Laid

/-- What an allocation does, before it is known whose the block is. -/
theorem getNextFreeBigBlock_spec (h : Laid st) (hroom : HasRoom st) (counted : List ℕ) : ∃ st' b, getNextFreeBigBlock st counted = .ok (st', b) ∧ Laid st' ∧
      st.bigBlockDepotCount ≤ st'.bigBlockDepotCount ∧ b / 128 < st'.bigBlockDepotCount ∧
      entry st' b = blockUnused ∧
      (∀ a, a / 128 < st.bigBlockDepotCount → entry st' a = entry st a) ∧
      (∀ a, st.bigBlockDepotCount ≤ a / 128 → a / 128 < st'.bigBlockDepotCount → IsData a →
        entry st' a = blockUnused) ∧
      ∀ a, IsData a → st'.block (a + 1) = st.block (a + 1) := by
  have hprev := h.prev
  have hfits : st.bigBlockDepotCount < depotLimit ∨
      ∃ a, st.prevFreeBlock / 128 * 128 + st.prevFreeBlock % 128 ≤ a ∧
        a / 128 < st.bigBlockDepotCount ∧ entry st a = blockUnused := by
    refine hroom.imp_right ?_
    rintro ⟨a, hle, ha, hfree⟩
    obtain ⟨-, -, -, -, hget⟩ := h.get a
    rw [hget ha] at hfree
    exact ⟨a, by omega, ha, Option.some.inj hfree⟩
  obtain ⟨st', b, hscan, hlaid, hs, hb, hfree⟩ := @scanDepots_spec _ counted _ _
    (st.bigBlockDepotCount + 1) h (show st.prevFreeBlock / 128 ≤ _ by omega)
    (Nat.mod_lt st.prevFreeBlock (by decide)) hfits (by omega)
  have hlt := hlaid.blockIndex_lt hb
  refine ⟨{ ensureExists st' b with prevFreeBlock := b }, b, ?_, hlaid.hinted hb, ?_, ?_, ?_, ?_, ?_,
    ?_⟩
  · unfold getNextFreeBigBlock
    rw [hscan]
    rfl
  all_goals rw [ensureExists_eq hlt]
  · exact (count_of_grown hs : st.bigBlockDepotCount ≤ st'.bigBlockDepotCount)
  · exact hb
  · exact hfree
  · exact fun a ha => (entry_of_grown hs ha : entry st' a = entry st a)
  · intro a ha ha' hdata
    obtain rfl | hg := hs
    · exact absurd ha' (Nat.not_lt.2 ha)
    · have hdiv : a / 128 = st.bigBlockDepotCount := by
        have hcount := hg.count
        change a / 128 < st'.bigBlockDepotCount at ha'
        omega
      unfold IsData at hdata
      rw [hdiv] at hdata
      show st'.block (depotPos (a / 128) + 1) (a % 128) = _
      rw [hdiv, hg.new _ (Nat.mod_lt _ (by decide)), newDepot_free hdata]
  · exact fun a ha => (block_of_grown hs ha : st'.block (a + 1) = st.block (a + 1))

/-! ## The blocks that have been given out -/

/-- The depot is in order, and the blocks it marks as used are those that have been given out. -/
structure Sound (s : Storage × List ℕ) : Prop where
  laid : Laid s.1
  nodup : s.2.Nodup
  inside : ∀ b ∈ s.2, b / 128 < s.1.bigBlockDepotCount ∧ IsData b
  own : ∀ b, b / 128 < s.1.bigBlockDepotCount → IsData b →
    (entry s.1 b ≠ blockUnused ↔ b ∈ s.2)

/-- The entry of a block may change that is not the depot's own. -/
theorem Laid.marked (h : Laid st) (hdata : IsData b) :
    Laid (marked st b v) where
  tables := by
    refine h.tables.congr rfl rfl (fun j _ => ?_) (Nat.le_refl _) h.tables.aligned h.tables.small
    exact Function.update_of_ne (fun heq => depotPos_ne_extPos _ j (Nat.succ.inj heq).symm) ..
  ext := h.ext
  pos := h.pos
  le := h.le
  held := h.held
  marks n hn i hi := by
    refine Eq.trans ?_ (h.marks n hn i hi)
    unfold Wine.Ole32.marked
    dsimp only
    by_cases heq : n = b / 128
    · unfold IsData at hdata
      rw [heq, Function.update_self, writeDWord, Function.update_of_ne (by rw [heq] at hi; omega)]
    · rw [Function.update_of_ne fun he => depotPos_ne heq (Nat.succ.inj he)]
  cached := by
    obtain hnone | ⟨hlt, hcopy⟩ := h.cached
    · exact .inl hnone
    refine .inr ⟨hlt, fun i hi => ?_⟩
    unfold Wine.Ole32.marked
    dsimp only
    by_cases heq : b / 128 = st.indexBlockDepotCached
    · rw [if_pos heq, ← heq, Function.update_self, writeDWord, writeDWord]
      by_cases hmod : i = b % 128
      · rw [hmod, Function.update_self, Function.update_self]
      · rw [Function.update_of_ne hmod, Function.update_of_ne hmod, heq, hcopy i hi]
    · rw [if_neg heq, Function.update_of_ne fun he => depotPos_ne (Ne.symm heq) (Nat.succ.inj he),
        hcopy i hi]
  prev := h.prev

namespace Sound

theorem set (hs : Sound s) (hb : b ∈ s.2) (hne : b ≠ v) :
    setNextBlockInChain s.1 b v = .ok (marked s.1 b v) :=
  hs.laid.set (hs.inside b hb).1 hne

/-- A block in use stays in use with another entry. -/
theorem link (hs : Sound s) (hb : b ∈ s.2) (hv : v ≠ blockUnused) : Sound (marked s.1 b v, s.2) where
  laid := hs.laid.marked (hs.inside b hb).2
  nodup := hs.nodup
  inside := hs.inside
  own a ha hdata := by
    dsimp only
    by_cases heq : a = b
    · rw [heq, entry_marked]
      exact iff_of_true hv hb
    · rw [entry_marked_of_ne heq]
      exact hs.own a ha hdata

theorem freed (hs : Sound s) (hb : b ∈ s.2) :
    Sound (marked s.1 b blockUnused, s.2.erase b) where
  laid := hs.laid.marked (hs.inside b hb).2
  nodup := hs.nodup.erase b
  inside a ha := hs.inside a (List.mem_of_mem_erase ha)
  own a ha hdata := by
    rw [hs.nodup.mem_erase_iff]
    dsimp only
    by_cases heq : a = b
    · rw [heq, entry_marked]
      exact iff_of_false (fun h => h rfl) fun h => h.1 rfl
    · rw [entry_marked_of_ne heq, hs.own a ha hdata]
      exact ⟨fun h => ⟨heq, h⟩, fun h => h.2⟩

theorem hinted (hs : Sound s) (hb : b / 128 < s.1.bigBlockDepotCount) :
    Sound ({ s.1 with prevFreeBlock := b }, s.2) where
  laid := {
    tables := hs.laid.tables.congr rfl rfl (fun _ _ => rfl) (Nat.le_refl _) hs.laid.tables.aligned
      hs.laid.tables.small
    ext := hs.laid.ext
    pos := hs.laid.pos
    le := hs.laid.le
    held := hs.laid.held
    marks := hs.laid.marks
    cached := hs.laid.cached
    prev := by
      show b < s.1.bigBlockDepotCount * 128
      omega }
  nodup := hs.nodup
  inside := hs.inside
  own := hs.own

/-- Writing into a block in use leaves the entries alone. -/
theorem entry_write (hs : Sound s) (hb : b ∈ s.2) (write : (ℕ → ℕ) → ℕ → ℕ) (a : ℕ) :
    entry (writeBigBlock s.1 b write) a = entry s.1 a := by
  obtain ⟨hlt, hdata⟩ := hs.inside b hb
  rw [entry, block_writeBigBlock (hs.laid.blockIndex_lt hlt) (ne_depotPos hdata _).symm, entry]

/-- The contents of a block in use are nothing to the depot. -/
theorem write (hs : Sound s) (hb : b ∈ s.2) (write : (ℕ → ℕ) → ℕ → ℕ) :
    Sound (writeBigBlock s.1 b write, s.2) := by
  obtain ⟨hlt, hdata⟩ := hs.inside b hb
  have hsize := hs.laid.blockIndex_lt hlt
  have hentry := hs.entry_write hb write
  have htables : Tables (writeBigBlock s.1 b write) s.1.bigBlockDepotCount
      s.1.extBigBlockDepotCount :=
    hs.laid.tables.written hsize fun j _ => (ne_extPos hdata j).symm
  have hblock : ∀ n, (writeBigBlock s.1 b write).block (depotPos n + 1) =
      s.1.block (depotPos n + 1) := fun n =>
    block_writeBigBlock hsize (ne_depotPos hdata n).symm
  rw [writeBigBlock_eq hsize] at htables hblock hentry ⊢
  refine ⟨⟨htables, hs.laid.ext, hs.laid.pos, hs.laid.le, fun n hn => ?_, fun n hn i hi => ?_, ?_,
    hs.laid.prev⟩, hs.nodup, hs.inside, fun a ha hdata => ?_⟩
  · exact Nat.le_trans (hs.laid.held n hn) (Nat.le_max_left _ _)
  · rw [hblock]
    exact hs.laid.marks n hn i hi
  · refine hs.laid.cached.imp_right ?_
    rintro ⟨hlt, hcopy⟩
    refine ⟨hlt, fun i hi => ?_⟩
    rw [hblock]
    exact hcopy i hi
  · rw [hentry]
    exact hs.own a ha hdata

theorem look (hs : Sound s) (b : ℕ) : Sound ((getNextBlockInChain s.1 b).1, s.2) := by
  obtain ⟨k, buffer, heq, hlaid, -⟩ := hs.laid.get b
  rw [heq] at hlaid ⊢
  exact ⟨hlaid, hs.nodup, hs.inside, hs.own⟩

/-- An allocation finds a block that has not been given out. -/
theorem found (hs : Sound s) (hroom : HasRoom s.1) (counted : List ℕ) : ∃ st' b,
    getNextFreeBigBlock s.1 counted = .ok (st', b) ∧ Sound (st', s.2) ∧
    b / 128 < st'.bigBlockDepotCount ∧ entry st' b = blockUnused ∧ b ∉ s.2 ∧
    s.1.bigBlockDepotCount ≤ st'.bigBlockDepotCount ∧
    (∀ a, a / 128 < s.1.bigBlockDepotCount → entry st' a = entry s.1 a) ∧
    ∀ a, IsData a → st'.block (a + 1) = s.1.block (a + 1) := by
  obtain ⟨st', b, hfound, hlaid, hcount, hb, hfree, hold, hnew, hblocks⟩ :=
    getNextFreeBigBlock_spec hs.laid hroom counted
  have hsound : Sound (st', s.2) := by
    refine ⟨hlaid, hs.nodup, fun a ha => ?_, fun a ha hdata => ?_⟩
    · exact ⟨Nat.lt_of_lt_of_le (hs.inside a ha).1 hcount, (hs.inside a ha).2⟩
    · dsimp only at ha ⊢
      by_cases hlt : a / 128 < s.1.bigBlockDepotCount
      · rw [hold a hlt]
        exact hs.own a hlt hdata
      · exact iff_of_false (not_not.2 (hnew a (Nat.le_of_not_lt hlt) ha hdata)) fun h =>
          hlt (hs.inside a h).1
  exact ⟨st', b, hfound, hsound, hb, hfree,
    fun hmem => (hsound.own b hb (hlaid.isData hb hfree)).2 hmem hfree, hcount, hold, hblocks⟩

/-- A free block is given out. -/
theorem take (hs : Sound s) (hb : b / 128 < s.1.bigBlockDepotCount) (hfree : entry s.1 b = blockUnused)
    (hfresh : b ∉ s.2) (hv : v ≠ blockUnused) : Sound (marked s.1 b v, b :: s.2) := by
  have hdata := hs.laid.isData hb hfree
  refine ⟨hs.laid.marked hdata, List.nodup_cons.2 ⟨hfresh, hs.nodup⟩, fun a ha => ?_,
    fun a ha hdata' => ?_⟩
  · obtain rfl | ha := List.mem_cons.1 ha
    · exact ⟨hb, hdata⟩
    · exact hs.inside a ha
  · rw [List.mem_cons]
    dsimp only
    by_cases heq : a = b
    · rw [heq, entry_marked]
      exact iff_of_true hv (.inl rfl)
    · rw [entry_marked_of_ne heq, hs.own a ha hdata']
      exact ⟨.inr, fun h => h.resolve_left heq⟩

/-- The markers are no blocks. -/
theorem blockIndex_ne (hs : Sound s) (hb : b / 128 < s.1.bigBlockDepotCount) (hv : blockExtBBDepot ≤ v) :
    b ≠ v := by
  have hlt := hs.laid.blockIndex_lt hb
  unfold blockExtBBDepot at hv
  omega

theorem allocates (hs : Sound s) (hroom : HasRoom s.1) (counted : List ℕ) :
    ∃ st' b, Allocates s.1 s.2 counted st' b ∧
      setNextBlockInChain st' b blockEndOfChain = .ok (marked st' b blockEndOfChain) ∧
      Sound (marked st' b blockEndOfChain, b :: s.2) := by
  obtain ⟨st', b, hfound, hsound, hb, hfree, hfresh, hcount, hold, hblocks⟩ := hs.found hroom counted
  have hget : ∀ a, a / 128 < st'.bigBlockDepotCount →
      (getNextBlockInChain st' a).2 = some (entry st' a) := fun a ha => by
    obtain ⟨-, -, -, -, h⟩ := hsound.laid.get a
    exact h ha
  have hindex : b < blockExtBBDepot := by
    have hlt := hsound.laid.blockIndex_lt hb
    unfold blockExtBBDepot
    omega
  refine ⟨st', b, ⟨hfound, hindex, ?_, hfresh, hsound.laid.isData hb hfree, fun a ha _ => ?_, hblocks,
    hsound.laid.describes, fun v hv => ⟨_, hsound.laid.set hb hv.symm⟩⟩,
    hsound.laid.set hb (hsound.blockIndex_ne hb (by decide)), hsound.take hb hfree hfresh (by decide)⟩
  · rw [hget b hb, hfree]
  · obtain ⟨-, -, -, -, h⟩ := hs.laid.get a
    rw [hget a (Nat.lt_of_lt_of_le ha hcount), h ha, hold a ha]

theorem created (rest : ℕ → ℕ → ℕ) : Sound (Wine.Ole32.created rest) := by
  have hr : reserved 0 = 1 := if_neg (by decide)
  have hpos : depotPos 0 = 0 := by rw [depotPos, hr]
  have hblock : (createStorage rest).block (depotPos 0 + 1) =
      writeDWord 1 blockEndOfChain (writeDWord 0 blockSpecial fun _ => blockUnused) := by
    rw [hpos]
    exact Function.update_self 1 _ rest
  have hzero : ∀ n < (createStorage rest).bigBlockDepotCount, n = 0 := fun n hn => by
    change n < 1 at hn
    omega
  refine ⟨⟨⟨fun n hn => ?_, rfl, fun j hj => absurd hj (Nat.not_lt_zero j),
    fun j hj => absurd hj (Nat.not_lt_zero j), fun j hj => absurd hj (Nat.not_lt_zero j),
    ⟨3, rfl⟩, ?_⟩, ?_, Nat.one_pos, ?_, fun n hn => ?_, fun n hn i hi => ?_, .inl rfl, ?_⟩,
    List.pairwise_singleton _ _, fun b hb => ?_, fun b hb hdata => ?_⟩
  · show writeDWord 0 0 (fun _ => blockUnused) n = if n < 1 then depotPos n else blockUnused
    rw [writeDWord]
    by_cases h0 : n = 0
    · rw [h0, Function.update_self, if_pos Nat.one_pos, hpos]
    · rw [Function.update_of_ne h0, if_neg (by omega)]
  · show 3 * 512 < 2 ^ 32
    omega
  · show 0 = extBlocksFor 1
    unfold extBlocksFor
    omega
  · show 1 ≤ depotLimit
    unfold depotLimit
    omega
  · rw [hzero n hn, hpos]
    show 512 * 2 ≤ 3 * 512
    omega
  · rw [hzero n hn] at hi ⊢
    rw [hr] at hi
    show (createStorage rest).block (depotPos 0 + 1) i = _
    rw [hblock, newDepot, hr, if_neg (by decide), writeDWord, Function.update_of_ne (by omega)]
  · show 0 < 1 * 128
    omega
  · rw [List.mem_singleton.1 hb]
    exact ⟨Nat.one_pos, show reserved 0 ≤ 1 from Nat.le_of_eq hr⟩
  · have hdiv := hzero _ hb
    unfold IsData at hdata
    rw [hdiv, hr] at hdata
    show entry (createStorage rest) b ≠ blockUnused ↔ b ∈ [1]
    rw [entry, hdiv, hblock, List.mem_singleton, writeDWord]
    by_cases h1 : b = 1
    · rw [h1]
      exact iff_of_true (by decide) rfl
    · rw [Function.update_of_ne (by omega), writeDWord, Function.update_of_ne (by omega)]
      exact iff_of_false (fun h => h rfl) h1

theorem setNext_ok {st' : Storage} (hs : Sound s) (hb : b ∈ s.2)
    (h : setNextBlockInChain s.1 b v = .ok st') : st' = marked s.1 b v := by
  by_cases hne : b = v
  · unfold setNextBlockInChain at h
    dsimp only at h
    rw [if_pos (.inr hne)] at h
    cases h
  · rw [hs.set hb hne] at h
    cases h
    rfl

/-- A block in use becomes free. -/
theorem free (hs : Sound s) (hb : b ∈ s.2) : ∃ st', freeBigBlock s.1 b = .ok st' ∧
    Sound (st', s.2.erase b) ∧ st'.bigBlockDepotCount = s.1.bigBlockDepotCount ∧
    ∀ a, a ≠ b → entry st' a = entry s.1 a := by
  have hlt := (hs.inside b hb).1
  have hset := hs.set hb (hs.blockIndex_ne hlt (by decide : blockExtBBDepot ≤ blockUnused))
  have hfreed := hs.freed hb
  unfold freeBigBlock
  rw [hset]
  change ∃ st', Except.ok _ = Except.ok st' ∧ _
  refine ⟨_, rfl, ?_⟩
  split
  · exact ⟨hfreed.hinted hlt, rfl, fun a ha => entry_marked_of_ne ha⟩
  · exact ⟨hfreed, rfl, fun a ha => entry_marked_of_ne ha⟩

/-- One step keeps the depot and the blocks in order. -/
theorem step (hs : Sound s) (hp : Possible s op) (hf : Fits s op)
    (h : Wine.Ole32.step s op = .ok s') : Sound s' := by
  cases op with
  | allocate counted =>
    obtain ⟨st', b, ha, hset, hsound⟩ := hs.allocates hf counted
    unfold Wine.Ole32.step at h
    dsimp only at h
    rw [ha.found] at h
    change (setNextBlockInChain st' b blockEndOfChain >>= _) = _ at h
    rw [hset] at h
    cases h
    exact hsound
  | link a v =>
    unfold Wine.Ole32.step at h
    dsimp only at h
    cases hset : setNextBlockInChain s.1 a v with
    | error e =>
      rw [hset] at h
      cases h
    | ok st' =>
      rw [hset] at h
      cases h
      rw [hs.setNext_ok hp.1 hset]
      exact hs.link hp.1 hp.2
  | free a =>
    obtain ⟨st', hfree, hsound, -⟩ := hs.free hp
    unfold Wine.Ole32.step at h
    dsimp only at h
    rw [hfree] at h
    cases h
    exact hsound
  | next a =>
    cases h
    exact hs.look a
  | write a data =>
    cases h
    exact hs.write hp fun _ => data

end Sound

/-! ## Allocations in every run -/

end Wine.Ole32
