import Mathlib.Algebra.Group.Nat.Defs
import Mathlib.Data.List.Basic

/-!
# The big block depot of a compound file

A compound file is cut into blocks of 512 bytes. For each block the depot says which block follows
it in its chain, or that the block is free. The depot lies in blocks of the file itself, at 128
entries each: the header lists the first 109 of them, and a chain of extended blocks the rest, 127 to
an extended block. A copy of the depot block that was read last is kept.
-/

namespace Wine.Ole32

/-! ## The block file -/

def blockExtBBDepot : ℕ := 0xfffffffc
def blockSpecial : ℕ := 0xfffffffd
def blockEndOfChain : ℕ := 0xfffffffe
def blockUnused : ℕ := 0xffffffff

/-- `ULONG` arithmetic. -/
def ulong (n : ℕ) : ℕ := n % 2 ^ 32

/-- The blocks start at -1, which is the header; in the file they are counted from 0. -/
def fileIndex (index : ℕ) : ℕ :=
  if index = 0xffffffff then 0 else index + 1

/-- What of `StorageImpl` and its block file the depot uses. A block holds 128 double words; they are
found by the offset of the block in the file, in units of 512 bytes. -/
structure Storage where
  block : ℕ → ℕ → ℕ
  filesize : ℕ
  bigBlockDepotStart : ℕ → ℕ
  bigBlockDepotCount : ℕ
  extBigBlockDepotStart : ℕ
  extBigBlockDepotCount : ℕ
  indexBlockDepotCached : ℕ
  blockDepotCached : ℕ → ℕ
  prevFreeBlock : ℕ

inductive DepotFault
  | assertion
  | endless
  deriving DecidableEq, Repr

/-- Where in the file the block is; the offset in bytes is a `DWORD`. -/
def blockPlace (index : ℕ) : ℕ := fileIndex index % 2 ^ 23

/-- `BIGBLOCKFILE_GetROBigBlock`. -/
def getROBigBlock (st : Storage) (index : ℕ) : Option (ℕ → ℕ) :=
  if ulong ((st.filesize + 511) / 512 * 512) < ulong (512 * (fileIndex index + 1)) then none
  else some (st.block (blockPlace index))

/-- `BIGBLOCKFILE_EnsureExists`. -/
def ensureExists (st : Storage) (index : ℕ) : Storage :=
  if st.filesize < ulong (512 * (fileIndex index + 1)) then
    { st with filesize := ulong (512 * (fileIndex index + 1)) }
  else st

/-- `BIGBLOCKFILE_GetBigBlock`, and what the caller writes into the block before it releases it. -/
def writeBigBlock (st : Storage) (index : ℕ) (write : (ℕ → ℕ) → ℕ → ℕ) : Storage :=
  let st := ensureExists st index
  let place := blockPlace index
  { st with block := Function.update st.block place (write (st.block place)) }

/-- `StorageUtl_WriteDWord`; the offset is in double words. -/
def writeDWord (offset value : ℕ) (buffer : ℕ → ℕ) : ℕ → ℕ :=
  Function.update buffer offset value

/-! ## Where a depot block is -/

/-- The last double word of an extended block is the index of the next one. -/
def getNextExtendedBlock (st : Storage) (blockIndex : ℕ) : ℕ :=
  match getROBigBlock st blockIndex with
  | none => blockSpecial
  | some depotBuffer => depotBuffer 127

/-- The extended block that is so many blocks behind the given one. -/
def extBlockAfter (st : Storage) : ℕ → ℕ → ℕ
  | 0, extBlockIndex => extBlockIndex
  | n + 1, extBlockIndex => extBlockAfter st n (getNextExtendedBlock st extBlockIndex)

/-- For depot blocks that the header does not list. -/
def getExtDepotBlock (st : Storage) (depotIndex : ℕ) : ℕ :=
  if st.extBigBlockDepotStart = blockEndOfChain then blockUnused
  else
    let extBlockIndex := extBlockAfter st ((depotIndex - 109) / 127) st.extBigBlockDepotStart
    if extBlockIndex = blockUnused then blockUnused
    else match getROBigBlock st extBlockIndex with
      | none => blockUnused
      | some depotBuffer => depotBuffer ((depotIndex - 109) % 127)

def setExtDepotBlock (st : Storage) (depotIndex blockIndex : ℕ) : Storage :=
  let extBlockIndex := extBlockAfter st ((depotIndex - 109) / 127) st.extBigBlockDepotStart
  if extBlockIndex = blockUnused then st
  else writeBigBlock st extBlockIndex (writeDWord ((depotIndex - 109) % 127) blockIndex)

/-- `depotBlockIndexPos`, from the header or from the extended depot. -/
def depotBlockIndexPos (st : Storage) (depotIndex : ℕ) : ℕ :=
  if depotIndex < 109 then st.bigBlockDepotStart depotIndex else getExtDepotBlock st depotIndex

/-! ## The entries of the depot -/

/-- The depot block becomes the cached one. If it cannot be read the old copy stays. -/
def cacheDepotBlock (st : Storage) (depotIndex : ℕ) : Storage × Bool :=
  let st := { st with indexBlockDepotCached := depotIndex }
  match getROBigBlock st (depotBlockIndexPos st depotIndex) with
  | none => (st, false)
  | some depotBuffer => ({ st with blockDepotCached := depotBuffer }, true)

/-- The next block of the chain, or nothing for `STG_E_READFAULT`. -/
def getNextBlockInChain (st : Storage) (blockIndex : ℕ) : Storage × Option ℕ :=
  let offsetInDepot := ulong (blockIndex * 4)
  let depotBlockCount := offsetInDepot / 512
  let depotBlockOffset := offsetInDepot % 512
  if st.bigBlockDepotCount ≤ depotBlockCount then (st, none)
  else
    let cached := if depotBlockCount = st.indexBlockDepotCached then (st, true)
      else cacheDepotBlock st depotBlockCount
    (cached.1, if cached.2 then some (cached.1.blockDepotCached (depotBlockOffset / 4)) else none)

def setNextBlockInChain (st : Storage) (blockIndex nextBlock : ℕ) :
    Except DepotFault Storage :=
  let offsetInDepot := ulong (blockIndex * 4)
  let depotBlockCount := offsetInDepot / 512
  let depotBlockOffset := offsetInDepot % 512
  if st.bigBlockDepotCount ≤ depotBlockCount ∨ blockIndex = nextBlock then .error .assertion
  else
    let st := writeBigBlock st (depotBlockIndexPos st depotBlockCount)
      (writeDWord (depotBlockOffset / 4) nextBlock)
    if depotBlockCount = st.indexBlockDepotCached then
      .ok { st with
        blockDepotCached := writeDWord (depotBlockOffset / 4) nextBlock st.blockDepotCached }
    else .ok st

def freeBigBlock (st : Storage) (blockIndex : ℕ) : Except DepotFault Storage := do
  let st ← setNextBlockInChain st blockIndex blockUnused
  pure (if blockIndex < st.prevFreeBlock then { st with prevFreeBlock := blockIndex } else st)

/-! ## More depot blocks -/

/-- A depot block starts with all its blocks free. -/
def addBlockDepot (st : Storage) (blockIndex : ℕ) : Storage :=
  writeBigBlock st blockIndex fun _ _ => blockUnused

/-- The new extended block is the first one, or the last one leads to it. -/
def linkExtBlock (st : Storage) (index : ℕ) : Storage :=
  let numExtBlocks := st.extBigBlockDepotCount
  if numExtBlocks = 0 ∧ st.extBigBlockDepotStart = blockEndOfChain then
    { st with extBigBlockDepotStart := index }
  else
    writeBigBlock st (extBlockAfter st (ulong (numExtBlocks + 2 ^ 32 - 1)) st.extBigBlockDepotStart)
      (writeDWord 127 index)

/-- A new extended block, with its index. -/
def addExtBlockDepot (st : Storage) : Storage × ℕ :=
  let index := ulong ((109 + st.extBigBlockDepotCount * 127) * 128)
  (writeBigBlock (linkExtBlock st index) index fun _ _ => blockUnused, index)

/-- `StorageImpl_SaveFileHeader`: the header repeats fields of the storage. To count the blocks of
the small block depot it follows their chain; `counted` are the blocks it meets. -/
def saveFileHeader (st : Storage) (counted : List ℕ) : Storage :=
  counted.foldl (fun st blockIndex => (getNextBlockInChain st blockIndex).1)
    (ensureExists st blockUnused)

/-- The depot block is initialized, and the header lists it. -/
def listInHeader (st : Storage) (depotIndex pos : ℕ) : Storage :=
  let st := addBlockDepot st pos
  { st with
    bigBlockDepotCount := ulong (st.bigBlockDepotCount + 1)
    bigBlockDepotStart := Function.update st.bigBlockDepotStart depotIndex pos }

/-- The header gets one more depot block. -/
def growHeaderDepot (st : Storage) (depotIndex : ℕ) (counted : List ℕ) :
    Except DepotFault (Storage × ℕ) := do
  let pos := ulong (depotIndex * 128)
  let st ← setNextBlockInChain (listInHeader st depotIndex pos) pos blockSpecial
  pure (saveFileHeader st counted, pos)

/-- The extended block that the depot block needs: nothing if the last one has room. -/
def growExtBlocks (st : Storage) (depotIndex : ℕ) : Storage × Option ℕ :=
  if (depotIndex - 109) % 127 = 0 then
    let added := addExtBlockDepot st
    ({ added.1 with extBigBlockDepotCount := ulong (added.1.extBigBlockDepotCount + 1) },
      some added.2)
  else (st, none)

/-- `depotBlockIndexPos` of a depot block that is added behind the header's. -/
def newDepotPos (depotIndex : ℕ) : Option ℕ → ℕ
  | some extIndex => ulong (extIndex + 1)
  | none => ulong (depotIndex * 128)

/-- The depot block is initialized, and an extended block lists it. -/
def listInExtBlock (st : Storage) (depotIndex pos : ℕ) : Storage :=
  let st := addBlockDepot st pos
  setExtDepotBlock { st with bigBlockDepotCount := ulong (st.bigBlockDepotCount + 1) } depotIndex pos

def flagExtBlock (st : Storage) : Option ℕ → Except DepotFault Storage
  | some extIndex => setNextBlockInChain st extIndex blockExtBBDepot
  | none => pure st

/-- The extended depot gets one more depot block. -/
def growExtDepot (st : Storage) (depotIndex : ℕ) (counted : List ℕ) :
    Except DepotFault (Storage × ℕ) := do
  let grown := growExtBlocks st depotIndex
  let pos := newDepotPos depotIndex grown.2
  let st ← setNextBlockInChain (listInExtBlock grown.1 depotIndex pos) pos blockSpecial
  let st ← flagExtBlock st grown.2
  pure (saveFileHeader st counted, pos)

/-- The depot block with this index, after the depot has grown if it has to. -/
def depotBlockFor (st : Storage) (depotIndex : ℕ) (counted : List ℕ) :
    Except DepotFault (Storage × ℕ) :=
  let pos := depotBlockIndexPos st depotIndex
  if pos ≠ blockUnused then .ok (st, pos)
  else if depotIndex < 109 then growHeaderDepot st depotIndex counted
  else growExtDepot st depotIndex counted

/-! ## A free block -/

/-- The first free entry of a depot block from the offset on. -/
def scanDepot (depotBuffer : ℕ → ℕ) (depotBlockOffset : ℕ) : Option ℕ :=
  (List.range' depotBlockOffset (128 - depotBlockOffset)).find? fun i => depotBuffer i = blockUnused

/-- The loop over the depot blocks; `fuel` bounds the number of them that are looked at. -/
def scanDepots (counted : List ℕ) :
    ℕ → Storage → ℕ → ℕ → Except DepotFault (Storage × ℕ)
  | 0, _, _, _ => .error .endless
  | fuel + 1, st, depotIndex, depotBlockOffset => do
    let found ← depotBlockFor st depotIndex counted
    match (getROBigBlock found.1 found.2).bind fun depotBuffer =>
        scanDepot depotBuffer depotBlockOffset with
    | some i => pure (found.1, ulong (depotIndex * 128 + i))
    | none => scanDepots counted fuel found.1 (depotIndex + 1) 0

def getNextFreeBigBlock (st : Storage) (counted : List ℕ) : Except DepotFault (Storage × ℕ) := do
  let found ← scanDepots counted (st.bigBlockDepotCount + 1) st
    (st.prevFreeBlock / 128) (st.prevFreeBlock % 128)
  let st := ensureExists found.1 found.2
  pure ({ st with prevFreeBlock := found.2 }, found.2)

/-- `StorageImpl_Construct` of a new storage: the depot block and the block of the root chain. What
the file held before is not known. -/
def createStorage (rest : ℕ → ℕ → ℕ) : Storage where
  block := Function.update rest 1
    (writeDWord 1 blockEndOfChain (writeDWord 0 blockSpecial fun _ => blockUnused))
  filesize := 3 * 512
  bigBlockDepotStart := writeDWord 0 0 fun _ => blockUnused
  bigBlockDepotCount := 1
  extBigBlockDepotStart := blockEndOfChain
  extBigBlockDepotCount := 0
  indexBlockDepotCached := 0xffffffff
  blockDepotCached := fun _ => blockUnused
  prevFreeBlock := 0

end Wine.Ole32
