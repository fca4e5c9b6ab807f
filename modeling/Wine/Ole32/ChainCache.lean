import Mathlib.Data.List.GetD
import Wine.Ole32.Allocation

/-!
# The cache of a block chain

A stream of big blocks remembers the block in which it has last read or written, and where it was in the
chain. The next call goes on from there, unless it lies in front of it.
-/

namespace Wine.Ole32.BlockChain
open Wine.Lib

/-! ## The stream -/

/-- `BlockChainStream`; the head is kept in the place holder or in the property of the owner. -/
structure Stream where
  head : ℕ
  lastBlockNoInSequence : ℕ
  lastBlockNoInSequenceIndex : ℕ
  tailIndex : ℕ
  numBlocks : ℕ

structure State where
  storage : Storage
  stream : Stream

def noSequence : ℕ := 0xffffffff

/-- What a call copies out of or into which block, whether it succeeds, and how many bytes it reports, if it
gets so far. -/
structure Transfer where
  copied : List (ℕ × List ℕ)
  done : Bool
  bytes : Option ℕ

/-- From where so many links have to be followed. -/
def start (stream : Stream) (blockNoInSequence : ℕ) : ℕ × ℕ :=
  if stream.lastBlockNoInSequence = noSequence ∨
      stream.lastBlockNoInSequenceIndex = blockEndOfChain ∨
      blockNoInSequence < stream.lastBlockNoInSequence then
    (blockNoInSequence, stream.head)
  else
    (blockNoInSequence - stream.lastBlockNoInSequence, stream.lastBlockNoInSequenceIndex)

/-- The links are followed up to the end of the chain; the result is what remains of them and the block. -/
def seek (st : Storage) : ℕ → ℕ → Storage × Option (ℕ × ℕ)
  | 0, blockIndex => (st, some (0, blockIndex))
  | n + 1, blockIndex =>
    if blockIndex = blockEndOfChain then (st, some (n + 1, blockIndex))
    else
      match getNextBlockInChain st blockIndex with
      | (st, none) => (st, none)
      | (st, some next) => seek st n next

/-- The first block that contains part of the buffer. -/
def locate (s : State) (blockNoInSequence : ℕ) : Storage × Option (ℕ × ℕ) :=
  seek s.storage (start s.stream blockNoInSequence).1 (start s.stream blockNoInSequence).2

def byteAt (buffer : ℕ → ℕ) (j : ℕ) : ℕ := buffer (j / 4) / 256 ^ (j % 4) % 256

def getBytes (offset count : ℕ) (buffer : ℕ → ℕ) : List ℕ :=
  (List.range' offset count).map (byteAt buffer)

/-- The double words of the block with some of its bytes replaced. -/
def putBytes (offset : ℕ) (bytes : List ℕ) (buffer : ℕ → ℕ) (i : ℕ) : ℕ :=
  let byte := fun j => if j < offset then byteAt buffer j else bytes.getD (j - offset) (byteAt buffer j)
  byte (4 * i) + byte (4 * i + 1) * 256 + byte (4 * i + 2) * 65536 + byte (4 * i + 3) * 16777216

/-- A round of the loop of `BlockChainStream_ReadAt`; `loop` is what remains of it. -/
def readRound (loop : Storage → ℕ → ℕ → ℕ → Storage × Transfer) (st : Storage)
    (size offsetInBlock blockIndex : ℕ) : Storage × Transfer :=
  if size = 0 ∨ blockIndex = blockEndOfChain then (st, ⟨[], size = 0, some 0⟩)
  else
    let bytesToReadInBuffer := min (512 - offsetInBlock) size
    match getROBigBlock st blockIndex with
    | none => (st, ⟨[], false, some 0⟩)
    | some bigBlockBuffer =>
      let bytes := getBytes offsetInBlock bytesToReadInBuffer bigBlockBuffer
      match getNextBlockInChain st blockIndex with
      | (st, none) => (st, ⟨[(blockIndex, bytes)], false, some 0⟩)
      | (st, some next) =>
        let rest := loop st (size - bytesToReadInBuffer) 0 next
        (rest.1, ⟨(blockIndex, bytes) :: rest.2.copied, rest.2.done,
          rest.2.bytes.map (bytesToReadInBuffer + ·)⟩)

/-- The rounds of `BlockChainStream_ReadAt`. Each of them takes at least a byte. -/
def readLoop : ℕ → Storage → ℕ → ℕ → ℕ → Storage × Transfer
  | 0 => fun st size _ _ => (st, ⟨[], size = 0, some 0⟩)
  | n + 1 => readRound (readLoop n)

/-- A round of the loop of `BlockChainStream_WriteAt`. -/
def writeRound (loop : Storage → List ℕ → ℕ → ℕ → Storage × Transfer) (st : Storage)
    (buffer : List ℕ) (offsetInBlock blockIndex : ℕ) : Storage × Transfer :=
  if buffer.length = 0 ∨ blockIndex = blockEndOfChain then (st, ⟨[], buffer.length = 0, some 0⟩)
  else
    let bytesToWrite := min (512 - offsetInBlock) buffer.length
    let bytes := buffer.take bytesToWrite
    match getNextBlockInChain (writeBigBlock st blockIndex (putBytes offsetInBlock bytes)) blockIndex with
    | (st, none) => (st, ⟨[(blockIndex, bytes)], false, some 0⟩)
    | (st, some next) =>
      let rest := loop st (buffer.drop bytesToWrite) 0 next
      (rest.1, ⟨(blockIndex, bytes) :: rest.2.copied, rest.2.done, rest.2.bytes.map (bytesToWrite + ·)⟩)

/-- The rounds of `BlockChainStream_WriteAt`. -/
def writeLoop : ℕ → Storage → List ℕ → ℕ → ℕ → Storage × Transfer
  | 0 => fun st buffer _ _ => (st, ⟨[], buffer.length = 0, some 0⟩)
  | n + 1 => writeRound (writeLoop n)

/-- `BlockChainStream_ReadAt`. If the block is not found, the position is kept with the index of another
block. -/
def readAt (s : State) (offset size : ℕ) : State × Transfer :=
  let blockNoInSequence := ulong offset / 512
  let stream := { s.stream with lastBlockNoInSequence := blockNoInSequence }
  match locate s blockNoInSequence with
  | (st, none) => (⟨st, stream⟩, ⟨[], false, none⟩)
  | (st, some (remaining, blockIndex)) =>
    if 0 < remaining ∧ blockIndex = blockEndOfChain then (⟨st, stream⟩, ⟨[], false, none⟩)
    else
      let result := readLoop size st size (ulong offset % 512) blockIndex
      (⟨result.1, { stream with lastBlockNoInSequenceIndex := blockIndex }⟩, result.2)

/-- `BlockChainStream_WriteAt` -/
def writeAt (s : State) (offset : ℕ) (buffer : List ℕ) : State × Transfer :=
  let blockNoInSequence := ulong offset / 512
  let stream := { s.stream with lastBlockNoInSequence := blockNoInSequence }
  match locate s blockNoInSequence with
  | (st, none) => (⟨st, stream⟩, ⟨[], false, none⟩)
  | (st, some (_, blockIndex)) =>
    let result := writeLoop buffer.length st buffer (ulong offset % 512) blockIndex
    (⟨result.1, { stream with lastBlockNoInSequenceIndex := blockIndex }⟩, result.2)

/-! ## Its size -/

/-- The blocks that a stream of this size needs. -/
def blocksFor (size : ℕ) : ℕ := (ulong size + 511) / 512

/-- So many links, whatever they lead to. -/
def advance (st : Storage) : ℕ → ℕ → Storage × Option ℕ
  | 0, blockIndex => (st, some blockIndex)
  | n + 1, blockIndex =>
    match getNextBlockInChain st blockIndex with
    | (st, none) => (st, none)
    | (st, some next) => advance st n next

/-- The blocks from this one on become free. -/
def freeChain : ℕ → Storage → ℕ → Except DepotFault Storage
  | 0, _, _ => .error .endless
  | n + 1, st, extraBlock =>
    if extraBlock = blockEndOfChain then .ok st
    else
      match getNextBlockInChain st extraBlock with
      | (st, none) => .ok st
      | (st, some next) => do
        let st ← freeBigBlock st extraBlock
        freeChain n st next

/-- `BlockChainStream_Shrink`; there remains one block at least. -/
def shrink (s : State) (newSize : ℕ) : Except DepotFault State :=
  let stream := { s.stream with
    lastBlockNoInSequence := noSequence
    lastBlockNoInSequenceIndex := blockEndOfChain }
  let numBlocks := blocksFor newSize
  match advance s.storage (numBlocks - 1) stream.head with
  | (st, none) => .ok ⟨st, stream⟩
  | (st, some blockIndex) =>
    match getNextBlockInChain st blockIndex with
    | (st, none) => .ok ⟨st, stream⟩
    | (st, some extraBlock) => do
      let st ← setNextBlockInChain st blockIndex blockEndOfChain
      let st ← freeChain (st.bigBlockDepotCount * 128 + 1) st extraBlock
      pure ⟨st, { stream with tailIndex := blockIndex, numBlocks := numBlocks }⟩

/-- An empty chain gets a head. -/
def createHead (s : State) (counted : List ℕ) : Except DepotFault State :=
  if s.stream.head = blockEndOfChain then do
    let found ← getNextFreeBigBlock s.storage counted
    let st ← setNextBlockInChain found.1 found.2 blockEndOfChain
    pure ⟨st, { s.stream with head := found.2, tailIndex := found.2, numBlocks := 1 }⟩
  else pure s

/-- The current end of the chain, for a stream that does not know it. -/
def findTail : ℕ → State → ℕ → ℕ → Except DepotFault (State × Bool)
  | 0, _, _, _ => .error .endless
  | n + 1, s, blockIndex, currentBlock =>
    if blockIndex = blockEndOfChain then
      .ok (⟨s.storage, { s.stream with tailIndex := currentBlock }⟩, true)
    else
      let stream := { s.stream with numBlocks := s.stream.numBlocks + 1 }
      match getNextBlockInChain s.storage blockIndex with
      | (st, none) => .ok (⟨st, stream⟩, false)
      | (st, some next) => findTail n ⟨st, stream⟩ next blockIndex

/-- One more block behind the current one. -/
def appendBlock (st : Storage) (currentBlock : ℕ) (counted : List ℕ) :
    Except DepotFault (Storage × ℕ) := do
  let found ← getNextFreeBigBlock st counted
  let st ← setNextBlockInChain found.1 currentBlock found.2
  let st ← setNextBlockInChain st found.2 blockEndOfChain
  pure (st, found.2)

/-- So many blocks more. -/
def appendBlocks (counted : ℕ → List ℕ) : ℕ → Storage → ℕ → Except DepotFault (Storage × ℕ)
  | 0, st, currentBlock => pure (st, currentBlock)
  | n + 1, st, currentBlock => do
    let added ← appendBlock st currentBlock (counted n)
    appendBlocks counted n added.1 added.2

/-- New blocks are added at the tail. -/
def growTail (s : State) (newNumBlocks : ℕ) (counted : ℕ → List ℕ) : Except DepotFault State :=
  if s.stream.numBlocks < newNumBlocks then do
    let added ← appendBlocks counted (newNumBlocks - s.stream.numBlocks) s.storage s.stream.tailIndex
    pure ⟨added.1, { s.stream with tailIndex := added.2, numBlocks := newNumBlocks }⟩
  else pure s

/-- `BlockChainStream_Enlarge`; `counted` are the blocks of the small block depot when the header is
saved. -/
def enlarge (s : State) (newSize : ℕ) (counted : ℕ → List ℕ) : Except DepotFault State := do
  let s ← createHead s (counted (blocksFor newSize))
  if s.stream.tailIndex = blockEndOfChain then
    let tail ← findTail (s.storage.bigBlockDepotCount * 128 + 2) s s.stream.head s.stream.head
    if tail.2 then growTail tail.1 (blocksFor newSize) counted else pure tail.1
  else growTail s (blocksFor newSize) counted

/-- `BlockChainStream_SetSize`; the size is what `BlockChainStream_GetSize` returns. -/
def setSize (s : State) (size newSize : ℕ) (counted : ℕ → List ℕ) : Except DepotFault State :=
  if ulong newSize = ulong size then pure s
  else if ulong newSize < ulong size then shrink s newSize
  else enlarge s newSize counted

inductive Call
  | readAt (offset size : ℕ)
  | writeAt (offset : ℕ) (buffer : List ℕ)
  | setSize (size newSize : ℕ) (counted : ℕ → List ℕ)

def step (s : State) : Call → Except DepotFault State
  | .readAt offset size => pure (readAt s offset size).1
  | .writeAt offset buffer => pure (writeAt s offset buffer).1
  | .setSize size newSize counted => setSize s size newSize counted

/-! ## What holds of it -/

/-- The blocks that lead from one to the other. -/
def Path (st : Storage) : ℕ → List ℕ → ℕ → Prop
  | b, [], c => b = c
  | b, a :: rest, c => b = a ∧ Path st (entry st a) rest c

/-- The stream has these blocks, and they are in use. -/
structure Holds (st : Storage) (used : List ℕ) (head : ℕ) (l : List ℕ) : Prop where
  sound : Sound (st, used)
  path : Path st head l blockEndOfChain
  nodup : l.Nodup
  mine : ∀ a ∈ l, a ∈ used

/-- The cache is not set, or it is about the block at this position of the chain. -/
def CacheRight (stream : Stream) (l : List ℕ) : Prop :=
  stream.lastBlockNoInSequence = noSequence ∨ stream.lastBlockNoInSequenceIndex = blockEndOfChain ∨
    l[stream.lastBlockNoInSequence]? = some stream.lastBlockNoInSequenceIndex

/-- A stream with a chain that ends, at the tail that it knows, and with a right cache. -/
def Right (s : State) : Prop := ∃ used l, Holds s.storage used s.stream.head l ∧
  s.stream.tailIndex = l.getLast?.getD blockEndOfChain ∧ CacheRight s.stream l

/-- There is room for each of the blocks that are added. -/
def HasRoomFor (counted : ℕ → List ℕ) : ℕ → Storage → ℕ → Prop
  | 0, _, _ => True
  | n + 1, st, currentBlock => HasRoom st ∧ ∀ added,
    appendBlock st currentBlock (counted n) = .ok added → HasRoomFor counted n added.1 added.2

/-- What is read does not start behind the end of the chain, or the block that the stream remembers is none;
and the storage has room for what is added. -/
def Meets (s : State) : Call → Prop
  | .readAt offset _ => s.stream.lastBlockNoInSequenceIndex = blockEndOfChain ∨
    ∃ l, Path s.storage s.stream.head l blockEndOfChain ∧ blockEndOfChain ∉ l ∧
      ulong offset / 512 ≤ l.length
  | .writeAt _ _ => True
  | .setSize size newSize counted => ulong size < ulong newSize →
    (s.stream.head = blockEndOfChain → HasRoom s.storage) ∧
    ∀ s', createHead s (counted (blocksFor newSize)) = .ok s' →
      HasRoomFor counted (blocksFor newSize - s'.stream.numBlocks) s'.storage s'.stream.tailIndex

variable {st st' : Storage} {used l m : List ℕ} {a b c d head n k size offset : ℕ} {s s' : State}
  {stream : Stream} {counted : ℕ → List ℕ} {call : Call}

/-! ## Paths -/

theorem path_append : Path st b (l ++ m) d ↔ ∃ c, Path st b l c ∧ Path st c m d := by
  induction l generalizing b with
  | nil =>
    constructor
    · exact fun h => ⟨b, rfl, h⟩
    · rintro ⟨c, rfl, h⟩
      exact h
  | cons a l ih =>
    rw [List.cons_append, Path, ih]
    constructor
    · rintro ⟨hb, c, h, h'⟩
      exact ⟨c, ⟨hb, h⟩, h'⟩
    · rintro ⟨c, ⟨hb, h⟩, h'⟩
      exact ⟨hb, c, h, h'⟩

theorem path_congr (h : ∀ a ∈ l, entry st' a = entry st a) : Path st' b l c ↔ Path st b l c := by
  induction l generalizing b with
  | nil => exact Iff.rfl
  | cons a l ih =>
    rw [Path, Path, h a List.mem_cons_self, ih fun x hx => h x (List.mem_cons_of_mem a hx)]

/-- The rest of a chain starts with the block at the position. -/
theorem path_drop (h : Path st head l c) (k : ℕ) (hk : k ≤ l.length) :
    Path st (l.getD k c) (l.drop k) c := by
  induction k generalizing head l with
  | zero =>
    cases l with
    | nil => exact rfl
    | cons a l =>
      obtain ⟨rfl, h⟩ := h
      exact ⟨rfl, h⟩
  | succ k ih =>
    cases l with
    | nil => exact absurd hk (Nat.not_succ_le_zero k)
    | cons a l => exact ih h.2 (Nat.le_of_succ_le_succ hk)

/-- The chain is determined by its head. -/
theorem path_unique (hl : ∀ a ∈ l, a ≠ c) (hm : ∀ a ∈ m, a ≠ c) (h : Path st b l c)
    (h' : Path st b m c) : l = m := by
  induction l generalizing b m with
  | nil =>
    cases m with
    | nil => rfl
    | cons a m => exact absurd (h'.1.symm.trans h) (hm a List.mem_cons_self)
  | cons a l ih =>
    cases m with
    | nil => exact absurd (h.1.symm.trans h') (hl a List.mem_cons_self)
    | cons a' m =>
      obtain rfl : a = a' := h.1.symm.trans h'.1
      rw [ih (fun x hx => hl x (List.mem_cons_of_mem a hx))
        (fun x hx => hm x (List.mem_cons_of_mem a hx)) h.2 h'.2]

/-! ## Following the links -/

/-- The storage may have changed, but not what the depot says. -/
structure Alike (used : List ℕ) (st st' : Storage) : Prop where
  sound : Sound (st', used)
  entries : ∀ a, entry st' a = entry st a
  count : st'.bigBlockDepotCount = st.bigBlockDepotCount

theorem Alike.trans {st'' : Storage} (h : Alike used st st') (h' : Alike used st' st'') :
    Alike used st st'' :=
  ⟨h'.sound, fun a => (h'.entries a).trans (h.entries a), h'.count.trans h.count⟩

theorem Alike.path (h : Alike used st st') : Path st' b l c ↔ Path st b l c :=
  path_congr fun a _ => h.entries a

theorem Holds.alike (h : Holds st used head l) (h' : Alike used st st') : Holds st' used head l :=
  ⟨h'.sound, h'.path.mpr h.path, h.nodup, h.mine⟩

theorem ne_end (hs : Sound (st, used)) (ha : a ∈ used) : a ≠ blockEndOfChain :=
  hs.blockIndex_ne (hs.inside a ha).1 (by decide)

/-- The link of a block in use. -/
theorem getNext_spec (hs : Sound (st, used)) (hb : b ∈ used) :
    ∃ st', getNextBlockInChain st b = (st', some (entry st b)) ∧ Alike used st st' := by
  obtain ⟨k, buffer, heq, hlaid, hget⟩ := hs.laid.get b
  refine ⟨(getNextBlockInChain st b).1, Prod.ext rfl (hget (hs.inside b hb).1), hs.look b, fun a => ?_, ?_⟩
  · rw [heq]
    rfl
  · rw [heq]

/-- There is no link at the end. -/
theorem getNext_end (hs : Sound (st, used)) : getNextBlockInChain st blockEndOfChain = (st, none) := by
  have hle := hs.laid.le
  unfold depotLimit at hle
  unfold getNextBlockInChain
  exact if_pos (show st.bigBlockDepotCount ≤ ulong (blockEndOfChain * 4) / 512 from
    Nat.le_trans hle (by decide))

theorem seek_spec (hs : Sound (st, used)) (hp : Path st b l blockEndOfChain) (hm : ∀ a ∈ l, a ∈ used)
    (n : ℕ) : ∃ st', seek st n b = (st', some (n - l.length, l.getD n blockEndOfChain)) ∧
      Alike used st st' := by
  induction n generalizing st b l with
  | zero =>
    refine ⟨st, ?_, hs, fun _ => rfl, rfl⟩
    rw [Nat.zero_sub, seek]
    cases l with
    | nil => rw [show b = blockEndOfChain from hp, List.getD_nil]
    | cons a l => rw [hp.1, List.getD_cons_zero]
  | succ n ih =>
    rw [seek]
    cases l with
    | nil =>
      rw [if_pos (show b = blockEndOfChain from hp), show b = blockEndOfChain from hp]
      exact ⟨st, rfl, hs, fun _ => rfl, rfl⟩
    | cons a l =>
      obtain ⟨rfl, hp⟩ := hp
      have hb := hm b List.mem_cons_self
      obtain ⟨st₁, hget, halike⟩ := getNext_spec hs hb
      obtain ⟨st₂, hseek, halike'⟩ := ih halike.sound (halike.path.mpr hp)
        fun x hx => hm x (List.mem_cons_of_mem b hx)
      refine ⟨st₂, ?_, halike.trans halike'⟩
      rw [if_neg (ne_end hs hb), hget]
      dsimp only
      rw [hseek, List.length_cons, Nat.add_sub_add_right, List.getD_cons_succ]

/-- With a right cache the block is found that is at the position. -/
theorem locate_spec (h : Holds s.storage used s.stream.head l) (hc : CacheRight s.stream l) (n : ℕ) :
    ∃ st', locate s n = (st', some (n - l.length, l.getD n blockEndOfChain)) ∧
      Alike used s.storage st' := by
  unfold locate start
  split
  · exact seek_spec h.sound h.path h.mine n
  · next hset =>
    rw [not_or, not_or] at hset
    have hlast := (hc.resolve_left hset.1).resolve_left hset.2.1
    obtain ⟨hlt, -⟩ := List.getElem?_eq_some_iff.mp hlast
    have hpath := path_drop h.path s.stream.lastBlockNoInSequence (Nat.le_of_lt hlt)
    rw [List.getD_eq_getElem?_getD, hlast, Option.getD_some] at hpath
    obtain ⟨st', hseek, halike⟩ := seek_spec h.sound hpath
      (fun a ha => h.mine a (List.mem_of_mem_drop ha)) (n - s.stream.lastBlockNoInSequence)
    refine ⟨st', ?_, halike⟩
    have hle := Nat.le_of_not_lt hset.2.2
    have hsub : n - s.stream.lastBlockNoInSequence - (l.length - s.stream.lastBlockNoInSequence) =
        n - l.length := by omega
    have hpos : s.stream.lastBlockNoInSequence + (n - s.stream.lastBlockNoInSequence) = n := by omega
    rw [hseek, List.length_drop, hsub, List.getD_eq_getElem?_getD, List.getElem?_drop, hpos,
      List.getD_eq_getElem?_getD]

/-! ## Reading and writing -/

theorem readLoop_spec (hs : Sound (st, used)) (hp : Path st b l blockEndOfChain)
    (hm : ∀ a ∈ l, a ∈ used) (n size offset : ℕ) : Alike used st (readLoop n st size offset b).1 ∧
      (readLoop n st size offset b).2.copied.map Prod.fst <+: l := by
  have hsame : Alike used st st := ⟨hs, fun _ => rfl, rfl⟩
  induction n generalizing st b l size offset with
  | zero =>
    rw [readLoop]
    exact ⟨hsame, List.nil_prefix⟩
  | succ n ih =>
    rw [readLoop, readRound]
    split
    · exact ⟨hsame, List.nil_prefix⟩
    · next hgo =>
      cases l with
      | nil => exact (hgo (.inr hp)).elim
      | cons a l =>
        obtain ⟨rfl, hp⟩ := hp
        obtain ⟨st₁, hget, halike⟩ := getNext_spec hs (hm b List.mem_cons_self)
        dsimp only
        cases getROBigBlock st b with
        | none => exact ⟨hsame, List.nil_prefix⟩
        | some bigBlockBuffer =>
          dsimp only
          rw [hget]
          obtain ⟨halike', hprefix⟩ := ih halike.sound (halike.path.mpr hp)
            (fun x hx => hm x (List.mem_cons_of_mem b hx)) (size - min (512 - offset) size) 0
            ⟨halike.sound, fun _ => rfl, rfl⟩
          exact ⟨halike.trans halike', (List.prefix_cons_inj b).mpr hprefix⟩

theorem alike_write (hs : Sound (st, used)) (hb : b ∈ used) (write : (ℕ → ℕ) → ℕ → ℕ) :
    Alike used st (writeBigBlock st b write) := by
  refine ⟨hs.write hb write, hs.entry_write hb write, ?_⟩
  rw [writeBigBlock_eq (hs.laid.blockIndex_lt (hs.inside b hb).1)]

theorem writeLoop_spec (hs : Sound (st, used)) (hp : Path st b l blockEndOfChain)
    (hm : ∀ a ∈ l, a ∈ used) (n : ℕ) (buffer : List ℕ) (offset : ℕ) :
    Alike used st (writeLoop n st buffer offset b).1 ∧
      (writeLoop n st buffer offset b).2.copied.map Prod.fst <+: l := by
  have hsame : Alike used st st := ⟨hs, fun _ => rfl, rfl⟩
  induction n generalizing st b l buffer offset with
  | zero =>
    rw [writeLoop]
    exact ⟨hsame, List.nil_prefix⟩
  | succ n ih =>
    rw [writeLoop, writeRound]
    split
    · exact ⟨hsame, List.nil_prefix⟩
    · next hgo =>
      cases l with
      | nil => exact (hgo (.inr hp)).elim
      | cons a l =>
        obtain ⟨rfl, hp⟩ := hp
        have hb := hm b List.mem_cons_self
        have hwrite := alike_write hs hb
          (putBytes offset (buffer.take (min (512 - offset) buffer.length)))
        obtain ⟨st₁, hget, halike⟩ := getNext_spec hwrite.sound hb
        dsimp only
        rw [hget, hwrite.entries]
        have hall := hwrite.trans halike
        obtain ⟨halike', hprefix⟩ := ih hall.sound (hall.path.mpr hp)
          (fun x hx => hm x (List.mem_cons_of_mem b hx)) (buffer.drop (min (512 - offset) buffer.length)) 0
          ⟨hall.sound, fun _ => rfl, rfl⟩
        exact ⟨hall.trans halike', (List.prefix_cons_inj b).mpr hprefix⟩

/-- The block that a position leads to, and what comes from there on. -/
theorem path_getD (h : Holds st used head l) (n : ℕ) :
    Path st (l.getD n blockEndOfChain) (l.drop n) blockEndOfChain ∧ ∀ a ∈ l.drop n, a ∈ used := by
  refine ⟨?_, fun a ha => h.mine a (List.mem_of_mem_drop ha)⟩
  by_cases hn : n ≤ l.length
  · exact path_drop h.path n hn
  · have hle := Nat.le_of_not_le hn
    rw [List.drop_of_length_le hle, List.getD_eq_default _ _ hle]
    exact rfl

/-- The position of the block that was found is right. -/
theorem cacheRight_found (stream : Stream) (l : List ℕ) (n : ℕ) :
    CacheRight { stream with
      lastBlockNoInSequence := n
      lastBlockNoInSequenceIndex := l.getD n blockEndOfChain } l := by
  by_cases hn : n < l.length
  · refine .inr (.inr ?_)
    dsimp only
    rw [List.getD_eq_getElem _ _ hn, List.getElem?_eq_getElem hn]
  · exact .inr (.inl (List.getD_eq_default _ _ (Nat.le_of_not_lt hn)))

/-- What is read are blocks of the chain from the position on; the cache stays right unless the position is
behind the end. -/
theorem readAt_spec (h : Holds s.storage used s.stream.head l) (hc : CacheRight s.stream l)
    (offset size : ℕ) : Alike used s.storage (readAt s offset size).1.storage ∧
      (readAt s offset size).1.stream.head = s.stream.head ∧
      (readAt s offset size).1.stream.tailIndex = s.stream.tailIndex ∧
      (s.stream.lastBlockNoInSequenceIndex = blockEndOfChain ∨ ulong offset / 512 ≤ l.length →
        CacheRight (readAt s offset size).1.stream l) ∧
      (readAt s offset size).2.copied.map Prod.fst <+: l.drop (ulong offset / 512) := by
  obtain ⟨st', hlocate, halike⟩ := locate_spec h hc (ulong offset / 512)
  unfold readAt
  dsimp only
  rw [hlocate]
  dsimp only
  split
  · next hbehind =>
    refine ⟨halike, rfl, rfl, fun hin => ?_, List.nil_prefix⟩
    exact .inr (.inl (hin.resolve_right (by omega)))
  · obtain ⟨hpath, hmine⟩ := path_getD (h.alike halike) (ulong offset / 512)
    obtain ⟨halike', hprefix⟩ := readLoop_spec halike.sound hpath hmine size size (ulong offset % 512)
    exact ⟨halike.trans halike', rfl, rfl, fun _ => cacheRight_found s.stream l _, hprefix⟩

/-- What is written are blocks of the chain from the position on, and the cache is right. -/
theorem writeAt_spec (h : Holds s.storage used s.stream.head l) (hc : CacheRight s.stream l)
    (offset : ℕ) (buffer : List ℕ) : Alike used s.storage (writeAt s offset buffer).1.storage ∧
      (writeAt s offset buffer).1.stream.head = s.stream.head ∧
      (writeAt s offset buffer).1.stream.tailIndex = s.stream.tailIndex ∧
      CacheRight (writeAt s offset buffer).1.stream l ∧
      (writeAt s offset buffer).2.copied.map Prod.fst <+: l.drop (ulong offset / 512) := by
  obtain ⟨st', hlocate, halike⟩ := locate_spec h hc (ulong offset / 512)
  unfold writeAt
  dsimp only
  rw [hlocate]
  dsimp only
  obtain ⟨hpath, hmine⟩ := path_getD (h.alike halike) (ulong offset / 512)
  obtain ⟨halike', hprefix⟩ := writeLoop_spec halike.sound hpath hmine buffer.length buffer
    (ulong offset % 512)
  exact ⟨halike.trans halike', rfl, rfl, cacheRight_found s.stream l _, hprefix⟩

/-! ## Shrinking -/

theorem advance_spec (hs : Sound (st, used)) (hp : Path st b l blockEndOfChain)
    (hm : ∀ a ∈ l, a ∈ used) (n : ℕ) : ∃ st',
      advance st n b = (st', if n ≤ l.length then some (l.getD n blockEndOfChain) else none) ∧
      Alike used st st' := by
  induction n generalizing st b l with
  | zero =>
    refine ⟨st, ?_, hs, fun _ => rfl, rfl⟩
    rw [advance, if_pos (Nat.zero_le _)]
    cases l with
    | nil => rw [show b = blockEndOfChain from hp, List.getD_nil]
    | cons a l => rw [hp.1, List.getD_cons_zero]
  | succ n ih =>
    rw [advance]
    cases l with
    | nil =>
      rw [show b = blockEndOfChain from hp, getNext_end hs,
        if_neg (show ¬n + 1 ≤ ([] : List ℕ).length from Nat.not_succ_le_zero n)]
      exact ⟨st, rfl, hs, fun _ => rfl, rfl⟩
    | cons a l =>
      obtain ⟨rfl, hp⟩ := hp
      obtain ⟨st₁, hget, halike⟩ := getNext_spec hs (hm b List.mem_cons_self)
      obtain ⟨st₂, hadvance, halike'⟩ := ih halike.sound (halike.path.mpr hp)
        fun x hx => hm x (List.mem_cons_of_mem b hx)
      refine ⟨st₂, ?_, halike.trans halike'⟩
      rw [hget]
      dsimp only
      rw [hadvance, List.length_cons, List.getD_cons_succ]
      simp only [Nat.add_le_add_iff_right]

/-- The blocks of a chain become free, and no others change. -/
theorem freeChain_spec (hs : Sound (st, used)) (hp : Path st b l blockEndOfChain) (hnd : l.Nodup)
    (hm : ∀ a ∈ l, a ∈ used) (hn : l.length < n) : ∃ st' used', freeChain n st b = .ok st' ∧
      Sound (st', used') ∧ (∀ a, a ∉ l → entry st' a = entry st a) ∧
      ∀ a ∈ used, a ∉ l → a ∈ used' := by
  induction l generalizing st used b n with
  | nil =>
    cases n with
    | zero => exact absurd hn (Nat.lt_irrefl 0)
    | succ n =>
      rw [freeChain, if_pos (show b = blockEndOfChain from hp)]
      exact ⟨st, used, rfl, hs, fun _ _ => rfl, fun _ h _ => h⟩
  | cons a l ih =>
    obtain ⟨rfl, hp⟩ := hp
    have hb := hm b List.mem_cons_self
    obtain ⟨hfresh, hnd⟩ := List.nodup_cons.mp hnd
    cases n with
    | zero => exact absurd hn (Nat.not_lt_zero _)
    | succ n =>
      obtain ⟨st₁, hget, halike⟩ := getNext_spec hs hb
      obtain ⟨st₂, hfree, hsound, -, hkept⟩ := halike.sound.free hb
      have hne : ∀ x ∈ l, x ≠ b := by
        rintro x hx rfl
        exact hfresh hx
      have hpath : Path st₂ (entry st b) l blockEndOfChain :=
        (path_congr fun x hx => hkept x (hne x hx)).mpr (halike.path.mpr hp)
      obtain ⟨st', used', hrest, hsound', hkept', hstay⟩ := ih hsound hpath hnd
        (fun x hx => (List.mem_erase_of_ne (hne x hx)).mpr (hm x (List.mem_cons_of_mem b hx)))
        (Nat.lt_of_succ_lt_succ hn)
      refine ⟨st', used', ?_, hsound', fun x hx => ?_, fun x hx hout => ?_⟩
      · rw [freeChain, if_neg (ne_end hs hb), hget]
        dsimp only
        rw [hfree]
        exact hrest
      · obtain ⟨hxb, hxl⟩ := not_or.mp fun h => hx (List.mem_cons.mpr h)
        rw [hkept' x hxl, hkept x hxb, halike.entries]
      · obtain ⟨hxb, hxl⟩ := not_or.mp fun h => hout (List.mem_cons.mpr h)
        exact hstay x ((List.mem_erase_of_ne hxb).mpr hx) hxl

/-- A path to a block that ends the chain. -/
theorem holds_concat (hs : Sound (st, used)) (hp : Path st head l b)
    (hend : entry st b = blockEndOfChain) (hnd : l.Nodup) (hfresh : b ∉ l) (hm : ∀ a ∈ l, a ∈ used)
    (hb : b ∈ used) : Holds st used head (l ++ [b]) := by
  refine ⟨hs, path_append.mpr ⟨b, hp, rfl, hend⟩, ?_, fun a ha => ?_⟩
  · rw [← List.concat_eq_append]
    exact List.Nodup.concat hfresh hnd
  · rcases List.mem_append.mp ha with ha | ha
    · exact hm a ha
    · rw [List.mem_singleton.mp ha]
      exact hb

/-- No more blocks are in use than the depot has entries. -/
theorem length_le (h : Holds st used head l) : l.length ≤ st.bigBlockDepotCount * 128 := by
  refine length_le_of_nodup h.nodup fun a ha => ?_
  have hlt : a / 128 < st.bigBlockDepotCount := (h.sound.inside a (h.mine a ha)).1
  omega

/-- A chain that is cut behind one of its blocks. -/
theorem cut_spec (h : Holds st used head (l ++ b :: m)) : ∃ st' st'' used',
    setNextBlockInChain st b blockEndOfChain = .ok st' ∧
    freeChain (st'.bigBlockDepotCount * 128 + 1) st' (entry st b) = .ok st'' ∧
    Holds st'' used' head (l ++ [b]) := by
  have hb := h.mine b (List.mem_append_right l List.mem_cons_self)
  obtain ⟨c, hfront, rfl, hrest⟩ := path_append.mp h.path
  obtain ⟨hndl, hndm, hdisj⟩ := List.nodup_append.mp h.nodup
  obtain ⟨hbm, hndm⟩ := List.nodup_cons.mp hndm
  have hne : ∀ x ∈ m, x ≠ c := by
    rintro x hx rfl
    exact hbm hx
  have hlink := h.sound.link hb (by decide : blockEndOfChain ≠ blockUnused)
  have hlen := length_le h
  rw [List.length_append, List.length_cons] at hlen
  obtain ⟨st'', used', hfree, hsound, hkept, hstay⟩ := freeChain_spec hlink
    ((path_congr fun x hx => entry_marked_of_ne (hne x hx)).mpr hrest) hndm
    (fun x hx => h.mine x (List.mem_append_right l (List.mem_cons_of_mem c hx)))
    (show m.length < st.bigBlockDepotCount * 128 + 1 by omega)
  have hkeep : ∀ x ∈ l, x ∉ m ∧ x ≠ c := fun x hx =>
    ⟨fun hxm => hdisj x hx x (List.mem_cons_of_mem c hxm) rfl, hdisj x hx c List.mem_cons_self⟩
  refine ⟨_, st'', used', h.sound.set hb (ne_end h.sound hb), hfree, holds_concat hsound ?_ ?_ hndl
    (fun hc => (hkeep c hc).2 rfl)
    (fun x hx => hstay x (h.mine x (List.mem_append_left _ hx)) (hkeep x hx).1) (hstay c hb hbm)⟩
  · refine (path_congr fun x hx => ?_).mpr hfront
    rw [hkept x (hkeep x hx).1, entry_marked_of_ne (hkeep x hx).2]
  · rw [hkept c hbm, entry_marked]

theorem shrink_spec (h : Holds s.storage used s.stream.head l)
    (ht : s.stream.tailIndex = l.getLast?.getD blockEndOfChain) (newSize : ℕ) :
    ∃ s', shrink s newSize = .ok s' ∧ Right s' := by
  obtain ⟨st₁, hadvance, halike⟩ := advance_spec h.sound h.path h.mine (blocksFor newSize - 1)
  unfold shrink
  dsimp only
  rw [hadvance]
  by_cases hlt : blocksFor newSize - 1 < l.length
  · rw [if_pos (Nat.le_of_lt hlt)]
    obtain ⟨front, t, rest, rfl, hlen⟩ : ∃ front t rest, l = front ++ t :: rest ∧
        front.length = blocksFor newSize - 1 := by
      refine ⟨l.take (blocksFor newSize - 1), l[blocksFor newSize - 1], l.drop (blocksFor newSize - 1 + 1),
        ?_, List.length_take_of_le (Nat.le_of_lt hlt)⟩
      rw [← List.drop_eq_getElem_cons hlt, List.take_append_drop]
    have hat : (front ++ t :: rest).getD (blocksFor newSize - 1) blockEndOfChain = t := by
      rw [List.getD_eq_getElem?_getD, ← hlen, List.getElem?_append_right (Nat.le_refl _), Nat.sub_self,
        List.getElem?_cons_zero, Option.getD_some]
    obtain ⟨st₂, hget, halike'⟩ := getNext_spec halike.sound
      (h.mine t (List.mem_append_right front List.mem_cons_self))
    have hall := halike.trans halike'
    obtain ⟨st₃, st₄, used', hset, hfree, hholds⟩ := cut_spec (h.alike hall)
    rw [halike'.entries] at hfree
    dsimp only
    rw [hat, hget]
    dsimp only
    rw [hset]
    change ∃ s', (freeChain (st₃.bigBlockDepotCount * 128 + 1) st₃ (entry st₁ t) >>= _) = Except.ok s' ∧ _
    rw [hfree]
    refine ⟨_, rfl, used', front ++ [t], hholds, ?_, .inl rfl⟩
    rw [List.getLast?_concat]
    rfl
  · rw [List.getD_eq_default _ _ (Nat.le_of_not_lt hlt)]
    by_cases hle : blocksFor newSize - 1 ≤ l.length
    · rw [if_pos hle]
      dsimp only
      rw [getNext_end halike.sound]
      exact ⟨_, rfl, used, l, h.alike halike, ht, .inl rfl⟩
    · rw [if_neg hle]
      exact ⟨_, rfl, used, l, h.alike halike, ht, .inl rfl⟩

/-! ## Growing -/

/-- The chain may have got longer, and the stream remembers the same. -/
def Longer (l : List ℕ) (s s' : State) : Prop := ∃ used l', Holds s'.storage used s'.stream.head l' ∧
  s'.stream.tailIndex = l'.getLast?.getD blockEndOfChain ∧ l <+: l' ∧
  s'.stream.lastBlockNoInSequence = s.stream.lastBlockNoInSequence ∧
  s'.stream.lastBlockNoInSequenceIndex = s.stream.lastBlockNoInSequenceIndex

/-- The blocks of a longer chain are where they were. -/
theorem Longer.right (h : Longer l s s') (hc : CacheRight s.stream l) : Right s' := by
  obtain ⟨used, l', hholds, htail, ⟨m, rfl⟩, hno, hindex⟩ := h
  refine ⟨used, l ++ m, hholds, htail, ?_⟩
  unfold CacheRight
  rw [hno, hindex]
  refine hc.imp_right fun hc => hc.imp_right fun hlast => ?_
  obtain ⟨hlt, -⟩ := List.getElem?_eq_some_iff.mp hlast
  rw [List.getElem?_append_left hlt, hlast]

theorem appendBlock_spec (h : Holds st used head l) (hlast : l.getLast? = some b) (hroom : HasRoom st)
    (counted : List ℕ) : ∃ st' c, appendBlock st b counted = .ok (st', c) ∧
      Holds st' (c :: used) head (l ++ [c]) := by
  obtain ⟨front, rfl⟩ := List.getLast?_eq_some_iff.mp hlast
  obtain ⟨st₁, c, hfound, hsound, hc, hfree, hfresh, -, hold, -⟩ := h.sound.found hroom counted
  have hb := h.mine b (List.mem_append_right front (List.mem_singleton_self b))
  have hne : ∀ x ∈ used, x ≠ c := by
    rintro x hx rfl
    exact hfresh hx
  have hlink := hsound.link hb (hsound.blockIndex_ne hc (by decide : blockExtBBDepot ≤ blockUnused))
  have hfree' : entry (marked st₁ b c) c = blockUnused := by
    rw [entry_marked_of_ne (hne b hb).symm, hfree]
  have htake := hlink.take hc hfree' hfresh (by decide : blockEndOfChain ≠ blockUnused)
  have hset := hsound.set hb (hne b hb)
  have hset' := hlink.laid.set (v := blockEndOfChain) hc (hsound.blockIndex_ne hc (by decide))
  obtain ⟨d, hfront, rfl, -⟩ := path_append.mp h.path
  obtain ⟨hndf, -, hdisj⟩ := List.nodup_append.mp h.nodup
  have hkeep : ∀ x ∈ front, entry (marked (marked st₁ d c) c blockEndOfChain) x = entry st x := by
    intro x hx
    have hxu := h.mine x (List.mem_append_left _ hx)
    rw [entry_marked_of_ne (hne x hxu), entry_marked_of_ne (hdisj x hx d (List.mem_singleton_self d)),
      hold x (h.sound.inside x hxu).1]
  refine ⟨_, c, ?_, holds_concat htake ?_ entry_marked h.nodup (fun hc => hfresh (h.mine c hc))
    (fun x hx => List.mem_cons_of_mem c (h.mine x hx)) List.mem_cons_self⟩
  · unfold appendBlock
    rw [hfound]
    change (setNextBlockInChain st₁ d c >>= _) = _
    rw [hset]
    change (setNextBlockInChain (marked st₁ d c) c blockEndOfChain >>= _) = _
    rw [hset']
    rfl
  · refine path_append.mpr ⟨d, (path_congr hkeep).mpr hfront, rfl, ?_⟩
    change entry (marked (marked st₁ d c) c blockEndOfChain) d = c
    rw [entry_marked_of_ne (hne d hb), entry_marked]

theorem appendBlocks_spec (h : Holds st used head l) (hlast : l.getLast? = some b)
    (hroom : HasRoomFor counted n st b) : ∃ st' c used' l', appendBlocks counted n st b = .ok (st', c) ∧
      Holds st' used' head l' ∧ l'.getLast? = some c ∧ l <+: l' := by
  induction n generalizing st used l b with
  | zero => exact ⟨st, b, used, l, rfl, h, hlast, List.prefix_rfl⟩
  | succ n ih =>
    obtain ⟨hfirst, hroom⟩ := hroom
    obtain ⟨st₁, c, hadd, hholds⟩ := appendBlock_spec h hlast hfirst (counted n)
    obtain ⟨st', d, used', l', hrest, hholds', hlast', hprefix⟩ :=
      ih hholds List.getLast?_concat (hroom (st₁, c) hadd)
    refine ⟨st', d, used', l', ?_, hholds', hlast', (List.prefix_append l [c]).trans hprefix⟩
    rw [appendBlocks, hadd]
    exact hrest

theorem growTail_spec (h : Holds s.storage used s.stream.head l) (hlast : l.getLast? = some b)
    (ht : s.stream.tailIndex = b)
    (hroom : HasRoomFor counted (n - s.stream.numBlocks) s.storage s.stream.tailIndex) :
    ∃ s', growTail s n counted = .ok s' ∧ Longer l s s' := by
  subst ht
  unfold growTail
  split
  · obtain ⟨st', c, used', l', hadd, hholds, hlast', hprefix⟩ := appendBlocks_spec h hlast hroom
    rw [hadd]
    refine ⟨_, rfl, used', l', hholds, ?_, hprefix, rfl, rfl⟩
    rw [hlast']
    rfl
  · refine ⟨s, rfl, used, l, h, ?_, List.prefix_rfl, rfl, rfl⟩
    rw [hlast, Option.getD_some]

theorem createHead_spec (h : Holds s.storage used s.stream.head l)
    (ht : s.stream.tailIndex = l.getLast?.getD blockEndOfChain)
    (hroom : s.stream.head = blockEndOfChain → HasRoom s.storage) (counted : List ℕ) :
    ∃ s' used' l' b, createHead s counted = .ok s' ∧ Holds s'.storage used' s'.stream.head l' ∧
      l'.getLast? = some b ∧ s'.stream.tailIndex = b ∧ l <+: l' ∧
      s'.stream.lastBlockNoInSequence = s.stream.lastBlockNoInSequence ∧
      s'.stream.lastBlockNoInSequenceIndex = s.stream.lastBlockNoInSequenceIndex := by
  unfold createHead
  split
  · next hempty =>
    cases l with
    | cons a l =>
      obtain ⟨hhead, -⟩ := h.path
      exact absurd (hhead.symm.trans hempty) (ne_end h.sound (h.mine a List.mem_cons_self))
    | nil =>
      obtain ⟨st', c, hfound, hsound, hc, hfree, hfresh, -⟩ := h.sound.found (hroom hempty) counted
      have hset := hsound.laid.set (v := blockEndOfChain) hc (hsound.blockIndex_ne hc (by decide))
      rw [hfound]
      change ∃ s' used' l' b, (setNextBlockInChain st' c blockEndOfChain >>= _) = _ ∧ _
      rw [hset]
      refine ⟨_, c :: used, [c], c, rfl, holds_concat (l := []) ?_ rfl entry_marked List.nodup_nil
        List.not_mem_nil (fun x hx => absurd hx List.not_mem_nil) List.mem_cons_self,
        rfl, rfl, List.nil_prefix, rfl, rfl⟩
      exact hsound.take hc hfree hfresh (by decide)
  · next hne =>
    cases hlast : l.getLast? with
    | none =>
      rw [List.getLast?_eq_none_iff.mp hlast] at h
      exact absurd h.path hne
    | some b =>
      rw [hlast] at ht
      exact ⟨s, used, l, b, rfl, h, hlast, ht, List.prefix_rfl, rfl, rfl⟩

theorem enlarge_spec (h : Holds s.storage used s.stream.head l)
    (ht : s.stream.tailIndex = l.getLast?.getD blockEndOfChain) (newSize : ℕ)
    (hempty : s.stream.head = blockEndOfChain → HasRoom s.storage)
    (hroom : ∀ s', createHead s (counted (blocksFor newSize)) = .ok s' →
      HasRoomFor counted (blocksFor newSize - s'.stream.numBlocks) s'.storage s'.stream.tailIndex) :
    ∃ s', enlarge s newSize counted = .ok s' ∧ Longer l s s' := by
  obtain ⟨s₁, used₁, l₁, b, hhead, hholds, hlast, htail, hprefix, hno, hindex⟩ :=
    createHead_spec h ht hempty (counted (blocksFor newSize))
  obtain ⟨s', hgrow, used', l', hholds', htail', hprefix', hno', hindex'⟩ :=
    growTail_spec hholds hlast htail (hroom s₁ hhead)
  have hne : s₁.stream.tailIndex ≠ blockEndOfChain := by
    rw [htail]
    exact ne_end hholds.sound (hholds.mine b (List.mem_of_getLast? hlast))
  refine ⟨s', ?_, used', l', hholds', htail', hprefix.trans hprefix', hno'.trans hno, hindex'.trans hindex⟩
  unfold enlarge
  rw [hhead]
  change (if s₁.stream.tailIndex = blockEndOfChain then _ else growTail s₁ (blocksFor newSize) counted) = _
  rw [if_neg hne, hgrow]

/-! ## Runs -/

/-- Each call keeps the cache right. -/
theorem step_spec (h : Right s) (hm : Meets s call) : ∃ s', step s call = .ok s' ∧ Right s' := by
  obtain ⟨used, l, hholds, htail, hcache⟩ := h
  cases call with
  | readAt offset size =>
    obtain ⟨halike, hhead, htail', hright, -⟩ := readAt_spec hholds hcache offset size
    refine ⟨_, rfl, used, l, ?_, htail'.trans htail, hright (hm.imp_right ?_)⟩
    · rw [hhead]
      exact hholds.alike halike
    · rintro ⟨m, hpath, hend, hle⟩
      have hlm : l = m := path_unique (fun a ha => ne_end hholds.sound (hholds.mine a ha))
        (fun a ha heq => hend (heq ▸ ha)) hholds.path hpath
      rwa [hlm]
  | writeAt offset buffer =>
    obtain ⟨halike, hhead, htail', hright, -⟩ := writeAt_spec hholds hcache offset buffer
    refine ⟨_, rfl, used, l, ?_, htail'.trans htail, hright⟩
    rw [hhead]
    exact hholds.alike halike
  | setSize size newSize counted =>
    change ∃ s', setSize s size newSize counted = .ok s' ∧ _
    unfold setSize
    split
    · exact ⟨s, rfl, used, l, hholds, htail, hcache⟩
    · next hne =>
      split
      · exact shrink_spec hholds htail newSize
      · next hge =>
        obtain ⟨hempty, hroom⟩ := hm (Nat.lt_of_le_of_ne (Nat.le_of_not_lt hge) (Ne.symm hne))
        obtain ⟨s', henlarge, hlonger⟩ := enlarge_spec hholds htail newSize hempty hroom
        exact ⟨s', henlarge, hlonger.right hcache⟩

/-- The root chain of a new storage, which has one block. -/
def rootChain : State := ⟨createStorage fun _ _ => 0, ⟨1, noSequence, blockEndOfChain, 1, 1⟩⟩

theorem right_rootChain : Right rootChain := by
  refine ⟨[1], [1], ⟨Sound.created _, ⟨rfl, ?_⟩, List.nodup_singleton 1, fun a ha => ha⟩, rfl, .inl rfl⟩
  change entry (createStorage fun _ _ => 0) 1 = blockEndOfChain
  decide

theorem meets_rootChain : Meets rootChain (.readAt 0 4) := .inl rfl

end Wine.Ole32.BlockChain
