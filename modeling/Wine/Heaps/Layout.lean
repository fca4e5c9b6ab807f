import Wine.Heaps.Arenas

/-!
# The arenas of a sub-heap

A sub-heap is described by the list of its pieces. Besides free and in-use blocks there are gaps:
parts that an operation has in its hands and of whose headers nothing is known. `Layout` says that
the headers in the memory are those of the pieces, with the flags and the back pointers that the
pieces before them ask for.
-/

namespace Wine.Heaps
open Wine.Lib Reading

variable {m m' : Memory} {a b n v : ℕ}

theorem word_congr (h : ∀ i, a ≤ i → i < a + 4 → m i = m' i) : word m a = word m' a :=
  load_congr h

theorem word_setWord (hv : v < sizeLimit) : word (setWord m a v) a = v := by
  rw [word, setWord, load_store]
  exact Nat.mod_eq_of_lt hv

theorem setWord_of_not_mem {i : ℕ} (h : i < a ∨ a + 4 ≤ i) : setWord m a v i = m i := by
  apply store_of_not_mem
  rwa [length_littleEndian]

theorem word_setWord_of_disjoint (h : b + 4 ≤ a ∨ a + 4 ≤ b) :
    word (setWord m a v) b = word m b :=
  word_congr fun _ _ _ => setWord_of_not_mem (by omega)

theorem word_lt : word m a < sizeLimit := load_lt

/-- A block of a sub-heap with the number of its bytes, its header included. -/
inductive Piece where
  | free (total : ℕ)
  | used (total : ℕ)
  | gap (total : ℕ)
  deriving DecidableEq, Repr

/-- What is known of the piece before an address. -/
inductive Before where
  | free (p : ℕ)
  | used
  | gap
  deriving DecidableEq, Repr

namespace Piece

def total : Piece → ℕ
  | free n => n
  | used n => n
  | gap n => n

/-- What the piece at `a` is to the one behind it. -/
def before (a : ℕ) : Piece → Before
  | free _ => .free a
  | used _ => .used
  | gap _ => .gap

end Piece

open Piece

/-- The flag of the arena at `a` says whether the block before it is free, and then the word before
the arena is the address of this block. -/
def Flagged (m : Memory) (a : ℕ) : Before → Prop
  | .free p => IsPrevFree (word m a) ∧ word m (a - 4) = p
  | .used => ¬ IsPrevFree (word m a)
  | .gap => True

structure UsedAt (m : Memory) (before : Before) (a n : ℕ) : Prop where
  aligned : n % 8 = 0
  le : 24 ≤ n
  magic : load m (a + 4) 3 = arenaInuseMagic
  inuse : ¬ IsFree (word m a)
  size : sizeOf (word m a) = n - 8
  flagged : Flagged m a before

structure FreeAt (m : Memory) (before : Before) (a n : ℕ) : Prop where
  aligned : n % 8 = 0
  le : 24 ≤ n
  magic : word m (a + 4) = arenaFreeMagic
  word : word m a = n - 16 + 1
  merged : ∀ p, before ≠ .free p

def PieceAt (m : Memory) (before : Before) (a : ℕ) : Piece → Prop
  | .free n => FreeAt m before a n
  | .used n => UsedAt m before a n
  | .gap n => n % 8 = 0

def Layout (m : Memory) : Before → ℕ → List Piece → Prop
  | _, _, [] => True
  | before, a, c :: cs => PieceAt m before a c ∧ Layout m (c.before a) (a + c.total) cs

def totalOf : List Piece → ℕ
  | [] => 0
  | c :: cs => c.total + totalOf cs

def lastBefore : Before → ℕ → List Piece → Before
  | before, _, [] => before
  | _, a, c :: cs => lastBefore (c.before a) (a + c.total) cs

/-- The free blocks with their addresses. -/
def freesOf : ℕ → List Piece → List (ℕ × ℕ)
  | _, [] => []
  | a, .free n :: cs => (a, n) :: freesOf (a + n) cs
  | a, .used n :: cs => freesOf (a + n) cs
  | a, .gap n :: cs => freesOf (a + n) cs

/-- The in-use blocks with their addresses. -/
def usedOf : ℕ → List Piece → List (ℕ × ℕ)
  | _, [] => []
  | a, .free n :: cs => usedOf (a + n) cs
  | a, .used n :: cs => (a, n) :: usedOf (a + n) cs
  | a, .gap n :: cs => usedOf (a + n) cs

variable {c : Piece} {cs xs ys : List Piece} {before : Before} {p : ℕ}

@[simp] theorem totalOf_nil : totalOf [] = 0 := rfl

@[simp] theorem totalOf_cons : totalOf (c :: cs) = c.total + totalOf cs := rfl

@[simp] theorem totalOf_append : totalOf (xs ++ ys) = totalOf xs + totalOf ys := by
  induction xs with
  | nil => simp
  | cons c xs ih => rw [List.cons_append, totalOf_cons, totalOf_cons, ih, Nat.add_assoc]

theorem freesOf_append : freesOf a (xs ++ ys) = freesOf a xs ++ freesOf (a + totalOf xs) ys := by
  induction xs generalizing a with
  | nil => rfl
  | cons c xs ih =>
    cases c <;> simp [freesOf, ih, total, Nat.add_assoc]

theorem usedOf_append : usedOf a (xs ++ ys) = usedOf a xs ++ usedOf (a + totalOf xs) ys := by
  induction xs generalizing a with
  | nil => rfl
  | cons c xs ih =>
    cases c <;> simp [usedOf, ih, total, Nat.add_assoc]

/-- A free block is a piece of the list. -/
theorem split_of_mem_freesOf (h : (p, n) ∈ freesOf a cs) :
    ∃ xs ys, cs = xs ++ .free n :: ys ∧ p = a + totalOf xs := by
  induction cs generalizing a with
  | nil => cases h
  | cons c cs ih =>
    have hrest : (p, n) ∈ freesOf (a + c.total) cs →
        ∃ xs ys, c :: cs = xs ++ .free n :: ys ∧ p = a + totalOf xs := by
      intro h
      obtain ⟨xs, ys, rfl, rfl⟩ := ih h
      exact ⟨c :: xs, ys, rfl, by rw [totalOf_cons, Nat.add_assoc]⟩
    cases c with
    | free k =>
      rcases List.mem_cons.mp h with heq | h
      · obtain ⟨rfl, rfl⟩ := Prod.mk.inj heq
        exact ⟨[], cs, rfl, rfl⟩
      · exact hrest h
    | used k => exact hrest h
    | gap k => exact hrest h

theorem split_of_mem_usedOf (h : (p, n) ∈ usedOf a cs) :
    ∃ xs ys, cs = xs ++ .used n :: ys ∧ p = a + totalOf xs := by
  induction cs generalizing a with
  | nil => cases h
  | cons c cs ih =>
    have hrest : (p, n) ∈ usedOf (a + c.total) cs →
        ∃ xs ys, c :: cs = xs ++ .used n :: ys ∧ p = a + totalOf xs := by
      intro h
      obtain ⟨xs, ys, rfl, rfl⟩ := ih h
      exact ⟨c :: xs, ys, rfl, by rw [totalOf_cons, Nat.add_assoc]⟩
    cases c with
    | used k =>
      rcases List.mem_cons.mp h with heq | h
      · obtain ⟨rfl, rfl⟩ := Prod.mk.inj heq
        exact ⟨[], cs, rfl, rfl⟩
      · exact hrest h
    | free k => exact hrest h
    | gap k => exact hrest h

theorem freesOf_bounds (h : (p, n) ∈ freesOf a cs) : a ≤ p ∧ p + n ≤ a + totalOf cs := by
  obtain ⟨xs, ys, rfl, rfl⟩ := split_of_mem_freesOf h
  rw [totalOf_append, totalOf_cons, total]
  omega

theorem usedOf_bounds (h : (p, n) ∈ usedOf a cs) : a ≤ p ∧ p + n ≤ a + totalOf cs := by
  obtain ⟨xs, ys, rfl, rfl⟩ := split_of_mem_usedOf h
  rw [totalOf_append, totalOf_cons, total]
  omega

theorem lastBefore_append :
    lastBefore before a (xs ++ [c]) = c.before (a + totalOf xs) := by
  induction xs generalizing before a with
  | nil => rfl
  | cons d xs ih => rw [List.cons_append, lastBefore, ih, totalOf_cons, Nat.add_assoc]

/-- The flag and the back pointer are as they were. -/
theorem Flagged.congr (h : Flagged m a before)
    (hprev : IsPrevFree (word m' a) ↔ IsPrevFree (word m a))
    (hback : ∀ p, before = .free p → word m' (a - 4) = word m (a - 4)) : Flagged m' a before := by
  cases before with
  | free p => exact ⟨hprev.mpr h.1, (hback p rfl).trans h.2⟩
  | used => exact fun hset => h (hprev.mp hset)
  | gap => trivial

namespace Layout

theorem append_iff : Layout m before a (xs ++ ys) ↔
    Layout m before a xs ∧ Layout m (lastBefore before a xs) (a + totalOf xs) ys := by
  induction xs generalizing before a with
  | nil => simp [Layout, lastBefore]
  | cons c xs ih => simp [Layout, lastBefore, ih, and_assoc, Nat.add_assoc]

/-- Only the headers and the back pointers behind free blocks are read. -/
theorem congr (h : Layout m before a cs) (hm : ∀ i, a ≤ i → i < a + totalOf cs → m' i = m i)
    (hback : ∀ p, before = .free p → word m' (a - 4) = word m (a - 4)) :
    Layout m' before a cs := by
  induction cs generalizing before a with
  | nil => trivial
  | cons c cs ih =>
    obtain ⟨hc, hcs⟩ := h
    rw [totalOf_cons] at hm
    have hword : ∀ b, a ≤ b → b + 4 ≤ a + (c.total + totalOf cs) → word m' b = word m b :=
      fun b hb hb' => word_congr fun i hi hi' => hm i (by omega) (by omega)
    refine ⟨?_, ih hcs (fun i hi hi' => hm i (by omega) (by omega)) ?_⟩
    · cases c with
      | free n =>
        simp only [total] at hword
        have hle := hc.le
        exact ⟨hc.aligned, hc.le, by rw [hword _ (by omega) (by omega), hc.magic],
          by rw [hword _ (by omega) (by omega), hc.word], hc.merged⟩
      | used n =>
        simp only [total] at hword hm
        have hle := hc.le
        have ha := hword a (by omega) (by omega)
        refine ⟨hc.aligned, hc.le, ?_, by rw [ha]; exact hc.inuse, by rw [ha, hc.size], ?_⟩
        · rw [load_congr fun i hi hi' => hm i (by omega) (by omega), hc.magic]
        · exact hc.flagged.congr (by rw [ha]) hback
      | gap n => exact hc
    · intro p hp
      cases c with
      | free n =>
        have hle := hc.le
        simp only [total] at hword ⊢
        exact hword _ (by omega) (by omega)
      | used n => cases hp
      | gap n => cases hp

/-- Behind a gap nothing is asked of the flags. -/
theorem behind_gap (h : Layout m before a cs) : Layout m .gap a cs := by
  cases cs with
  | nil => trivial
  | cons c cs =>
    refine ⟨?_, h.2⟩
    have hc := h.1
    cases c with
    | free n => exact ⟨hc.aligned, hc.le, hc.magic, hc.word, fun p hp => by cases hp⟩
    | used n => exact ⟨hc.aligned, hc.le, hc.magic, hc.inuse, hc.size, trivial⟩
    | gap n => exact hc

end Layout

end Wine.Heaps

/-!
## Consistent heaps

`Arranged` and `Tiled` put the pieces of all sub-heaps beside the memory and the free list: the
sub-heaps are apart, the pieces of each fill it, and the list holds the eleven heads and every free
block once, in the order of their classes. A heap is consistent when there are such pieces and none
of them is a gap.
-/

namespace Wine.Heaps
open Wine.Lib Reading

abbrev Tile := SubHeap × List Piece

structure SubHeap.WellFormed (s : SubHeap) : Prop where
  base_aligned : s.base % 8 = 0
  base_ge : 0x10000 ≤ s.base
  size_aligned : s.size % 0x10000 = 0
  limit_lt : s.limit < sizeLimit
  commit_le : s.commitSize ≤ s.size

namespace Heap

variable (h : Heap)

def heads : List ℕ := (List.range heapNbFreeLists).map h.freeListHead

/-- The order of the free list: each head, and behind it the blocks of its class. -/
def nodeKey (p : ℕ) : ℕ :=
  if h.freeListHead 0 ≤ p ∧ p < h.freeListHead heapNbFreeLists then
    2 * ((p - h.freeListHead 0) / arenaFreeSize)
  else 2 * getFreelistIndex (sizeOf (word h.mem p) + arenaFreeSize) + 1

end Heap

/-- The addresses of all free blocks. -/
def freesIn (ts : List Tile) : List ℕ :=
  ts.flatMap fun t => (freesOf t.1.first t.2).map Prod.fst

structure TileAt (m : Memory) (t : Tile) : Prop where
  wellFormed : t.1.WellFormed
  layout : Layout m .used t.1.first t.2
  filled : t.1.first + totalOf t.2 = t.1.limit

/-- The sub-heaps are apart, the first one holds the heads, and each is filled by its pieces. -/
structure Arranged (h : Heap) (ts : List Tile) : Prop where
  subheaps : h.subheaps = ts.map Prod.fst
  primary : ∃ t ts', ts = t :: ts' ∧ t.1.base = h.address ∧ t.1.headerSize = heapSize ∧
    ∀ t' ∈ ts', t'.1.headerSize = subheapSize
  apart : ts.Pairwise fun t t' => t.1.limit ≤ t'.1.base ∨ t'.1.limit ≤ t.1.base
  tile : ∀ t ∈ ts, TileAt h.mem t
  heads : ∀ i < heapNbFreeLists, word h.mem (h.freeListHead i) = 1
  magic : ∀ i < heapNbFreeLists, word h.mem (h.freeListHead i + 4) = arenaFreeMagic

structure Tiled (h : Heap) (ts : List Tile) : Prop extends Arranged h ts where
  listed : h.freeList.Perm (h.heads ++ freesIn ts)
  ordered : Ordered h.nodeKey h.freeList

/-- No piece is a gap. -/
def Whole (cs : List Piece) : Prop := ∀ n, Piece.gap n ∉ cs

/-- The arenas tile the sub-heaps, every free arena is listed once in its class, and flags and back
pointers agree. -/
def Consistent (h : Heap) : Prop :=
  ∃ ts, Tiled h ts ∧ ∀ t ∈ ts, Whole t.2

/-- A free block of the tiles. -/
def FreeIn (ts : List Tile) (p n : ℕ) : Prop := ∃ t ∈ ts, (p, n) ∈ freesOf t.1.first t.2

/-- An in-use block of the tiles. -/
def UsedIn (ts : List Tile) (p n : ℕ) : Prop := ∃ t ∈ ts, (p, n) ∈ usedOf t.1.first t.2

variable {m : Memory} {before : Before} {h : Heap} {ts : List Tile} {t : Tile} {s : SubHeap}
  {cs : List Piece} {a p n size : ℕ}

theorem Layout.freeAt (h : Layout m before a cs) (hp : (p, n) ∈ freesOf a cs) :
    ∃ before, FreeAt m before p n := by
  obtain ⟨xs, ys, rfl, rfl⟩ := split_of_mem_freesOf hp
  exact ⟨_, (append_iff.mp h).2.1⟩

theorem mem_freesIn : p ∈ freesIn ts ↔ ∃ n, FreeIn ts p n := by
  constructor
  · intro hp
    obtain ⟨t, ht, hp⟩ := List.mem_flatMap.mp hp
    obtain ⟨⟨q, n⟩, hn, rfl⟩ := List.mem_map.mp hp
    exact ⟨n, t, ht, hn⟩
  · rintro ⟨n, t, ht, hn⟩
    exact List.mem_flatMap.mpr ⟨t, ht, List.mem_map.mpr ⟨(p, n), hn, rfl⟩⟩

theorem Heap.mem_heads : p ∈ h.heads ↔ ∃ i < heapNbFreeLists, h.freeListHead i = p := by
  simp [Heap.heads]

theorem Heap.nodeKey_head {i : ℕ} (hi : i < heapNbFreeLists) :
    h.nodeKey (h.freeListHead i) = 2 * i := by
  have h11 : heapNbFreeLists = 11 := rfl
  rw [nodeKey, if_pos]
  · simp only [freeListHead, arenaFreeSize]
    omega
  · simp only [freeListHead, arenaFreeSize]
    omega

theorem getFreelistIndex_lt (size : ℕ) : getFreelistIndex size < heapNbFreeLists := by
  have hle : getFreelistIndex size ≤ (heapFreeListSizes.take (heapNbFreeLists - 1)).length :=
    List.findIdx_le_length
  have hlen : (heapFreeListSizes.take (heapNbFreeLists - 1)).length = 10 := rfl
  rw [hlen] at hle
  exact Nat.lt_succ_of_le hle

/-- A larger block is in no earlier class. -/
theorem getFreelistIndex_mono {x y : ℕ} (hx : 16 ≤ x) (hxy : x ≤ y) (hy : y < sizeLimit) :
    getFreelistIndex x ≤ getFreelistIndex y := by
  apply List.findIdx_le_findIdx
  intro n _ hn
  have hn' := of_decide_eq_true hn
  apply decide_eq_true
  simp only [sizeLimit, arenaFreeSize] at hy hn' ⊢
  omega

theorem sizeOf_one : sizeOf 1 = 0 := rfl

namespace Arranged

theorem subheap_mem (H : Arranged h ts) (ht : t ∈ ts) : t.1 ∈ h.subheaps := by
  rw [H.subheaps]
  exact List.mem_map_of_mem ht

/-- A header is that of the primary sub-heap or that of a secondary one. -/
theorem header (H : Arranged h ts) (ht : t ∈ ts) :
    t.1.base = h.address ∧ t.1.headerSize = heapSize ∨
      t.1.headerSize = subheapSize ∧ (t.1.limit ≤ h.address ∨ h.address + heapSize ≤ t.1.base) := by
  obtain ⟨t₀, ts', rfl, hbase, hheader, hts⟩ := H.primary
  rcases List.mem_cons.mp ht with rfl | ht
  · exact Or.inl ⟨hbase, hheader⟩
  · have hfilled := (H.tile t₀ List.mem_cons_self).filled
    have hapart := (List.pairwise_cons.mp H.apart).1 t ht
    rw [SubHeap.first, hbase, hheader] at hfilled
    rw [hbase] at hapart
    refine Or.inr ⟨hts t ht, ?_⟩
    omega

/-- The heads lie outside the arenas. -/
theorem head_outside (H : Arranged h ts) (ht : t ∈ ts) {i : ℕ} (hi : i < heapNbFreeLists) :
    h.freeListHead i + arenaFreeSize ≤ t.1.first ∨ t.1.limit ≤ h.freeListHead i := by
  have h11 : heapNbFreeLists = 11 := rfl
  have hsize : heapSize = 240 := rfl
  have hoff : freeListOffset = 56 := rfl
  simp only [Heap.freeListHead, SubHeap.first, arenaFreeSize]
  rcases H.header ht with ⟨hbase, hheader⟩ | ⟨-, hlow | hhigh⟩ <;> omega

theorem free_bounds (H : Arranged h ts) (ht : t ∈ ts) (hp : (p, n) ∈ freesOf t.1.first t.2) :
    t.1.first ≤ p ∧ p + n ≤ t.1.limit := by
  rw [← (H.tile t ht).filled]
  exact freesOf_bounds hp

theorem used_bounds (H : Arranged h ts) (ht : t ∈ ts) (hp : (p, n) ∈ usedOf t.1.first t.2) :
    t.1.first ≤ p ∧ p + n ≤ t.1.limit := by
  rw [← (H.tile t ht).filled]
  exact usedOf_bounds hp

theorem freeAt (H : Arranged h ts) (hp : FreeIn ts p n) : ∃ before, FreeAt h.mem before p n := by
  obtain ⟨t, ht, hp⟩ := hp
  exact (H.tile t ht).layout.freeAt hp

theorem sizeOf_free (H : Arranged h ts) (hp : FreeIn ts p n) : sizeOf (word h.mem p) = n - 16 := by
  obtain ⟨before, hfree⟩ := H.freeAt hp
  have hle := hfree.le
  have halign := hfree.aligned
  rw [hfree.word, sizeOf]
  omega

theorem nodeKey_free (H : Arranged h ts) (hp : FreeIn ts p n) :
    h.nodeKey p = 2 * getFreelistIndex n + 1 := by
  obtain ⟨t, ht, hmem⟩ := hp
  have hb := H.free_bounds ht hmem
  obtain ⟨before, hfree⟩ := H.freeAt ⟨t, ht, hmem⟩
  have hle := hfree.le
  have h11 : heapNbFreeLists = 11 := rfl
  have h0 := H.head_outside ht (show 0 < heapNbFreeLists by decide)
  have h10 := H.head_outside ht (show 10 < heapNbFreeLists by decide)
  have hhead := H.header ht
  have hsize : heapSize = 240 := rfl
  have hoff : freeListOffset = 56 := rfl
  have hfs : arenaFreeSize = 16 := rfl
  rw [Heap.nodeKey, if_neg, H.sizeOf_free ⟨t, ht, hmem⟩]
  · rw [hfs, Nat.sub_add_cancel (by omega)]
  · simp only [Heap.freeListHead, SubHeap.first, arenaFreeSize, h11, hoff, hsize] at *
    omega

/-- The sub-heap of an address is found. -/
theorem findSubHeap (H : Arranged h ts) (ht : t ∈ ts) (hlow : t.1.base ≤ p) (hhigh : p < t.1.limit) :
    h.findSubHeap p = some t.1 := by
  rw [Heap.findSubHeap, H.subheaps]
  have hapart := H.apart
  clear H
  induction ts with
  | nil => cases ht
  | cons t' ts ih =>
    obtain ⟨hhead, htail⟩ := List.pairwise_cons.mp hapart
    rw [List.map_cons]
    rcases List.mem_cons.mp ht with rfl | ht
    · exact List.find?_cons_of_pos (by simpa using ⟨hlow, hhigh⟩)
    · rw [List.find?_cons_of_neg]
      · exact ih ht htail
      · have h := hhead t ht
        simp only [decide_eq_true_eq]
        omega

end Arranged

namespace Tiled

theorem mem_freeList (H : Tiled h ts) : p ∈ h.freeList ↔ p ∈ h.heads ∨ ∃ n, FreeIn ts p n := by
  rw [H.listed.mem_iff, List.mem_append, mem_freesIn]

theorem head_mem (H : Tiled h ts) {i : ℕ} (hi : i < heapNbFreeLists) :
    h.freeListHead i ∈ h.freeList :=
  H.mem_freeList.mpr (.inl (Heap.mem_heads.mpr ⟨i, hi, rfl⟩))

end Tiled

end Wine.Heaps
