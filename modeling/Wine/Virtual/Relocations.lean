import Mathlib.Algebra.Group.Nat.Defs
import Mathlib.Data.List.Basic

/-!
# Relocating an image

`do_relocations` goes through the blocks of the relocation directory and adds the distance to what their
entries point at. Addresses have 32 bits, and pointer arithmetic wraps around. The blocks lie in the memory
that is changed, and what the loops look at is read each time.
-/

namespace Wine.Virtual

abbrev Address := BitVec 32

abbrev Image := Address → BitVec 8

/-- The arguments of `do_relocations`: `dir` points to the directory entry. -/
structure Relocation where
  base : Address
  dir : Address
  delta : BitVec 32
  totalSize : BitVec 32

/-- Where memory is read or written; reading the directory entry is not recorded. -/
structure Access where
  address : Address
  width : ℕ
  write : Bool
  deriving DecidableEq

def readWord (m : Image) (a : Address) : BitVec 16 := m (a + 1) ++ m a

def readDWord (m : Image) (a : Address) : BitVec 32 := readWord m (a + 2) ++ readWord m a

def writeWord (m : Image) (a : Address) (v : BitVec 16) : Image := fun b =>
  if b = a then v.setWidth 8 else if b = a + 1 then (v >>> 8).setWidth 8 else m b

def writeDWord (m : Image) (a : Address) (v : BitVec 32) : Image :=
  writeWord (writeWord m a (v.setWidth 16)) (a + 2) ((v >>> 16).setWidth 16)

/-! ## The code -/

def imageRelBasedHigh : BitVec 16 := 1
def imageRelBasedLow : BitVec 16 := 2
def imageRelBasedHighlow : BitVec 16 := 3

/-- The loop has come to a block or to an entry of a block, or it has returned. -/
inductive RelocState
  | block (m : Image) (rel : Address)
  | entry (m : Image) (rel page : Address) (i count : ℕ)
  | done (ret : Bool)

namespace Relocation

variable (r : Relocation)

/-- `base + dir->VirtualAddress` -/
def dirStart (m : Image) : Address := r.base + readDWord m r.dir

/-- `base + dir->VirtualAddress + dir->Size` -/
def dirEnd (m : Image) : Address := r.dirStart m + readDWord m (r.dir + 4)

/-- `rel->SizeOfBlock` -/
def sizeOfBlock (m : Image) (rel : Address) : BitVec 32 := readDWord m (rel + 4)

/-- `base + rel->VirtualAddress` -/
def page (m : Image) (rel : Address) : Address := r.base + readDWord m rel

/-- `(rel->SizeOfBlock - sizeof(*rel)) / sizeof(*TypeOffset)` -/
def entryCount (m : Image) (rel : Address) : ℕ := ((sizeOfBlock m rel - 8) / 2).toNat

/-- `&TypeOffset[i]` -/
def entryAddress (rel : Address) (i : ℕ) : Address := rel + 8 + BitVec.ofNat 32 (2 * i)

/-- The width of what an entry of this type changes. -/
def fixupWidth (type : BitVec 16) : ℕ :=
  if type = imageRelBasedHigh ∨ type = imageRelBasedLow then 2
  else if type = imageRelBasedHighlow then 4
  else 0

/-- The `switch` over the type of an entry. -/
def fixup (m : Image) (target : Address) (type : BitVec 16) : Image :=
  if type = imageRelBasedHigh then
    writeWord m target (readWord m target + (r.delta >>> 16).setWidth 16)
  else if type = imageRelBasedLow then writeWord m target (readWord m target + r.delta.setWidth 16)
  else if type = imageRelBasedHighlow then writeDWord m target (readDWord m target + r.delta)
  else m

/-- What is read and written there. -/
def fixupAccesses (target : Address) (type : BitVec 16) : List Access :=
  if fixupWidth type = 0 then []
  else [⟨target, fixupWidth type, false⟩, ⟨target, fixupWidth type, true⟩]

/-- One block, up to its entries. -/
def stepBlock (m : Image) (rel : Address) : RelocState × List Access :=
  if ¬rel < r.dirEnd m then (.done true, [])
  else if sizeOfBlock m rel = 0 then (.done true, [⟨rel + 4, 4, false⟩])
  else
    (if entryCount m rel = 0 then .block m (rel + sizeOfBlock m rel)
      else if r.dirEnd m < rel + sizeOfBlock m rel then .done false
      else if r.base + r.totalSize < r.page m rel then .block m (rel + sizeOfBlock m rel)
      else .entry m rel (r.page m rel) 0 (entryCount m rel),
    [⟨rel + 4, 4, false⟩, ⟨rel, 4, false⟩])

/-- One entry, or the step to the next block behind the last one. -/
def stepEntry (m : Image) (rel page : Address) (i count : ℕ) : RelocState × List Access :=
  if i < count then
    let typeOffset := readWord m (entryAddress rel i)
    let target := page + (typeOffset &&& 0xfff).setWidth 32
    let type := typeOffset >>> 12
    (.entry (r.fixup m target type) rel page (i + 1) count,
      ⟨entryAddress rel i, 2, false⟩ :: fixupAccesses target type)
  else (.block m (rel + sizeOfBlock m rel), [⟨rel + 4, 4, false⟩])

def step : RelocState → RelocState × List Access
  | .block m rel => r.stepBlock m rel
  | .entry m rel page i count => r.stepEntry m rel page i count
  | .done ret => (.done ret, [])

/-- The state in which `do_relocations` starts. -/
def start (m : Image) : RelocState := .block m (r.dirStart m)

/-- The states that a call goes through. -/
inductive Reached (m : Image) : RelocState → Prop
  | start : Reached m (r.start m)
  | step {s : RelocState} (h : Reached m s) : Reached m (r.step s).1

/-- The call returns from here. -/
inductive Returns : RelocState → Prop
  | done (ret : Bool) : Returns (.done ret)
  | step {s : RelocState} (h : Returns (r.step s).1) : Returns s

/-! ## What the call may touch -/

/-- So many bytes from the address on lie in the block of memory. -/
def Within (lo size : BitVec 32) (a : Address) (width : ℕ) : Prop :=
  lo.toNat ≤ a.toNat ∧ a.toNat + width ≤ lo.toNat + size.toNat

def InImage (a : Address) (width : ℕ) : Prop := Within r.base r.totalSize a width

/-- In the directory or in the image. -/
def Readable (m : Image) (a : Address) (width : ℕ) : Prop :=
  Within (r.dirStart m) (readDWord m (r.dir + 4)) a width ∨ r.InImage a width

/-- Writes are in the image, reads in the image or in the directory as it was at the start. -/
def Allowed (m : Image) (a : Access) : Prop :=
  if a.write then r.InImage a.address a.width else r.Readable m a.address a.width

/-- The call returns and touches nothing but the directory and the image. -/
def StaysInside (m : Image) : Prop :=
  Returns r (r.start m) ∧ ∀ s, r.Reached m s → ∀ a ∈ (r.step s).2, r.Allowed m a

/-- The header that is looked at, the entry and what it changes lie where they may. -/
def Fits (m₀ : Image) : RelocState → Prop
  | .block m rel => rel < r.dirEnd m → r.Readable m₀ (rel + 4) 4 ∧
      (sizeOfBlock m rel ≠ 0 → r.Readable m₀ rel 4)
  | .entry m rel page i count =>
    if i < count then
      r.Readable m₀ (entryAddress rel i) 2 ∧
        let typeOffset := readWord m (entryAddress rel i)
        fixupWidth (typeOffset >>> 12) ≠ 0 →
          r.InImage (page + (typeOffset &&& 0xfff).setWidth 32) (fixupWidth (typeOffset >>> 12))
    else r.Readable m₀ (rel + 4) 4
  | .done _ => True

/-- The address behind the block that is left is not below it. -/
def Advances : RelocState → Prop
  | .block m rel => rel.toNat + (sizeOfBlock m rel).toNat < 2 ^ 32
  | .entry m rel _ i count => count ≤ i → rel.toNat + (sizeOfBlock m rel).toNat < 2 ^ 32
  | .done _ => True

variable {r} {m m₀ : Image} {rel page : Address} {i count k : ℕ} {s : RelocState}

/-! ## Accesses -/

theorem fixup_allowed_iff (target : Address) (type : BitVec 16) :
    (∀ a ∈ fixupAccesses target type, r.Allowed m₀ a) ↔
      (fixupWidth type ≠ 0 → r.InImage target (fixupWidth type)) := by
  unfold fixupAccesses
  by_cases h : fixupWidth type = 0
  · rw [if_pos h]
    exact iff_of_true (fun a ha => absurd ha List.not_mem_nil) fun hne => absurd h hne
  · rw [if_neg h]
    constructor
    · intro hall _
      exact (if_pos rfl).mp (hall ⟨target, fixupWidth type, true⟩ (by simp))
    · intro hin a ha
      rcases List.mem_pair.mp ha with rfl | rfl
      · exact .inr (hin h)
      · exact hin h

/-- A step touches nothing else exactly if it fits. -/
theorem allowed_iff (s : RelocState) : (∀ a ∈ (r.step s).2, r.Allowed m₀ a) ↔ r.Fits m₀ s := by
  cases s with
  | done ret => exact iff_of_true (fun a ha => absurd ha List.not_mem_nil) trivial
  | block m rel =>
    rw [Fits, step, stepBlock]
    by_cases hend : rel < r.dirEnd m
    · rw [if_neg (not_not.mpr hend)]
      by_cases hsize : sizeOfBlock m rel = 0
      · rw [if_pos hsize]
        refine ⟨fun h _ => ⟨h _ List.mem_cons_self, fun hne => absurd hsize hne⟩, fun h a ha => ?_⟩
        obtain rfl := List.mem_singleton.mp ha
        exact (h hend).1
      · rw [if_neg hsize]
        refine ⟨fun h _ => ⟨h ⟨rel + 4, 4, false⟩ (by simp), fun _ => h ⟨rel, 4, false⟩ (by simp)⟩,
          fun h a ha => ?_⟩
        rcases List.mem_pair.mp ha with rfl | rfl
        · exact (h hend).1
        · exact (h hend).2 hsize
    · rw [if_pos hend]
      exact iff_of_true (fun a ha => absurd ha List.not_mem_nil) fun hlt => absurd hlt hend
  | entry m rel page i count =>
    rw [Fits, step, stepEntry]
    by_cases hi : i < count
    · rw [if_pos hi, if_pos hi]
      dsimp only
      rw [List.forall_mem_cons, fixup_allowed_iff]
      rfl
    · rw [if_neg hi, if_neg hi]
      refine ⟨fun h => h _ List.mem_cons_self, fun h a ha => ?_⟩
      obtain rfl := List.mem_singleton.mp ha
      exact h

/-! ## Termination -/

theorem returns_of_empty (h : sizeOfBlock m rel = 0) : Returns r (.block m rel) := by
  refine .step ?_
  rw [step, stepBlock]
  by_cases hend : rel < r.dirEnd m
  · rw [if_neg (not_not.mpr hend), if_pos h]
    exact .done true
  · rw [if_pos hend]
    exact .done true

theorem toNat_next (h : rel.toNat + (sizeOfBlock m rel).toNat < 2 ^ 32) :
    (rel + sizeOfBlock m rel).toNat = rel.toNat + (sizeOfBlock m rel).toNat := by
  rw [BitVec.toNat_add, Nat.mod_eq_of_lt h]

/-- The entries of a block lead to the next block. -/
theorem returns_of_entries (hadv : ∀ s, r.Reached m₀ s → Advances s)
    (hnext : ∀ m, r.Reached m₀ (.block m (rel + sizeOfBlock m rel)) →
      rel.toNat + (sizeOfBlock m rel).toNat < 2 ^ 32 → Returns r (.block m (rel + sizeOfBlock m rel)))
    (hk : count ≤ i + k) (h : r.Reached m₀ (.entry m rel page i count)) :
    Returns r (.entry m rel page i count) := by
  induction k generalizing m i with
  | zero =>
    have hstep := h.step
    have hlt := hadv _ h hk
    refine .step ?_
    rw [step, stepEntry, if_neg (show ¬i < count from Nat.not_lt.mpr hk)] at hstep ⊢
    exact hnext m hstep hlt
  | succ k ih =>
    have hstep := h.step
    refine .step ?_
    by_cases hi : i < count
    · rw [step, stepEntry, if_pos hi] at hstep ⊢
      exact ih (by omega) hstep
    · have hlt := hadv _ h (Nat.le_of_not_lt hi)
      rw [step, stepEntry, if_neg hi] at hstep ⊢
      exact hnext m hstep hlt

/-- The addresses of the blocks grow. -/
theorem returns_of_advances (hadv : ∀ s, r.Reached m₀ s → Advances s) (hk : 2 ^ 32 - rel.toNat ≤ k)
    (h : r.Reached m₀ (.block m rel)) : Returns r (.block m rel) := by
  induction k using Nat.strongRecOn generalizing m rel with
  | ind k ih =>
    have hrel := rel.isLt
    have hnext (m : Image) (hreached : r.Reached m₀ (.block m (rel + sizeOfBlock m rel)))
        (hlt : rel.toNat + (sizeOfBlock m rel).toNat < 2 ^ 32) :
        Returns r (.block m (rel + sizeOfBlock m rel)) := by
      by_cases hzero : sizeOfBlock m rel = 0
      · have hsame : rel + sizeOfBlock m rel = rel := by
          rw [hzero]
          exact BitVec.add_zero rel
        rw [hsame]
        exact returns_of_empty hzero
      · have hpos : (sizeOfBlock m rel).toNat ≠ 0 := fun h0 => hzero (BitVec.eq_of_toNat_eq h0)
        have hsum := toNat_next hlt
        exact ih (2 ^ 32 - (rel + sizeOfBlock m rel).toNat) (by omega) (Nat.le_refl _) hreached
    have hstep := h.step
    have hlt : rel.toNat + (sizeOfBlock m rel).toNat < 2 ^ 32 := hadv _ h
    refine .step ?_
    rw [step, stepBlock] at hstep ⊢
    split at hstep
    · next hend =>
      rw [if_pos hend]
      exact .done true
    · next hend =>
      rw [if_neg hend]
      split at hstep
      · next hsize =>
        rw [if_pos hsize]
        exact .done true
      · next hsize =>
        rw [if_neg hsize]
        dsimp only at hstep ⊢
        split at hstep
        · next hcount =>
          rw [if_pos hcount]
          exact hnext m hstep hlt
        · next hcount =>
          rw [if_neg hcount]
          split at hstep
          · next hbeyond =>
            rw [if_pos hbeyond]
            exact .done false
          · next hbeyond =>
            rw [if_neg hbeyond]
            split at hstep
            · next hskip =>
              rw [if_pos hskip]
              exact hnext m hstep hlt
            · next hskip =>
              rw [if_neg hskip]
              exact returns_of_entries hadv hnext (Nat.le_add_left _ _) hstep

/-- One entry for the page right behind the image. -/
def behindImage : Image := fun a =>
  if a = 0x10081 then 0x01
  else if a = 0x10084 then 0x0a
  else if a = 0x10101 then 0x10
  else if a = 0x10104 then 0x0a
  else if a = 0x10109 then 0x30
  else 0

end Relocation

end Wine.Virtual
