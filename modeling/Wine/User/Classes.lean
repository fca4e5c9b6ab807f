import Mathlib.Data.List.Nodup
import Mathlib.Data.List.Pairwise
import Wine.Lib.Runs
import Wine.Server.State

/-!
# Window classes

The window classes of a process stand in one list, the local ones in front of the global ones. A
class is looked up by its atom and a module instance; the lookup returns the first class that fits,
and creating a class relies on it to find a duplicate.
-/

namespace Wine.User.Classes
open Wine.Lib
open Wine.Server (Status statusInvalidHandle statusInvalidParameter statusAccessDenied
  statusNoMemory)

abbrev Atom := ℕ
abbrev ModuleInstance := BitVec 32
abbrev ClassPtr := ℕ
abbrev WindowHandle := ℕ

structure WindowClass where
  ptr : ClassPtr
  count : ℕ
  isLocal : Bool
  atom : Atom
  moduleInstance : ModuleInstance
  style : BitVec 32
  winExtra : ℤ
  clientPtr : BitVec 32
  extraBytes : List (BitVec 8)
  deriving DecidableEq, Repr

/-- The classes of a process, and its windows with the class of each. -/
structure Process where
  classes : List WindowClass
  windows : List (WindowHandle × ClassPtr)
  nextClass : ClassPtr
  nextWindow : WindowHandle
  error : Status
  deriving DecidableEq, Repr

def Process.initial : Process := ⟨[], [], 1, 1, 0⟩

def errorClassAlreadyExists : ℕ := 1410
def errorClassDoesNotExist : ℕ := 1411
def errorClassHasWindows : ℕ := 1412
def errorInvalidIndex : ℕ := 1413

def Process.setError (p : Process) (e : Status) : Process := { p with error := e }

def Process.setWin32Error (p : Process) (e : ℕ) : Process := p.setError (0xc0010000 + e)

/-- A local class fits when the instance is null or its own, a global class always. -/
def WindowClass.Fits (c : WindowClass) (atom : Atom) (inst : ModuleInstance) : Prop :=
  c.atom = atom ∧ (inst = 0 ∨ c.isLocal = false ∨ c.moduleInstance = inst)

instance (c : WindowClass) (atom : Atom) (inst : ModuleInstance) : Decidable (c.Fits atom inst) := by
  unfold WindowClass.Fits
  infer_instance

def findClass (p : Process) (atom : Atom) (inst : ModuleInstance) : Option WindowClass :=
  p.classes.find? fun c => c.Fits atom inst

def Process.update (p : Process) (ptr : ClassPtr) (f : WindowClass → WindowClass) : Process :=
  { p with classes := p.classes.map fun c => if c.ptr = ptr then f c else c }

def grabClass (p : Process) (atom : Atom) (inst : ModuleInstance) :
    Process × Option WindowClass :=
  match findClass p atom inst with
  | some c => (p.update c.ptr fun c => { c with count := c.count + 1 }, some c)
  | none => (p.setError statusInvalidHandle, none)

def releaseClass (p : Process) (ptr : ClassPtr) : Process :=
  p.update ptr fun c => { c with count := c.count - 1 }

/-! ## Requests -/

structure CreateClass where
  isLocal : Bool
  atom : Atom
  style : BitVec 32
  moduleInstance : ModuleInstance
  extra : ℤ
  winExtra : ℤ
  clientPtr : BitVec 32
  deriving DecidableEq, Repr

/-- Local classes have priority so we put them first in the list. -/
def createClass (p : Process) (c : WindowClass) : Process :=
  { p with
    classes := if c.isLocal then c :: p.classes else p.classes ++ [c]
    nextClass := p.nextClass + 1 }

/-- `grabbed` and `mem` are the outcomes of grabbing the atom and of the allocation. -/
def createClassRequest (p : Process) (req : CreateClass) (grabbed mem : Bool) : Process :=
  if (findClass p req.atom req.moduleInstance).any (·.isLocal = req.isLocal) then
    p.setWin32Error errorClassAlreadyExists
  else if req.extra < 0 ∨ req.extra > 4096 ∨ req.winExtra < 0 ∨ req.winExtra > 4096 then
    -- don't allow stupid values here
    p.setError statusInvalidParameter
  else if grabbed = false then p.setError statusInvalidHandle
  else if mem = false then p.setError statusNoMemory
  else createClass p
    { ptr := p.nextClass
      count := 0
      isLocal := req.isLocal
      atom := req.atom
      moduleInstance := req.moduleInstance
      style := req.style
      winExtra := req.winExtra
      clientPtr := req.clientPtr
      extraBytes := List.replicate req.extra.toNat 0 }

def destroyClassRequest (p : Process) (atom : Atom) (inst : ModuleInstance) :
    Process × Option (BitVec 32) :=
  match findClass p atom inst with
  | none => (p.setWin32Error errorClassDoesNotExist, none)
  | some c =>
    if c.count ≠ 0 then (p.setWin32Error errorClassHasWindows, none)
    else ({ p with classes := p.classes.filter (·.ptr ≠ c.ptr) }, some c.clientPtr)

def setClassAtom : BitVec 32 := 0x0001
def setClassStyle : BitVec 32 := 0x0002
def setClassWinextra : BitVec 32 := 0x0004
def setClassInstance : BitVec 32 := 0x0008
def setClassExtra : BitVec 32 := 0x0010

structure SetClassInfo where
  window : WindowHandle
  flags : BitVec 32
  atom : Atom
  style : BitVec 32
  winExtra : ℤ
  moduleInstance : ModuleInstance
  extraOffset : ℤ
  extraSize : ℕ
  extraValue : BitVec 32
  deriving DecidableEq, Repr

structure ClassInfo where
  oldAtom : Atom
  oldStyle : BitVec 32
  oldExtra : ℕ
  oldWinExtra : ℤ
  oldInstance : ModuleInstance
  oldExtraValue : List (BitVec 8)
  deriving DecidableEq, Repr

def getWindowClass (p : Process) (window : WindowHandle) : Option WindowClass :=
  (p.windows.find? (·.1 = window)).bind fun w => p.classes.find? (·.ptr = w.2)

def SetClassInfo.Sets (req : SetClassInfo) (flag : BitVec 32) : Prop := req.flags &&& flag ≠ 0

instance (req : SetClassInfo) (flag : BitVec 32) : Decidable (req.Sets flag) := by
  unfold SetClassInfo.Sets
  infer_instance

def SetClassInfo.valueBytes (req : SetClassInfo) : List (BitVec 8) :=
  (List.range 4).map fun i => req.extraValue.extractLsb' (8 * i) 8

def memcpy (dst : List (BitVec 8)) (offset : ℕ) (src : List (BitVec 8)) : List (BitVec 8) :=
  dst.take offset ++ src ++ dst.drop (offset + src.length)

def SetClassInfo.apply (req : SetClassInfo) (c : WindowClass) : WindowClass :=
  { c with
    atom := if req.Sets setClassAtom then req.atom else c.atom
    style := if req.Sets setClassStyle then req.style else c.style
    winExtra := if req.Sets setClassWinextra then req.winExtra else c.winExtra
    moduleInstance := if req.Sets setClassInstance then req.moduleInstance else c.moduleInstance
    extraBytes := if req.Sets setClassExtra then
      memcpy c.extraBytes req.extraOffset.toNat (req.valueBytes.take req.extraSize)
      else c.extraBytes }

/-- `own` says that the process of the class sends the request, `grabbed` is the outcome of grabbing
the new atom. -/
def setClassInfoRequest (p : Process) (req : SetClassInfo) (own grabbed : Bool) :
    Process × Option ClassInfo :=
  match getWindowClass p req.window with
  | none => (p.setError statusInvalidHandle, none)
  | some c =>
    if req.flags ≠ 0 ∧ own = false then (p.setError statusAccessDenied, none)
    else if req.extraSize > 4 ∨ req.extraOffset < -1 ∨
        req.extraOffset > (c.extraBytes.length : ℤ) - req.extraSize then
      (p.setWin32Error errorInvalidIndex, none)
    else if req.Sets setClassWinextra ∧ (req.winExtra < 0 ∨ req.winExtra > 4096) then
      (p.setError statusInvalidParameter, none)
    else if req.extraOffset = -1 ∧ req.Sets setClassExtra then
      (p.setWin32Error errorInvalidIndex, none)
    else
      let reply : ClassInfo :=
        { oldAtom := c.atom
          oldStyle := c.style
          oldExtra := c.extraBytes.length
          oldWinExtra := c.winExtra
          oldInstance := c.moduleInstance
          oldExtraValue := if req.extraOffset ≠ -1 then
            (c.extraBytes.drop req.extraOffset.toNat).take req.extraSize else [] }
      if req.Sets setClassAtom ∧ grabbed = false then (p.setError statusInvalidHandle, some reply)
      else (p.update c.ptr req.apply, some reply)

/-- The part of `create_window` that concerns the class. -/
def createWindow (p : Process) (atom : Atom) (inst : ModuleInstance) : Process :=
  match grabClass p atom inst with
  | (p, some c) =>
    { p with windows := (p.nextWindow, c.ptr) :: p.windows, nextWindow := p.nextWindow + 1 }
  | (p, none) => p

def destroyWindow (p : Process) (window : WindowHandle) : Process :=
  match p.windows.find? (·.1 = window) with
  | some w => { releaseClass p w.2 with windows := p.windows.filter (·.1 ≠ window) }
  | none => p.setError statusInvalidHandle

/-! ## Sequences of requests -/

inductive Request
  | createClass (req : CreateClass) (grabbed mem : Bool)
  | destroyClass (atom : Atom) (inst : ModuleInstance)
  | setClassInfo (req : SetClassInfo) (own grabbed : Bool)
  | createWindow (atom : Atom) (inst : ModuleInstance)
  | destroyWindow (window : WindowHandle)

def handle (p : Process) : Request → Process
  | .createClass req grabbed mem => createClassRequest p req grabbed mem
  | .destroyClass atom inst => (destroyClassRequest p atom inst).1
  | .setClassInfo req own grabbed => (setClassInfoRequest p req own grabbed).1
  | .createWindow atom inst => Classes.createWindow p atom inst
  | .destroyWindow window => Classes.destroyWindow p window

def step (p : Process) (r : Request) : Except PEmpty Process := .ok (handle p r)

/-! ## Uniqueness -/

def Distinct (c d : WindowClass) : Prop :=
  c.atom = d.atom → c.isLocal = d.isLocal → c.isLocal = true ∧ c.moduleInstance ≠ d.moduleInstance

def Process.Unique (p : Process) : Prop := p.classes.Pairwise Distinct

instance (c d : WindowClass) : Decidable (Distinct c d) := by unfold Distinct; infer_instance

instance (p : Process) : Decidable p.Unique := by unfold Process.Unique; infer_instance

structure Inv (p : Process) : Prop where
  unique : p.Unique
  localFirst : p.classes.Pairwise fun c d => d.isLocal = true → c.isLocal = true
  nodup : (p.classes.map (·.ptr)).Nodup
  fresh : ∀ c ∈ p.classes, c.ptr < p.nextClass

theorem Distinct.symm {c d : WindowClass} (h : Distinct c d) : Distinct d c := by
  intro hatom hlocal
  obtain ⟨hc, hne⟩ := h hatom.symm hlocal.symm
  exact ⟨hlocal.trans hc, hne.symm⟩

instance : Std.Symm Distinct := ⟨fun _ _ h => h.symm⟩

section

variable {p : Process} {c d : WindowClass} {atom : Atom} {inst : ModuleInstance}

theorem Inv.setError (hp : Inv p) (e : Status) : Inv (p.setError e) :=
  ⟨hp.unique, hp.localFirst, hp.nodup, hp.fresh⟩

theorem Inv.eq_of_ptr (hp : Inv p) (hc : c ∈ p.classes) (hd : d ∈ p.classes)
    (h : c.ptr = d.ptr) : c = d :=
  List.inj_on_of_nodup_map hp.nodup hc hd h

/-- The lookup sees all local classes before any global one. -/
theorem not_fits_of_findClass (hp : Inv p)
    (hfind : ∀ f, findClass p atom inst = some f → f.isLocal = false) (hc : c ∈ p.classes)
    (hlocal : c.isLocal = true) : ¬ c.Fits atom inst := by
  intro hfits
  cases hf : findClass p atom inst with
  | none =>
    have hnot := List.find?_eq_none.mp hf c hc
    exact hnot (decide_eq_true hfits)
  | some f =>
    obtain ⟨l₁, l₂, hsplit, hbefore⟩ := (List.find?_eq_some_iff_append.mp hf).2
    have hglobal := hfind f hf
    rw [hsplit] at hc
    rcases List.mem_append.mp hc with hc | hc
    · have hnot := hbefore c hc
      simp [hfits] at hnot
    · rcases List.mem_cons.mp hc with rfl | hc
      · rw [hglobal] at hlocal
        cases hlocal
      · have hpair := hp.localFirst
        rw [hsplit] at hpair
        have hrest := (List.pairwise_append.mp hpair).2.1
        have hfl := (List.pairwise_cons.mp hrest).1 c hc hlocal
        rw [hglobal] at hfl
        cases hfl

/-! ## One request -/

theorem Inv.update (hp : Inv p) {ptr : ClassPtr} {f : WindowClass → WindowClass}
    (hptr : ∀ c, (f c).ptr = c.ptr) (hlocal : ∀ c, (f c).isLocal = c.isLocal)
    (hdist : ∀ c ∈ p.classes, ∀ d ∈ p.classes, c.ptr = ptr → d.ptr ≠ ptr → Distinct c d →
      Distinct (f c) d) : Inv (p.update ptr f) := by
  have hptr' : ∀ c, (if c.ptr = ptr then f c else c).ptr = c.ptr := by
    intro c
    split
    · exact hptr c
    · rfl
  have hlocal' : ∀ c, (if c.ptr = ptr then f c else c).isLocal = c.isLocal := by
    intro c
    split
    · exact hlocal c
    · rfl
  constructor
  · unfold Process.Unique Process.update
    rw [List.pairwise_map]
    have hne : p.classes.Pairwise fun c d => c.ptr ≠ d.ptr := List.pairwise_map.mp hp.nodup
    apply (hp.unique.and hne).imp_of_mem
    intro c d hc hd hcd
    split <;> split
    · rename_i h h'
      exact absurd (h.trans h'.symm) hcd.2
    · exact hdist c hc d hd ‹_› ‹_› hcd.1
    · exact (hdist d hd c hc ‹_› ‹_› hcd.1.symm).symm
    · exact hcd.1
  · unfold Process.update
    rw [List.pairwise_map]
    apply hp.localFirst.imp
    intro c d hcd
    rw [hlocal', hlocal']
    exact hcd
  · unfold Process.update
    rw [List.map_map]
    simpa only [Function.comp_def, hptr'] using hp.nodup
  · intro c hc
    obtain ⟨c', hc', rfl⟩ := List.mem_map.mp hc
    rw [hptr']
    exact hp.fresh c' hc'

theorem Inv.count (hp : Inv p) (ptr : ClassPtr) (g : ℕ → ℕ) :
    Inv (p.update ptr fun c => { c with count := g c.count }) := by
  apply hp.update
  · exact fun _ => rfl
  · exact fun _ => rfl
  · exact fun c _ d _ _ _ h => h

theorem Inv.createClass (hp : Inv p) (hptr : c.ptr = p.nextClass)
    (hdist : ∀ d ∈ p.classes, Distinct c d) : Inv (createClass p c) := by
  have hnew : ∀ d ∈ p.classes, c.ptr ≠ d.ptr := by
    intro d hd heq
    exact Nat.ne_of_lt (hp.fresh d hd) (heq.symm.trans hptr)
  have hfresh : ∀ d, d = c ∨ d ∈ p.classes → d.ptr < p.nextClass + 1 := by
    rintro d (rfl | hd)
    · exact Nat.lt_succ_of_le (Nat.le_of_eq hptr)
    · exact Nat.lt_succ_of_lt (hp.fresh d hd)
  cases hl : c.isLocal with
  | true =>
    have hclasses : (Classes.createClass p c).classes = c :: p.classes := by
      simp [Classes.createClass, hl]
    constructor
    · unfold Process.Unique
      rw [hclasses]
      exact List.pairwise_cons.mpr ⟨hdist, hp.unique⟩
    · rw [hclasses]
      exact List.pairwise_cons.mpr ⟨fun _ _ _ => hl, hp.localFirst⟩
    · rw [hclasses, List.map_cons, List.nodup_cons]
      refine ⟨fun hmem => ?_, hp.nodup⟩
      obtain ⟨d, hd, heq⟩ := List.mem_map.mp hmem
      exact hnew d hd heq.symm
    · intro d hd
      rw [hclasses] at hd
      exact hfresh d (List.mem_cons.mp hd)
  | false =>
    have hclasses : (Classes.createClass p c).classes = p.classes ++ [c] := by
      simp [Classes.createClass, hl]
    constructor
    · unfold Process.Unique
      rw [hclasses, List.pairwise_append]
      refine ⟨hp.unique, List.pairwise_singleton _ _, fun d hd e he => ?_⟩
      rw [List.mem_singleton.mp he]
      exact (hdist d hd).symm
    · rw [hclasses, List.pairwise_append]
      refine ⟨hp.localFirst, List.pairwise_singleton _ _, fun d hd e he hel => ?_⟩
      rw [List.mem_singleton.mp he, hl] at hel
      cases hel
    · rw [hclasses, List.map_append, List.nodup_append]
      refine ⟨hp.nodup, List.nodup_singleton _, fun a ha b hb => ?_⟩
      obtain ⟨d, hd, rfl⟩ := List.mem_map.mp ha
      rw [List.mem_singleton.mp hb]
      exact (hnew d hd).symm
    · intro d hd
      rw [hclasses] at hd
      exact hfresh d (by simpa [or_comm] using hd)

/-- No local class hides a global class of the atom from the lookup. -/
def SeesGlobal (p : Process) (req : CreateClass) : Prop :=
  ∀ f ∈ findClass p req.atom req.moduleInstance, f.isLocal = true → ∀ c ∈ p.classes,
    c.atom = req.atom → c.isLocal = true

instance (p : Process) (req : CreateClass) : Decidable (SeesGlobal p req) := by
  unfold SeesGlobal
  infer_instance

theorem Inv.createClassRequest (hp : Inv p) {req : CreateClass} (grabbed mem : Bool)
    (hsees : req.isLocal = false → SeesGlobal p req) :
    Inv (createClassRequest p req grabbed mem) := by
  unfold Classes.createClassRequest
  split
  · exact hp.setError _
  rename_i hfind
  have hother : ∀ f, findClass p req.atom req.moduleInstance = some f →
      f.isLocal ≠ req.isLocal := by
    intro f hf heq
    simp [hf, heq] at hfind
  split
  · exact hp.setError _
  split
  · exact hp.setError _
  split
  · exact hp.setError _
  apply hp.createClass
  · rfl
  · intro d hd hatom hlocal
    simp only at hatom hlocal
    cases hl : req.isLocal with
    | true =>
      refine ⟨rfl, fun heq => ?_⟩
      have hglobal : ∀ f, findClass p req.atom req.moduleInstance = some f → f.isLocal = false := by
        intro f hf
        have hne := hother f hf
        rw [hl] at hne
        simpa using hne
      have hnot := not_fits_of_findClass hp hglobal hd (hlocal.symm.trans hl)
      exact hnot ⟨hatom.symm, Or.inr (Or.inr heq.symm)⟩
    | false =>
      have hdfits : d.Fits req.atom req.moduleInstance :=
        ⟨hatom.symm, Or.inr (Or.inl (hlocal.symm.trans hl))⟩
      cases hf : findClass p req.atom req.moduleInstance with
      | none =>
        have hnot := List.find?_eq_none.mp hf d hd
        exact absurd (decide_eq_true hdfits) hnot
      | some f =>
        have hfl : f.isLocal = true := by
          have hne := hother f hf
          rw [hl] at hne
          simpa using hne
        have hdl := hsees hl f hf hfl d hd hatom.symm
        rw [← hlocal, hl] at hdl
        cases hdl

theorem Inv.destroyClassRequest (hp : Inv p) :
    Inv (destroyClassRequest p atom inst).1 := by
  unfold Classes.destroyClassRequest
  split
  · exact hp.setError _
  · split
    · exact hp.setError _
    · constructor
      · exact hp.unique.filter _
      · exact hp.localFirst.filter _
      · exact hp.nodup.sublist (List.filter_sublist.map _)
      · exact fun c hc => hp.fresh c (List.mem_filter.mp hc).1

/-- A new instance does not collide with another local class of the atom. -/
def NoCollision (p : Process) (req : SetClassInfo) : Prop :=
  ∀ c ∈ getWindowClass p req.window, c.isLocal = true → ∀ d ∈ p.classes, d.isLocal = true →
    d.atom = c.atom → d.ptr ≠ c.ptr → d.moduleInstance ≠ req.moduleInstance

instance (p : Process) (req : SetClassInfo) : Decidable (NoCollision p req) := by
  unfold NoCollision
  infer_instance

theorem getWindowClass_mem {window : WindowHandle} (h : getWindowClass p window = some c) :
    c ∈ p.classes := by
  unfold getWindowClass at h
  obtain ⟨w, -, hc⟩ := Option.bind_eq_some_iff.mp h
  exact List.mem_of_find?_eq_some hc

theorem Inv.setClassInfoRequest (hp : Inv p) {req : SetClassInfo} (own grabbed : Bool)
    (hatom : ¬ req.Sets setClassAtom) (hinst : req.Sets setClassInstance → NoCollision p req) :
    Inv (setClassInfoRequest p req own grabbed).1 := by
  unfold Classes.setClassInfoRequest
  split
  · exact hp.setError _
  rename_i c hc
  split
  · exact hp.setError _
  split
  · exact hp.setError _
  split
  · exact hp.setError _
  split
  · exact hp.setError _
  simp only [hatom, false_and, if_false]
  apply hp.update
  · exact fun _ => rfl
  · exact fun _ => rfl
  · intro c' hc' d hd hptr hne hdist hsame hlocal
    obtain rfl := hp.eq_of_ptr hc' (getWindowClass_mem hc) hptr
    simp only [SetClassInfo.apply, hatom, if_false] at hsame hlocal ⊢
    obtain ⟨hl, hdiff⟩ := hdist hsame hlocal
    refine ⟨hl, ?_⟩
    split
    · rename_i hset
      exact (hinst hset c' hc hl d hd (hlocal.symm.trans hl) hsame.symm hne).symm
    · exact hdiff

theorem Inv.createWindow (hp : Inv p) : Inv (createWindow p atom inst) := by
  unfold Classes.createWindow grabClass
  cases findClass p atom inst with
  | none => exact hp.setError _
  | some c =>
    have hgrab := hp.count c.ptr (· + 1)
    exact ⟨hgrab.unique, hgrab.localFirst, hgrab.nodup, hgrab.fresh⟩

theorem Inv.destroyWindow (hp : Inv p) (window : WindowHandle) :
    Inv (destroyWindow p window) := by
  unfold Classes.destroyWindow
  split
  · rename_i w _
    have hrelease := hp.count w.2 (· - 1)
    exact ⟨hrelease.unique, hrelease.localFirst, hrelease.nodup, hrelease.fresh⟩
  · exact hp.setError _

end

/-! ## Runs -/

def KeepsAtom : Request → Prop
  | .setClassInfo req _ _ => ¬ req.Sets setClassAtom
  | _ => True

instance (r : Request) : Decidable (KeepsAtom r) := by
  cases r <;> unfold KeepsAtom <;> infer_instance

/-- A global class is created only where the lookup sees the global classes of its atom, and an
instance is changed only to one that no other local class of the atom has. -/
def Careful (p : Process) : Request → Prop
  | .createClass req _ _ => req.isLocal = false → SeesGlobal p req
  | .setClassInfo req _ _ => req.Sets setClassInstance → NoCollision p req
  | _ => True

instance (p : Process) (r : Request) : Decidable (Careful p r) := by
  cases r <;> unfold Careful <;> infer_instance

theorem Inv.step {p p' : Process} {r : Request} (hp : Inv p) (hr : KeepsAtom r)
    (hcare : Careful p r) (hst : step p r = .ok p') : Inv p' := by
  cases hst
  cases r with
  | createClass req grabbed mem => exact hp.createClassRequest grabbed mem hcare
  | destroyClass atom inst => exact hp.destroyClassRequest
  | setClassInfo req own grabbed => exact hp.setClassInfoRequest own grabbed hr hcare
  | createWindow atom inst => exact hp.createWindow
  | destroyWindow window => exact hp.destroyWindow window

theorem Inv.initial : Inv Process.initial :=
  ⟨List.Pairwise.nil, List.Pairwise.nil, List.nodup_nil, fun _ hc => by cases hc⟩

/-- No two classes that fit a lookup are both local or both global, where the lookup names an
instance. -/
def Process.OneAnswer (p : Process) : Prop :=
  ∀ atom inst, inst ≠ 0 → ∀ c ∈ p.classes, ∀ d ∈ p.classes, c.Fits atom inst → d.Fits atom inst →
    c.isLocal = d.isLocal → c = d

theorem Inv.oneAnswer {p : Process} (hp : Inv p) : p.OneAnswer := by
  intro atom inst hinst c hc d hd hcf hdf hlocal
  by_contra hne
  have hdist := hp.unique.forall hc hd hne
  obtain ⟨hl, hdiff⟩ := hdist (hcf.1.trans hdf.1.symm) hlocal
  have hinstance : ∀ e : WindowClass, e.Fits atom inst → e.isLocal = true →
      e.moduleInstance = inst := by
    rintro e ⟨-, h | h | h⟩ hel
    · exact absurd h hinst
    · rw [hel] at h
      cases h
    · exact h
  exact hdiff ((hinstance c hcf hl).trans (hinstance d hdf (hlocal.symm.trans hl)).symm)

def sampleClass (isLocal : Bool) (inst : ModuleInstance) : CreateClass :=
  ⟨isLocal, 0xc001, 0, inst, 0, 0, 0x1000⟩

def sampleSetInstance (inst : ModuleInstance) : SetClassInfo :=
  ⟨1, setClassInstance, 0, 0, 0, inst, -1, 0, 0⟩

def sampleRequests : List Request :=
  [.createClass (sampleClass false 0x400000) true true,
    .createClass (sampleClass true 0x400000) true true,
    .createWindow 0xc001 0x400000,
    .setClassInfo (sampleSetInstance 0x500000) true true]

end Wine.User.Classes
