import Mathlib.Algebra.GroupWithZero.Nat
import Mathlib.Data.List.Basic
import Mathlib.Data.List.Induction

/-!
# Shared sections of executable images

The sections of an image that all processes share and may write to are copied into one temporary
file. Each of them is read into a buffer that is large enough for the largest of them, and written
from there to its place in the file.
-/

namespace Wine.Mapping

abbrev Byte := BitVec 8

/-- The fields of an `IMAGE_SECTION_HEADER` that are read here, unsigned 32-bit numbers but for the
flags. -/
structure Section where
  virtualSize : ℕ
  sizeOfRawData : ℕ
  pointerToRawData : ℕ
  characteristics : BitVec 32
  deriving DecidableEq, Repr

def imageScnMemShared : BitVec 32 := 0x10000000
def imageScnMemWrite : BitVec 32 := 0x80000000

def pageSize : ℕ := 0x1000

def roundSize (size : ℕ) : ℕ := (size + (pageSize - 1)) % 0x100000000 / pageSize * pageSize

def Section.mapSize (sec : Section) : ℕ :=
  if sec.virtualSize = 0 then roundSize sec.sizeOfRawData else roundSize sec.virtualSize

def Section.filemapSize (sec : Section) : ℕ :=
  if sec.virtualSize = 0 then sec.sizeOfRawData
  else min sec.sizeOfRawData (roundSize sec.virtualSize)

def Section.IsShared (sec : Section) : Prop :=
  sec.characteristics &&& imageScnMemShared ≠ 0 ∧ sec.characteristics &&& imageScnMemWrite ≠ 0

instance (sec : Section) : Decidable sec.IsShared := by unfold Section.IsShared; infer_instance

structure SourceFile where
  size : ℕ
  byte : ℕ → Byte

/-- The largest number of bytes between two pointers. -/
def ptrdiffMax : ℕ := 0x7fffffff

/-- The outcomes of the system calls. `avail n` is what the `n`th `pread` has at hand, and `mem` says
which allocations succeed; none is larger than the difference of two pointers can be. -/
structure Env where
  existing : Option (ℕ → Byte)
  createTempFile : Bool
  growFile : Bool
  unixFd : Bool
  mem : ℕ → Bool
  mem_le : ∀ n, mem n = true → n ≤ ptrdiffMax
  avail : ℕ → ℕ
  pwrite : Bool

/-- A write outside the buffer. -/
inductive Fault
  | overrun
  deriving DecidableEq, Repr

/-- The mapping's `shared_size` and `shared_file`, and the result. -/
structure Outcome where
  sharedSize : ℕ
  sharedFile : Option (ℕ → Byte)
  ret : Bool

def store (buf : ℕ → Byte) (offset len : ℕ) (src : ℕ → Byte) : ℕ → Byte :=
  fun x => if offset ≤ x ∧ x < offset + len then src (x - offset) else buf x

/-- The loop that reads a section; `n` counts the calls of `pread`. At the end of the file and on an
error there is no result. -/
def readSection (e : Env) (file : SourceFile) (maxSize raw : ℕ) :
    ℕ → ℕ → ℕ → ℕ → (ℕ → Byte) → Except Fault (Option ((ℕ → Byte) × ℕ))
  | 0, _, _, n, buf => .ok (some (buf, n))
  | fuel + 1, toread, readPos, n, buf =>
    if toread = 0 then .ok (some (buf, n))
    else
      let res := min (min (e.avail n) toread) (file.size - readPos)
      if res = 0 then .ok none
      else if maxSize < raw - toread + res then .error .overrun
      else readSection e file maxSize raw fuel (toread - res) (readPos + res) (n + 1)
        (store buf (raw - toread) res fun i => file.byte (readPos + i))

def copySections (e : Env) (file : SourceFile) (maxSize : ℕ) :
    List Section → ℕ → ℕ → (ℕ → Byte) → (ℕ → Byte) → Except Fault (Option (ℕ → Byte))
  | [], _, _, _, shared => .ok (some shared)
  | sec :: l, sharedPos, n, buf, shared =>
    let size := sec.filemapSize
    if sec.pointerToRawData = 0 ∨ size = 0 then
      copySections e file maxSize l (sharedPos + sec.mapSize) n buf shared
    else do
      match ← readSection e file maxSize sec.sizeOfRawData size size sec.pointerToRawData n buf with
      | none => pure none
      | some (buf, n) =>
        if e.pwrite = false then pure none
        else
          copySections e file maxSize l (sharedPos + sec.mapSize) n buf
            (store shared sharedPos size buf)

def totalSize (secs : List Section) : ℕ := (secs.map (·.mapSize)).sum % 0x100000000

def maxSize (secs : List Section) : ℕ := (secs.map (·.filemapSize)).foldr max 0

/-- `garbage` is what the allocated memory holds. -/
def buildSharedMapping (e : Env) (file : SourceFile) (garbage : ℕ → Byte) (secs : List Section) :
    Except Fault Outcome :=
  let shared := secs.filter (·.IsShared)
  let total := totalSize shared
  if total = 0 then .ok ⟨0, none, true⟩
  else match e.existing with
    | some f => .ok ⟨total, some f, true⟩
    | none =>
      if e.createTempFile = false ∨ e.growFile = false ∨ e.unixFd = false ∨
          e.mem (maxSize shared) = false then .ok ⟨total, none, false⟩
      else do
        match ← copySections e file (maxSize shared) shared 0 0 garbage fun _ => 0 with
        | some f => pure ⟨total, some f, true⟩
        | none => pure ⟨total, none, false⟩

/-! ## Reading a section -/

section

variable {e : Env} {file : SourceFile} {max raw : ℕ}

/-- The buffer after a section was read into it. -/
def fill (file : SourceFile) (sec : Section) (buf : ℕ → Byte) : ℕ → Byte :=
  store buf (sec.sizeOfRawData - sec.filemapSize) sec.filemapSize
    fun i => file.byte (sec.pointerToRawData + i)

theorem store_store (buf : ℕ → Byte) (offset m n : ℕ) (src : ℕ → Byte) :
    store (store buf offset m src) (offset + m) n (fun i => src (m + i)) =
      store buf offset (m + n) src := by
  funext x
  simp only [store]
  by_cases hlast : offset + m ≤ x ∧ x < offset + m + n
  · have hx : m + (x - (offset + m)) = x - offset := by omega
    rw [if_pos hlast, if_pos (by omega), hx]
  · rw [if_neg hlast]
    by_cases hfirst : offset ≤ x ∧ x < offset + m
    · rw [if_pos hfirst, if_pos (by omega)]
    · rw [if_neg hfirst, if_neg (by omega)]

theorem store_zero (buf : ℕ → Byte) (offset : ℕ) (src : ℕ → Byte) : store buf offset 0 src = buf := by
  funext x
  simp only [store]
  split
  · omega
  · rfl

/-- However the reads are split, they put the bytes of the file behind one another. -/
theorem readSection_fits (havail : ∀ n, 0 < e.avail n) (hmax : raw ≤ max) (fuel toread readPos n : ℕ)
    (buf : ℕ → Byte) (hfuel : toread ≤ fuel) (hraw : toread ≤ raw)
    (hfile : readPos + toread ≤ file.size) :
    ∃ n', readSection e file max raw fuel toread readPos n buf =
      .ok (some (store buf (raw - toread) toread fun i => file.byte (readPos + i), n')) := by
  induction fuel generalizing toread readPos n buf with
  | zero =>
    obtain rfl : toread = 0 := by omega
    exact ⟨n, by rw [readSection, store_zero]⟩
  | succ fuel ih =>
    by_cases hzero : toread = 0
    · subst hzero
      exact ⟨n, by rw [readSection, if_pos rfl, store_zero]⟩
    · have hpos := havail n
      rw [readSection, if_neg hzero]
      generalize hres : min (min (e.avail n) toread) (file.size - readPos) = res
      have hle : res ≤ toread := by omega
      have hne : res ≠ 0 := by omega
      obtain ⟨n', hn'⟩ := ih (toread - res) (readPos + res) (n + 1)
        (store buf (raw - toread) res fun i => file.byte (readPos + i)) (by omega) (by omega)
        (by omega)
      refine ⟨n', ?_⟩
      have hstart : raw - (toread - res) = raw - toread + res := by omega
      have hjoin := store_store buf (raw - toread) res (toread - res)
        fun i => file.byte (readPos + i)
      simp only [← Nat.add_assoc] at hjoin
      rw [hstart, hjoin, show res + (toread - res) = toread by omega] at hn'
      simp only [hne, if_false, show ¬ max < raw - toread + res by omega, hn']

theorem readSection_overrun (havail : ∀ n, 0 < e.avail n) (hmax : max < raw)
    (fuel toread readPos n : ℕ) (buf : ℕ → Byte) (hfuel : toread ≤ fuel) (hraw : toread ≤ raw)
    (hpos : 0 < toread) (hfile : readPos + toread ≤ file.size) :
    readSection e file max raw fuel toread readPos n buf = .error .overrun := by
  induction fuel generalizing toread readPos n buf with
  | zero => omega
  | succ fuel ih =>
    have havailn := havail n
    rw [readSection, if_neg (by omega)]
    generalize hres : min (min (e.avail n) toread) (file.size - readPos) = res
    have hne : res ≠ 0 := by omega
    simp only [hne, if_false]
    split
    · rfl
    · exact ih _ _ _ _ (by omega) (by omega) (by omega) (by omega)

/-! ## Copying the sections -/

def Section.HasData (sec : Section) : Prop := sec.pointerToRawData ≠ 0 ∧ sec.filemapSize ≠ 0

instance (sec : Section) : Decidable sec.HasData := by unfold Section.HasData; infer_instance

/-- The buffer after the sections were read into it one after the other. -/
def bufferAfter (file : SourceFile) (l : List Section) (buf : ℕ → Byte) : ℕ → Byte :=
  (l.filter (·.HasData)).foldl (fun b sec => fill file sec b) buf

/-- The shared file after the sections were copied. -/
def image (file : SourceFile) : List Section → ℕ → (ℕ → Byte) → (ℕ → Byte) → (ℕ → Byte)
  | [], _, _, shared => shared
  | sec :: l, pos, buf, shared =>
    if sec.HasData then
      image file l (pos + sec.mapSize) (fill file sec buf)
        (store shared pos sec.filemapSize (fill file sec buf))
    else image file l (pos + sec.mapSize) buf shared

theorem filemapSize_le_raw (sec : Section) : sec.filemapSize ≤ sec.sizeOfRawData := by
  unfold Section.filemapSize
  split
  · exact Nat.le_refl _
  · exact Nat.min_le_left _ _

/-- All sections can be read from the file. -/
def SourceFile.Holds (file : SourceFile) (l : List Section) : Prop :=
  ∀ sec ∈ l, sec.HasData → sec.pointerToRawData + sec.filemapSize ≤ file.size

theorem copySections_cons {sec : Section} {l : List Section} (havail : ∀ n, 0 < e.avail n)
    (hwrite : e.pwrite = true) (hfile : file.Holds (sec :: l)) (hraw : sec.sizeOfRawData ≤ max)
    (hdata : sec.HasData) (pos n : ℕ) (buf shared : ℕ → Byte) :
    ∃ n', copySections e file max (sec :: l) pos n buf shared =
      copySections e file max l (pos + sec.mapSize) n' (fill file sec buf)
        (store shared pos sec.filemapSize (fill file sec buf)) := by
  obtain ⟨n', hn'⟩ := readSection_fits havail hraw sec.filemapSize sec.filemapSize
    sec.pointerToRawData n buf (Nat.le_refl _) (filemapSize_le_raw sec)
    (hfile sec List.mem_cons_self hdata)
  refine ⟨n', ?_⟩
  have hnot : ¬ (sec.pointerToRawData = 0 ∨ sec.filemapSize = 0) := not_or.mpr hdata
  simp only [copySections, if_neg hnot, hn', hwrite, reduceCtorEq, if_false]
  rfl

theorem copySections_skip {sec : Section} (l : List Section) (hdata : ¬ sec.HasData) (pos n : ℕ)
    (buf shared : ℕ → Byte) : copySections e file max (sec :: l) pos n buf shared =
      copySections e file max l (pos + sec.mapSize) n buf shared := by
  have hnot : sec.pointerToRawData = 0 ∨ sec.filemapSize = 0 := by
    unfold Section.HasData at hdata
    omega
  simp only [copySections, if_pos hnot]

theorem SourceFile.Holds.tail {sec : Section} {l : List Section} (h : file.Holds (sec :: l)) :
    file.Holds l := fun s hs => h s (List.mem_cons_of_mem _ hs)

theorem copySections_fits (havail : ∀ n, 0 < e.avail n) (hwrite : e.pwrite = true)
    (l : List Section) (hfile : file.Holds l) (hraw : ∀ sec ∈ l, sec.HasData →
      sec.sizeOfRawData ≤ max) (pos n : ℕ) (buf shared : ℕ → Byte) :
    copySections e file max l pos n buf shared = .ok (some (image file l pos buf shared)) := by
  induction l generalizing pos n buf shared with
  | nil => rfl
  | cons sec l ih =>
    have htail := ih hfile.tail fun s hs => hraw s (List.mem_cons_of_mem _ hs)
    by_cases hdata : sec.HasData
    · obtain ⟨n', hn'⟩ := copySections_cons havail hwrite hfile
        (hraw sec List.mem_cons_self hdata) hdata pos n buf shared
      rw [hn', htail, image, if_pos hdata]
    · rw [copySections_skip l hdata, htail, image, if_neg hdata]

theorem copySections_overrun (havail : ∀ n, 0 < e.avail n) (hwrite : e.pwrite = true)
    (l : List Section) (hfile : file.Holds l) (hraw : ∃ sec ∈ l, sec.HasData ∧
      max < sec.sizeOfRawData) (pos n : ℕ) (buf shared : ℕ → Byte) :
    copySections e file max l pos n buf shared = .error .overrun := by
  induction l generalizing pos n buf shared with
  | nil =>
    obtain ⟨sec, hsec, -⟩ := hraw
    cases hsec
  | cons sec l ih =>
    by_cases hdata : sec.HasData
    · by_cases hmax : sec.sizeOfRawData ≤ max
      · obtain ⟨n', hn'⟩ := copySections_cons havail hwrite hfile hmax hdata pos n buf shared
        rw [hn']
        apply ih hfile.tail
        obtain ⟨s, hs, hsdata, hlt⟩ := hraw
        rcases List.mem_cons.mp hs with rfl | hs
        · omega
        · exact ⟨s, hs, hsdata, hlt⟩
      · have hread := readSection_overrun havail (Nat.lt_of_not_le hmax) sec.filemapSize sec.filemapSize
          sec.pointerToRawData n buf (Nat.le_refl _) (filemapSize_le_raw sec)
          (Nat.pos_of_ne_zero hdata.2) (hfile sec List.mem_cons_self hdata)
        have hnot : ¬ (sec.pointerToRawData = 0 ∨ sec.filemapSize = 0) := not_or.mpr hdata
        simp only [copySections, if_neg hnot, hread]
        rfl
    · rw [copySections_skip l hdata]
      apply ih hfile.tail
      obtain ⟨s, hs, hsdata, hlt⟩ := hraw
      rcases List.mem_cons.mp hs with rfl | hs
      · exact absurd hsdata hdata
      · exact ⟨s, hs, hsdata, hlt⟩

/-! ## What the shared file holds -/

theorem image_before (l : List Section) {pos y : ℕ} (hy : y < pos) (buf shared : ℕ → Byte) :
    image file l pos buf shared y = shared y := by
  induction l generalizing pos buf shared with
  | nil => rfl
  | cons sec l ih =>
    rw [image]
    split
    · rw [ih (by omega), store, if_neg (by omega)]
    · exact ih (by omega) buf shared

theorem bufferAfter_cons (sec : Section) (l : List Section) (buf : ℕ → Byte) :
    bufferAfter file (sec :: l) buf =
      bufferAfter file l (if sec.HasData then fill file sec buf else buf) := by
  by_cases hdata : sec.HasData <;> simp [bufferAfter, hdata]

theorem image_at (file : SourceFile) {sec : Section} (hdata : sec.HasData) (l l' : List Section)
    (pos : ℕ) (buf shared : ℕ → Byte) (hsize : sec.filemapSize ≤ sec.mapSize) {x : ℕ}
    (hx : x < sec.filemapSize) :
    image file (l ++ sec :: l') pos buf shared (pos + (l.map (·.mapSize)).sum + x) =
      bufferAfter file (l ++ [sec]) buf x := by
  induction l generalizing pos buf shared with
  | nil =>
    simp only [List.nil_append, List.map_nil, List.sum_nil, Nat.add_zero]
    rw [image, if_pos hdata, image_before _ (by omega), store, if_pos (by omega),
      Nat.add_sub_cancel_left, bufferAfter_cons, if_pos hdata]
    rfl
  | cons s l ih =>
    simp only [List.cons_append, List.map_cons, List.sum_cons, image]
    rw [bufferAfter_cons, ← Nat.add_assoc]
    split
    · exact ih _ _ _
    · exact ih _ _ _

/-- Reading the section fills the place of the byte `x` of the buffer. -/
def Section.Covers (sec : Section) (x : ℕ) : Prop :=
  sec.sizeOfRawData - sec.filemapSize ≤ x ∧ x < sec.sizeOfRawData

instance (sec : Section) (x : ℕ) : Decidable (sec.Covers x) := by
  unfold Section.Covers
  infer_instance

/-- The place in the source file of what is read there. -/
def Section.origin (sec : Section) (x : ℕ) : ℕ :=
  sec.pointerToRawData + (x - (sec.sizeOfRawData - sec.filemapSize))

/-- The last of the sections that fills the place of the byte `x` of the buffer. -/
def lastRead (l : List Section) (x : ℕ) : Option Section :=
  (l.filter (·.HasData)).reverse.find? (·.Covers x)

theorem fill_apply (sec : Section) (buf : ℕ → Byte) (x : ℕ) :
    fill file sec buf x = if sec.Covers x then file.byte (sec.origin x) else buf x := by
  have hle := filemapSize_le_raw sec
  unfold fill store Section.Covers Section.origin
  rw [Nat.sub_add_cancel hle]

theorem bufferAfter_apply (l : List Section) (buf : ℕ → Byte) (x : ℕ) :
    bufferAfter file l buf x = ((lastRead l x).map fun sec => file.byte (sec.origin x)).getD
      (buf x) := by
  unfold bufferAfter lastRead
  generalize l.filter (fun sec => decide sec.HasData) = m
  induction m using List.reverseRecOn with
  | nil => rfl
  | append_singleton m sec ih =>
    rw [List.foldl_append, List.foldl_cons, List.foldl_nil, fill_apply, List.reverse_append,
      List.reverse_singleton, List.singleton_append]
    by_cases hcov : sec.Covers x
    · simp [hcov]
    · simpa [hcov] using ih

end

/-! ## Which section tables are copied faithfully -/

/-- Nothing but the contents decides what happens, and no reading fails. -/
structure Env.Succeeds (e : Env) (shared : List Section) : Prop where
  existing : e.existing = none
  createTempFile : e.createTempFile = true
  growFile : e.growFile = true
  unixFd : e.unixFd = true
  mem : e.mem (maxSize shared) = true
  avail : ∀ n, 0 < e.avail n
  pwrite : e.pwrite = true

def sharedSections (secs : List Section) : List Section := secs.filter (·.IsShared)

/-- Whatever the file and the memory hold, no write leaves the buffer, and the shared file has the
bytes of each section that has some in the source file, behind the sections before it. -/
def Faithful (secs : List Section) : Prop :=
  ∀ (e : Env) (file : SourceFile) (garbage : ℕ → Byte), e.Succeeds (sharedSections secs) →
    file.Holds (sharedSections secs) → ∃ out, buildSharedMapping e file garbage secs = .ok out ∧
      out.ret = true ∧ ∀ l sec l', sharedSections secs = l ++ sec :: l' → sec.pointerToRawData ≠ 0 →
        ∀ x < sec.filemapSize, ∃ shared, out.sharedFile = some shared ∧
          shared ((l.map (·.mapSize)).sum + x) = file.byte (sec.pointerToRawData + x)

/-- If the buffer can be allocated at all, the sizes do not add up to 0, reading a section does not
leave the buffer, and what the first bytes of the buffer were last read from is the section. -/
def Undisturbed (secs : List Section) : Prop :=
  maxSize (sharedSections secs) ≤ ptrdiffMax →
    ((∃ sec ∈ sharedSections secs, sec.HasData) → totalSize (sharedSections secs) ≠ 0) ∧
    ∀ l sec l', sharedSections secs = l ++ sec :: l' → sec.HasData →
      sec.sizeOfRawData ≤ maxSize (sharedSections secs) ∧ ∀ x < sec.filemapSize, ∃ s,
        lastRead (l ++ [sec]) x = some s ∧ s.origin x = sec.pointerToRawData + x

section

variable {secs l l' : List Section} {sec : Section}

theorem le_foldr_max (f : Section → ℕ) (h : sec ∈ l) : f sec ≤ (l.map f).foldr max 0 := by
  induction l with
  | nil => cases h
  | cons s l ih =>
    rw [List.map_cons, List.foldr_cons]
    rcases List.mem_cons.mp h with rfl | h
    · exact Nat.le_max_left _ _
    · exact Nat.le_trans (ih h) (Nat.le_max_right _ _)

theorem le_roundSize {n : ℕ} (h : n ≤ ptrdiffMax) : n ≤ roundSize n := by
  unfold ptrdiffMax at h
  unfold roundSize pageSize
  omega

theorem filemapSize_le_mapSize (h : sec.filemapSize ≤ ptrdiffMax) :
    sec.filemapSize ≤ sec.mapSize := by
  unfold Section.filemapSize Section.mapSize at *
  split at h
  · rw [if_pos ‹_›, if_pos ‹_›]
    exact le_roundSize h
  · rw [if_neg ‹_›, if_neg ‹_›]
    exact Nat.min_le_right _ _

theorem buildSharedMapping_ok {e : Env} {file : SourceFile} {garbage f : ℕ → Byte}
    (he : e.Succeeds (sharedSections secs)) (htotal : totalSize (sharedSections secs) ≠ 0)
    (hcopy : copySections e file (maxSize (sharedSections secs)) (sharedSections secs) 0 0 garbage
      (fun _ => 0) = .ok (some f)) :
    buildSharedMapping e file garbage secs =
      .ok ⟨totalSize (sharedSections secs), some f, true⟩ := by
  unfold sharedSections at *
  simp only [buildSharedMapping, if_neg htotal, he.existing, he.createTempFile, he.growFile,
    he.unixFd, he.mem, Bool.true_eq_false, or_false, if_false, hcopy]
  rfl

theorem buildSharedMapping_error {e : Env} {file : SourceFile} {garbage : ℕ → Byte} {fault : Fault}
    (he : e.Succeeds (sharedSections secs)) (htotal : totalSize (sharedSections secs) ≠ 0)
    (hcopy : copySections e file (maxSize (sharedSections secs)) (sharedSections secs) 0 0 garbage
      (fun _ => 0) = .error fault) :
    buildSharedMapping e file garbage secs = .error fault := by
  unfold sharedSections at *
  simp only [buildSharedMapping, if_neg htotal, he.existing, he.createTempFile, he.growFile,
    he.unixFd, he.mem, Bool.true_eq_false, or_false, if_false, hcopy]
  rfl

theorem hasData_of_lt {x : ℕ} (hptr : sec.pointerToRawData ≠ 0) (hx : x < sec.filemapSize) :
    sec.HasData := ⟨hptr, by omega⟩

theorem faithful_of_undisturbed (h : Undisturbed secs) : Faithful secs := by
  intro e file garbage he hfile
  have hmax := e.mem_le _ he.mem
  obtain ⟨htotal, hsecs⟩ := h hmax
  by_cases hzero : totalSize (sharedSections secs) = 0
  · refine ⟨⟨0, none, true⟩, ?_, rfl, ?_⟩
    · unfold sharedSections at hzero
      simp only [buildSharedMapping, if_pos hzero]
    · intro l sec l' hsplit hptr x hx
      have hmem : sec ∈ sharedSections secs := by
        rw [hsplit]
        exact List.mem_append_cons_self
      exact absurd hzero (htotal ⟨sec, hmem, hasData_of_lt hptr hx⟩)
  · have hraw : ∀ sec ∈ sharedSections secs, sec.HasData →
        sec.sizeOfRawData ≤ maxSize (sharedSections secs) := by
      intro sec hsec hdata
      obtain ⟨l, l', hsplit⟩ := List.append_of_mem hsec
      exact (hsecs l sec l' hsplit hdata).1
    refine ⟨_, buildSharedMapping_ok he hzero
      (copySections_fits he.avail he.pwrite _ hfile hraw _ _ _ _), rfl, ?_⟩
    intro l sec l' hsplit hptr x hx
    have hdata := hasData_of_lt hptr hx
    refine ⟨_, rfl, ?_⟩
    have hmem : sec ∈ sharedSections secs := by
      rw [hsplit]
      exact List.mem_append_cons_self
    have hsize : sec.filemapSize ≤ sec.mapSize := by
      apply filemapSize_le_mapSize
      exact Nat.le_trans (le_foldr_max Section.filemapSize hmem) hmax
    obtain ⟨s, hs, horigin⟩ := (hsecs l sec l' hsplit hdata).2 x hx
    have hat := image_at file hdata l l' 0 garbage (fun _ => 0) hsize hx
    rw [Nat.zero_add] at hat
    rw [hsplit, hat, bufferAfter_apply, hs, Option.map_some, Option.getD_some, horigin]

/-- An environment in which everything succeeds. -/
def sampleEnv : Env where
  existing := none
  createTempFile := true
  growFile := true
  unixFd := true
  mem n := decide (n ≤ ptrdiffMax)
  mem_le _ h := of_decide_eq_true h
  avail _ := 0x1000
  pwrite := true

theorem sampleEnv_succeeds (h : maxSize l ≤ ptrdiffMax) : sampleEnv.Succeeds l :=
  ⟨rfl, rfl, rfl, rfl, decide_eq_true h, fun _ => Nat.succ_pos _, rfl⟩

/-- A file that has all sections, with a 1 at one place. -/
def markedFile (secs : List Section) (pos : ℕ) : SourceFile where
  size := (secs.map fun sec => sec.pointerToRawData + sec.filemapSize).foldr max 0
  byte p := if p = pos then 1 else 0

theorem undisturbed_of_faithful (h : Faithful secs) : Undisturbed secs := by
  intro hmax
  have hfile : ∀ pos, (markedFile (sharedSections secs) pos).Holds (sharedSections secs) :=
    fun pos sec hsec _ => le_foldr_max (fun sec => sec.pointerToRawData + sec.filemapSize) hsec
  have htotal : (∃ sec ∈ sharedSections secs, sec.HasData) → totalSize (sharedSections secs) ≠ 0 := by
    rintro ⟨sec, hsec, hdata⟩ hzero
    obtain ⟨out, hout, -, hplace⟩ := h sampleEnv (markedFile (sharedSections secs) 0) (fun _ => 0)
      (sampleEnv_succeeds hmax) (hfile 0)
    obtain ⟨l, l', hsplit⟩ := List.append_of_mem hsec
    obtain ⟨f, hf, -⟩ := hplace l sec l' hsplit hdata.1 0 (Nat.pos_of_ne_zero hdata.2)
    have hzero' : totalSize (secs.filter (·.IsShared)) = 0 := hzero
    simp only [buildSharedMapping, if_pos hzero', Except.ok.injEq] at hout
    rw [← hout] at hf
    cases hf
  refine ⟨htotal, ?_⟩
  intro l sec l' hsplit hdata
  have hmem : sec ∈ sharedSections secs := by
    rw [hsplit]
    exact List.mem_append_cons_self
  have hne := htotal ⟨sec, hmem, hdata⟩
  have hraw : ∀ s ∈ sharedSections secs, s.HasData → s.sizeOfRawData ≤ maxSize (sharedSections secs) := by
    intro s hs hsdata
    by_contra hlt
    obtain ⟨out, hout, -⟩ := h sampleEnv (markedFile (sharedSections secs) 0) (fun _ => 0)
      (sampleEnv_succeeds hmax) (hfile 0)
    rw [buildSharedMapping_error (sampleEnv_succeeds hmax) hne (copySections_overrun
      (fun _ => Nat.succ_pos _) rfl _ (hfile 0) ⟨s, hs, hsdata, Nat.lt_of_not_le hlt⟩ _ _ _ _)] at hout
    cases hout
  refine ⟨hraw sec hmem hdata, fun x hx => ?_⟩
  obtain ⟨out, hout, -, hplace⟩ := h sampleEnv (markedFile (sharedSections secs) (sec.pointerToRawData + x))
    (fun _ => 0) (sampleEnv_succeeds hmax) (hfile _)
  obtain ⟨f, hf, hbyte⟩ := hplace l sec l' hsplit hdata.1 x hx
  rw [buildSharedMapping_ok (sampleEnv_succeeds hmax) hne (copySections_fits
    (fun _ => Nat.succ_pos _) rfl _ (hfile _) hraw _ _ _ _)] at hout
  have hsize : sec.filemapSize ≤ sec.mapSize := by
    apply filemapSize_le_mapSize
    exact Nat.le_trans (le_foldr_max Section.filemapSize hmem) hmax
  have hat := image_at (markedFile (sharedSections secs) (sec.pointerToRawData + x)) hdata
    l l' 0 (fun _ => 0) (fun _ => 0) hsize hx
  rw [Nat.zero_add, bufferAfter_apply, ← hsplit] at hat
  rw [Except.ok.injEq] at hout
  rw [← hout, Option.some.injEq] at hf
  rw [← hf, hat] at hbyte
  cases hlast : lastRead (l ++ [sec]) x with
  | none =>
    rw [hlast] at hbyte
    simp [markedFile] at hbyte
  | some s =>
    refine ⟨s, rfl, ?_⟩
    rw [hlast] at hbyte
    simpa [markedFile] using hbyte

theorem faithful_iff (secs : List Section) : Faithful secs ↔ Undisturbed secs :=
  ⟨undisturbed_of_faithful, faithful_of_undisturbed⟩

end

/-- A section of one page with two pages of raw data. -/
def sampleSection : Section := ⟨0x1000, 0x2000, 0x400, imageScnMemShared ||| imageScnMemWrite⟩

theorem not_faithful_long_raw : ¬ Faithful [sampleSection] := by
  intro h
  have hshared : sharedSections [sampleSection] = [] ++ sampleSection :: [] := by decide
  obtain ⟨-, hsecs⟩ := undisturbed_of_faithful h (by decide)
  have hraw := (hsecs [] sampleSection [] hshared (by decide)).1
  revert hraw
  decide

end Wine.Mapping
