import Wine.Paths.Collapsed
import Wine.Paths.DosNames

/-!
# Full path names

The helper checks that the path fits before it is normalized, and the caller tries again with a block
of the size that was asked for. What is written is kept by its extent in bytes and by the string that
the buffer holds then. An access behind a string stops the model.
-/

namespace Wine.Paths

/-- The current directory: a drive with a backslash, or a share. -/
structure CurrentDirectory where
  buffer : List WChar
  two_le : 2 ≤ buffer.length
  drive : charAt buffer 1 = colon → 3 ≤ buffer.length

/-- What the functions read: the current directory, the environment, and the drive for a Unix path
with the number of characters that its root takes. -/
structure System where
  cd : CurrentDirectory
  env : List WChar → Option (List WChar)
  findDriveRoot : (path : List WChar) → Option (Fin 26 × Fin (path.length + 1))

/-- What was written to a buffer. -/
structure Written where
  extent : ℕ
  content : List WChar
  deriving DecidableEq

/-- A returned value, what was written to the buffer, and for each block that was allocated its size
and the extent of what was written to it. -/
structure Effect where
  result : ℕ
  buffer : Option Written
  blocks : List (ℕ × ℕ)
  deriving DecidableEq

/-- `skip_unc_prefix`: the length of the prefix. -/
def skipUncPrefix (path : List WChar) : ℕ :=
  let share := (path.drop 2).dropWhile fun c => !isSeparator c
  let dir := (share.dropWhile isSeparator).dropWhile fun c => !isSeparator c
  path.length - (dir.dropWhile isSeparator).length

/-- What is put before the name, how many characters of the name are left out, and the mark. -/
structure Layout where
  insert : List WChar
  dep : ℕ
  mark : ℕ
  blocks : List (ℕ × ℕ)

variable (sys : System)

/-- The layout of a path relative to the current directory. -/
def relativeLayout (dep : ℕ) : Layout :=
  ⟨sys.cd.buffer, dep, if charAt sys.cd.buffer 1 ≠ colon then skipUncPrefix sys.cd.buffer else 3, []⟩

/-- The name is relative to the directory of a drive that is not the current one. -/
def OtherDrive (name : List WChar) : Prop :=
  wineCaseMap.toupperW (charAt name 0) ≠ wineCaseMap.toupperW (charAt sys.cd.buffer 0) ∨
    charAt sys.cd.buffer 1 ≠ colon

instance (name : List WChar) : Decidable (OtherDrive sys name) := by
  unfold OtherDrive
  infer_instance

/-- The name of the variable with the directory of a drive. -/
def driveVariable (name : List WChar) : List WChar := [0x3d#16, charAt name 0, colon]

/-- `RtlQueryEnvironmentVariable_U` with a block of `size` bytes: the length of the value, what is
written, and the value if it fits. -/
def queryVariable (value : List WChar) (size : ℕ) : ℕ × ℕ × Option (List WChar) :=
  let length := 2 * value.length % 0x10000
  let maximum := size % 0x10000
  if length ≤ maximum then (length, min (length + 2) maximum, some (value.take (length / 2)))
  else (length, 0, none)

/-- The switch on the type of the path. -/
def layout (name : List WChar) (size : ℕ) : Option Layout :=
  match rtlDetermineDosPathNameType name with
  | .uncPath => some ⟨[], 0, skipUncPrefix name, []⟩
  | .devicePath => some ⟨[], 0, 4, []⟩
  | .absoluteDrivePath => some ⟨[wineCaseMap.toupperW (charAt name 0)], 1, 3, []⟩
  | .relativeDrivePath =>
    if OtherDrive sys name then
      match sys.env (driveVariable name) with
      | some value =>
        -- a backslash is written behind the value
        match queryVariable value size with
        | (length, extent, some value) =>
          some ⟨value ++ [backslash], 2, 3, [(size, max extent (length + 2))]⟩
        | (length, _, none) =>
          if length + 2 + 2 * (name.length - 2) + 2 ≤ size then none
          else some ⟨List.replicate (length / 2 + 1) 0#16, 2, 3, [(size, length + 2)]⟩
      | none => some ⟨[charAt name 0, colon, backslash], 2, 3, [(size, 0)]⟩
    else some (relativeLayout sys 2)
  | .relativePath => some (relativeLayout sys 0)
  | .absolutePath =>
    match if charAt name 0 = slash then sys.findDriveRoot name else none with
    | some (drive, dep) => some ⟨[0x41#16 + BitVec.ofNat 16 drive, colon, backslash], dep, 3, []⟩
    | none =>
      if charAt sys.cd.buffer 1 = colon then some ⟨[charAt sys.cd.buffer 0, colon], 0, 3, []⟩
      else
        some ⟨sys.cd.buffer.take (skipUncPrefix sys.cd.buffer), 0, skipUncPrefix sys.cd.buffer, []⟩
  | .uncDotPath => some ⟨[backslash, backslash, dot, backslash], 3, 4, []⟩

/-- The path before it is normalized. -/
def Layout.path (l : Layout) (name : List WChar) : List WChar := l.insert ++ name.drop l.dep

/-- `get_full_path_helper` -/
def getFullPathHelper (name : List WChar) (size : ℕ) : Option Effect :=
  if name.all fun c => c = space then some ⟨0, none, []⟩
  else do
    let l ← layout sys name size
    let path := l.path name
    if size < 2 * path.length + 2 then return ⟨2 * path.length + 2, none, l.blocks⟩
    else if path.length < l.mark then none
    else
      let collapsed ← collapsePath path.length path l.mark
      return ⟨2 * collapsed.length, some ⟨2 * path.length + 2, collapsed⟩, l.blocks⟩

/-- `RtlGetFullPathName_U` -/
def rtlGetFullPathName (name : List WChar) (size : ℕ) : Option Effect :=
  if name = [] then some ⟨0, none, []⟩
  else
    match rtlIsDosDeviceName name with
    | some (sz, offset) =>
      if size < 8 + sz + 2 then some ⟨sz + 10, none, []⟩
      else
        let device := (name.drop (offset / 2)).take (sz / 2)
        some ⟨sz + 8, some ⟨8 + sz + 2, wide "\\\\.\\" ++ device⟩, []⟩
    | none => do
      let first ← getFullPathHelper sys name size
      if size < first.result then
        let second ← getFullPathHelper sys name first.result
        match second.buffer with
        | none => none
        | some tmp =>
          let blocks := first.blocks ++ second.blocks ++ [(first.result, tmp.extent)]
          if size < second.result then return ⟨second.result + 2, none, blocks⟩
          else return ⟨second.result, some ⟨second.result + 2, tmp.content⟩, blocks⟩
      else return first

/-- The value and a backslash behind it are inside a block of `size` bytes, and the mark is inside the
path. -/
structure Held (name value : List WChar) (size : ℕ) : Prop where
  mark : 4 ≤ value.length + name.length
  block : 2 * value.length + 2 ≤ size
  maximum : 2 * value.length ≤ size % 0x10000

/-- The directory of another drive, if it is read, is held by the block for it. -/
def DriveHeld (name : List WChar) (size : ℕ) : Prop :=
  rtlDetermineDosPathNameType name = .relativeDrivePath → OtherDrive sys name →
    ∀ value, sys.env (driveVariable name) = some value → Held name value size

/-- The normalized path fits without its terminator only. -/
def Tight (name : List WChar) (size : ℕ) : Prop := ∃ first second,
  getFullPathHelper sys name size = some first ∧ size < first.result ∧
    getFullPathHelper sys name first.result = some second ∧
      second.result ≤ size ∧ size < second.result + 2

/-- The blocks hold what is written to them, and the terminator of the path is counted. -/
structure Served (name : List WChar) (size : ℕ) : Prop where
  held : DriveHeld sys name size
  again : ∀ first, getFullPathHelper sys name size = some first → size < first.result →
    DriveHeld sys name first.result
  not_tight : ¬Tight sys name size

/-- What a call with a buffer of `size` bytes may write. -/
structure Respects (size : ℕ) (e : Effect) : Prop where
  extent_le : ∀ w, e.buffer = some w → w.extent ≤ size
  content : 0 < e.result → e.result < size →
    ∃ w, e.buffer = some w ∧ 2 * w.content.length = e.result ∧ e.result + 2 ≤ w.extent
  untouched : e.result = 0 ∨ size ≤ e.result → e.buffer = none
  blocks : ∀ b ∈ e.blocks, b.2 ≤ b.1

variable {sys} {name path : List WChar} {size : ℕ}

theorem skipUncPrefix_le : skipUncPrefix path ≤ path.length := Nat.sub_le _ _

theorem two_le_skipUncPrefix (h : 2 ≤ path.length) : 2 ≤ skipUncPrefix path := by
  rw [skipUncPrefix]
  have hdrop (l : List WChar) (p : WChar → Bool) : (l.dropWhile p).length ≤ l.length :=
    (List.dropWhile_suffix p).length_le
  have hlen : (path.drop 2).length = path.length - 2 := List.length_drop
  have hshare := hdrop (path.drop 2) fun c => !isSeparator c
  have hseps := hdrop ((path.drop 2).dropWhile fun c => !isSeparator c) isSeparator
  have hdir := hdrop (((path.drop 2).dropWhile fun c => !isSeparator c).dropWhile isSeparator)
    fun c => !isSeparator c
  have hlast := hdrop ((((path.drop 2).dropWhile fun c => !isSeparator c).dropWhile
    isSeparator).dropWhile fun c => !isSeparator c) isSeparator
  omega

theorem length_path (l : Layout) :
    (l.path name).length = l.insert.length + (name.length - l.dep) := by
  rw [Layout.path, List.length_append, List.length_drop]

/-- The mark is inside the path. -/
def Layout.Marked (l : Layout) (name : List WChar) : Prop :=
  0 < l.mark ∧ l.mark ≤ (l.path name).length

theorem relativeLayout_marked (dep : ℕ) : (relativeLayout sys dep).Marked name := by
  have htwo := sys.cd.two_le
  rw [Layout.Marked, length_path]
  dsimp only [relativeLayout]
  split
  · have hle : skipUncPrefix sys.cd.buffer ≤ sys.cd.buffer.length := skipUncPrefix_le
    have hpos := two_le_skipUncPrefix htwo
    omega
  · next h =>
    have hthree := sys.cd.drive (not_not.mp h)
    omega

theorem queryVariable_held {value : List WChar} (h : Held name value size) :
    queryVariable value size =
      (2 * value.length, min (2 * value.length + 2) (size % 0x10000), some value) := by
  have hmax := h.maximum
  have hlen : 2 * value.length % 0x10000 = 2 * value.length := by omega
  have hhalf : 2 * value.length / 2 = value.length := by omega
  rw [queryVariable, hlen]
  rw [if_pos hmax, hhalf, List.take_length]

/-- Only the block depends on the size. -/
theorem layout_spec (sys : System) (name : List WChar) : ∃ l : Layout, l.Marked name ∧
    ∀ size, DriveHeld sys name size → ∃ blocks,
      layout sys name size = some { l with blocks := blocks } ∧ ∀ b ∈ blocks, b.2 ≤ b.1 := by
  have hleast : (rtlDetermineDosPathNameType name).least ≤ name.length := least_le
  have hnone : ∀ b ∈ ([] : List (ℕ × ℕ)), b.2 ≤ b.1 := fun _ h => absurd h List.not_mem_nil
  cases htype : rtlDetermineDosPathNameType name with
  | uncPath =>
    rw [htype, DosPathnameType.least] at hleast
    refine ⟨⟨[], 0, skipUncPrefix name, []⟩, ⟨?_, ?_⟩, fun size _ => ⟨[], ?_, hnone⟩⟩
    · exact Nat.lt_of_lt_of_le Nat.zero_lt_two (two_le_skipUncPrefix hleast)
    · rw [length_path]
      simpa using skipUncPrefix_le
    · rw [layout, htype]
  | devicePath =>
    rw [htype, DosPathnameType.least] at hleast
    refine ⟨⟨[], 0, 4, []⟩, ⟨Nat.zero_lt_succ _, ?_⟩, fun size _ => ⟨[], ?_, hnone⟩⟩
    · rw [length_path]
      simpa using hleast
    · rw [layout, htype]
  | absoluteDrivePath =>
    rw [htype, DosPathnameType.least] at hleast
    refine ⟨⟨[wineCaseMap.toupperW (charAt name 0)], 1, 3, []⟩, ⟨Nat.zero_lt_succ _, ?_⟩,
      fun size _ => ⟨[], ?_, hnone⟩⟩
    · rw [length_path]
      simp only [List.length_cons, List.length_nil]
      omega
    · rw [layout, htype]
  | relativeDrivePath =>
    rw [htype, DosPathnameType.least] at hleast
    by_cases hother : OtherDrive sys name
    · cases henv : sys.env (driveVariable name) with
      | none =>
        refine ⟨⟨[charAt name 0, colon, backslash], 2, 3, []⟩, ⟨Nat.zero_lt_succ _, ?_⟩,
          fun size _ => ⟨[(size, 0)], ?_, ?_⟩⟩
        · rw [length_path]
          exact Nat.le_add_right _ _
        · rw [layout, htype]
          dsimp only
          rw [if_pos hother, henv]
        · intro b hb
          rw [List.mem_singleton.mp hb]
          exact Nat.zero_le size
      | some value =>
        by_cases hmark : 4 ≤ value.length + name.length
        · refine ⟨⟨value ++ [backslash], 2, 3, []⟩, ⟨Nat.zero_lt_succ _, ?_⟩, fun size hheld => ?_⟩
          · rw [length_path, List.length_append, List.length_singleton]
            dsimp only
            omega
          · have h := hheld htype hother value henv
            have hblock := h.block
            refine ⟨[(size, max (min (2 * value.length + 2) (size % 0x10000)) (2 * value.length + 2))],
              ?_, ?_⟩
            · rw [layout, htype]
              dsimp only
              rw [if_pos hother, henv]
              dsimp only
              rw [queryVariable_held h]
            · intro b hb
              rw [List.mem_singleton.mp hb]
              dsimp only
              omega
        · -- no block holds the value
          refine ⟨relativeLayout sys 2, relativeLayout_marked 2, fun size hheld => ?_⟩
          exact absurd (hheld htype hother value henv).mark hmark
    · refine ⟨relativeLayout sys 2, relativeLayout_marked 2, fun size _ => ⟨[], ?_, hnone⟩⟩
      rw [layout, htype]
      dsimp only
      rw [if_neg hother]
      rfl
  | relativePath =>
    refine ⟨relativeLayout sys 0, relativeLayout_marked 0, fun size _ => ⟨[], ?_, hnone⟩⟩
    rw [layout, htype]
    rfl
  | absolutePath =>
    rw [htype, DosPathnameType.least] at hleast
    have hcd := sys.cd.two_le
    cases hroot : if charAt name 0 = slash then sys.findDriveRoot name else none with
    | some root =>
      refine ⟨⟨[0x41#16 + BitVec.ofNat 16 root.1, colon, backslash], root.2, 3, []⟩,
        ⟨Nat.zero_lt_succ _, ?_⟩, fun size _ => ⟨[], ?_, hnone⟩⟩
      · rw [length_path]
        exact Nat.le_add_right _ _
      · rw [layout, htype]
        dsimp only
        rw [hroot]
    | none =>
      by_cases hdrive : charAt sys.cd.buffer 1 = colon
      · refine ⟨⟨[charAt sys.cd.buffer 0, colon], 0, 3, []⟩, ⟨Nat.zero_lt_succ _, ?_⟩,
          fun size _ => ⟨[], ?_, hnone⟩⟩
        · rw [length_path]
          simp only [List.length_cons, List.length_nil]
          omega
        · rw [layout, htype]
          dsimp only
          rw [hroot]
          exact if_pos hdrive
      · refine ⟨⟨sys.cd.buffer.take (skipUncPrefix sys.cd.buffer), 0, skipUncPrefix sys.cd.buffer, []⟩,
          ⟨?_, ?_⟩, fun size _ => ⟨[], ?_, hnone⟩⟩
        · exact Nat.lt_of_lt_of_le Nat.zero_lt_two (two_le_skipUncPrefix hcd)
        · rw [length_path, List.length_take, Nat.min_eq_left skipUncPrefix_le]
          exact Nat.le_add_right _ _
        · rw [layout, htype]
          dsimp only
          rw [hroot]
          exact if_neg hdrive
  | uncDotPath =>
    refine ⟨⟨[backslash, backslash, dot, backslash], 3, 4, []⟩, ⟨Nat.zero_lt_succ _, ?_⟩,
      fun size _ => ⟨[], ?_, hnone⟩⟩
    · rw [length_path]
      exact Nat.le_add_right _ _
    · rw [layout, htype]

/-- The helper asks for the size of the path before it is normalized, or has normalized it. -/
theorem getFullPathHelper_spec (sys : System) (name : List WChar)
    (hname : ¬(name.all fun c => c = space) = true) :
    ∃ path collapsed : List WChar, 0 < collapsed.length ∧ collapsed.length ≤ path.length ∧
      ∀ size, DriveHeld sys name size → ∃ blocks, (∀ b ∈ blocks, b.2 ≤ b.1) ∧
        getFullPathHelper sys name size = some (if size < 2 * path.length + 2 then
          ⟨2 * path.length + 2, none, blocks⟩
        else ⟨2 * collapsed.length, some ⟨2 * path.length + 2, collapsed⟩, blocks⟩) := by
  obtain ⟨l, ⟨hpos, hmark⟩, hl⟩ := layout_spec sys name
  obtain ⟨collapsed, hcollapsed, hge, hle⟩ := collapsePath_length hmark
  refine ⟨l.path name, collapsed, Nat.lt_of_lt_of_le hpos hge, hle, fun size hheld => ?_⟩
  obtain ⟨blocks, hlayout, hblocks⟩ := hl size hheld
  refine ⟨blocks, hblocks, ?_⟩
  have hpath : ({ l with blocks := blocks } : Layout).path name = l.path name := rfl
  rw [getFullPathHelper, if_neg hname, hlayout]
  dsimp only [Option.bind_eq_bind, Option.bind_some]
  rw [hpath]
  split
  · rfl
  · rw [if_neg (Nat.not_lt.mpr hmark), hcollapsed]
    rfl

/-- A call with `size` bytes where `need` bytes are needed. -/
structure Answers (need size : ℕ) (e : Effect) : Prop where
  short : size < need → e.result = need ∧ e.buffer = none
  fits : need ≤ size → e.result + 2 = need ∧ ∃ w, e.buffer = some w ∧
    2 * w.content.length = e.result ∧ need ≤ w.extent ∧ w.extent ≤ size
  blocks : ∀ b ∈ e.blocks, b.2 ≤ b.1

theorem Answers.respects {need : ℕ} {e : Effect} (h : Answers need size e) (hneed : 2 < need) :
    Respects size e := by
  by_cases hsize : size < need
  · obtain ⟨hresult, hbuffer⟩ := h.short hsize
    refine ⟨?_, ?_, fun _ => hbuffer, h.blocks⟩
    · intro w hw
      rw [hbuffer] at hw
      exact nomatch hw
    · intro _ hlt
      omega
  · obtain ⟨hresult, w, hw, hcontent, hge, hle⟩ := h.fits (Nat.le_of_not_lt hsize)
    refine ⟨?_, fun _ _ => ⟨w, hw, hcontent, hresult ▸ hge⟩, ?_, h.blocks⟩
    · intro w' hw'
      rw [hw] at hw'
      exact Option.some.inj hw' ▸ hle
    · intro hor
      omega

/-- A device name is put behind the root of the devices. -/
theorem device_answers {sz offset : ℕ} (hne : name ≠ [])
    (h : rtlIsDosDeviceName name = some (sz, offset)) (size : ℕ) : ∃ e, rtlGetFullPathName sys name size = some e ∧ Answers (sz + 10) size e := by
  have hnone : ∀ b ∈ ([] : List (ℕ × ℕ)), b.2 ≤ b.1 := fun _ h => absurd h List.not_mem_nil
  obtain ⟨hsz, hbound⟩ := rtlIsDosDeviceName_bounds h
  rw [rtlGetFullPathName, if_neg hne, h]
  dsimp only
  split
  · next hlt =>
    refine ⟨_, rfl, fun _ => ⟨rfl, rfl⟩, fun hle => ?_, hnone⟩
    omega
  · next hge =>
    refine ⟨_, rfl, fun hlt => ?_, fun _ => ⟨rfl, _, rfl, ?_, ?_, ?_⟩, hnone⟩
    · omega
    · have hroot : (wide "\\\\.\\").length = 4 := by decide
      have htake : ((name.drop (offset / 2)).take (sz / 2)).length = sz / 2 := by
        rw [List.length_take, List.length_drop]
        omega
      dsimp only
      rw [List.length_append, hroot, htake]
      omega
    · dsimp only
      omega
    · dsimp only
      omega

/-- The path is copied from the second block if it got short enough. -/
theorem helper_answers (hne : name ≠ []) (hdevice : rtlIsDosDeviceName name = none)
    (hname : ¬(name.all fun c => c = space) = true) : ∃ need, 2 < need ∧
    ∀ size, Served sys name size → ∃ e, rtlGetFullPathName sys name size = some e ∧ Answers need size e := by
  obtain ⟨path, collapsed, hpos, hle, hspec⟩ := getFullPathHelper_spec sys name hname
  refine ⟨2 * collapsed.length + 2, by omega, fun size hserved => ?_⟩
  obtain ⟨blocks, hblocks, hfirst⟩ := hspec size hserved.held
  rw [rtlGetFullPathName, if_neg hne, hdevice]
  dsimp only
  by_cases hsize : size < 2 * path.length + 2
  · rw [if_pos hsize] at hfirst
    obtain ⟨blocks', hblocks', hsecond⟩ := hspec _ (hserved.again _ hfirst hsize)
    rw [if_neg (Nat.lt_irrefl _)] at hsecond
    have htight : ¬(2 * collapsed.length ≤ size ∧ size < 2 * collapsed.length + 2) := fun h =>
      hserved.not_tight ⟨_, _, hfirst, hsize, hsecond, h.1, h.2⟩
    have hall : ∀ b ∈ blocks ++ blocks' ++ [(2 * path.length + 2, 2 * path.length + 2)], b.2 ≤ b.1 := by
      intro b hb
      rcases List.mem_append.mp hb with hb | hb
      · rcases List.mem_append.mp hb with hb | hb
        · exact hblocks b hb
        · exact hblocks' b hb
      · rw [List.mem_singleton.mp hb]
    rw [hfirst]
    dsimp only [Option.bind_eq_bind, Option.bind_some]
    rw [if_pos hsize, hsecond]
    dsimp only [Option.bind_some]
    split
    · next hlt =>
      refine ⟨_, rfl, fun _ => ⟨rfl, rfl⟩, fun hge => ?_, hall⟩
      omega
    · next hge =>
      refine ⟨_, rfl, fun hlt => ?_, fun hge => ⟨rfl, _, rfl, rfl, Nat.le_refl _, hge⟩, hall⟩
      omega
  · rw [if_neg hsize] at hfirst
    rw [hfirst]
    dsimp only [Option.bind_eq_bind, Option.bind_some]
    have hfit : ¬size < 2 * collapsed.length := by omega
    rw [if_neg hfit]
    refine ⟨_, rfl, fun hlt => ?_, fun _ => ⟨rfl, _, rfl, rfl, ?_, ?_⟩, hblocks⟩
    · omega
    · dsimp only
      omega
    · dsimp only
      omega

theorem respects_zero : Respects size ⟨0, none, []⟩ :=
  ⟨fun _ h => (nomatch h), fun h => absurd h (Nat.lt_irrefl 0), fun _ => rfl,
    fun _ h => absurd h List.not_mem_nil⟩

/-- A call respects the buffer, and a call with the size that it asks for succeeds. -/
theorem rtlGetFullPathName_respects (sys : System) (name : List WChar) (size : ℕ)
    (hserved : rtlIsDosDeviceName name = none → Served sys name size) :
    ∃ e, rtlGetFullPathName sys name size = some e ∧ Respects size e ∧
      (e.result = 0 → name.all fun c => c = space) ∧
      (0 < e.result → size ≤ e.result →
        (rtlIsDosDeviceName name = none → Served sys name e.result) →
        ∃ e', rtlGetFullPathName sys name e.result = some e' ∧ Respects e.result e' ∧
          0 < e'.result ∧ e'.result < e.result) := by
  by_cases hne : name = []
  · subst hne
    exact ⟨_, rfl, respects_zero, fun _ => rfl, fun h => absurd h (Nat.lt_irrefl 0)⟩
  by_cases hspaces : rtlIsDosDeviceName name = none ∧ (name.all fun c => c = space) = true
  · obtain ⟨hdevice, hname⟩ := hspaces
    refine ⟨⟨0, none, []⟩, ?_, respects_zero, fun _ => hname, fun h => absurd h (Nat.lt_irrefl 0)⟩
    rw [rtlGetFullPathName, if_neg hne, hdevice]
    dsimp only
    rw [getFullPathHelper, if_pos hname]
    rfl
  obtain ⟨need, hneed, hcall⟩ : ∃ need, 2 < need ∧ ∀ size,
      (rtlIsDosDeviceName name = none → Served sys name size) →
        ∃ e, rtlGetFullPathName sys name size = some e ∧ Answers need size e := by
    cases hdevice : rtlIsDosDeviceName name with
    | some device => exact ⟨device.1 + 10, by omega, fun size _ => device_answers hne hdevice size⟩
    | none =>
      obtain ⟨need, hneed, hcall⟩ := helper_answers hne hdevice fun hname => hspaces ⟨hdevice, hname⟩
      exact ⟨need, hneed, fun size h => hcall size (h rfl)⟩
  obtain ⟨e, he, hanswers⟩ := hcall size hserved
  have hresult : e.result = need ∧ size < need ∨ e.result + 2 = need ∧ need ≤ size := by
    by_cases hsize : size < need
    · exact Or.inl ⟨(hanswers.short hsize).1, hsize⟩
    · exact Or.inr ⟨(hanswers.fits (Nat.le_of_not_lt hsize)).1, Nat.le_of_not_lt hsize⟩
  refine ⟨e, he, hanswers.respects hneed, fun h => ?_, fun _ hsize hagain => ?_⟩
  · omega
  · have heq : e.result = need := by omega
    obtain ⟨e', he', hanswers'⟩ := hcall e.result hagain
    obtain ⟨hresult', -⟩ := hanswers'.fits (Nat.le_of_eq heq.symm)
    exact ⟨e', he', hanswers'.respects hneed, by omega, by omega⟩

section Samples

theorem drive_sample : charAt (wide "C:\\") 1 = colon → 3 ≤ (wide "C:\\").length := by decide

theorem two_le_sample : 2 ≤ (wide "C:\\").length := by decide

/-- The root of a drive, and a directory on another drive. -/
def sampleSystem : System where
  cd := ⟨wide "C:\\", two_le_sample, drive_sample⟩
  env v := if v = wide "=D:" then some (wide "D:\\dir") else none
  findDriveRoot _ := none

theorem driveHeld_sample (hsize : 14 ≤ size) (hlt : size < 0x10000) :
    DriveHeld sampleSystem (wide "D:foo") size := by
  intro _ _ value hvalue
  have henv : sampleSystem.env (driveVariable (wide "D:foo")) = some (wide "D:\\dir") := by decide
  rw [henv] at hvalue
  obtain rfl := Option.some.inj hvalue
  have hlen : (wide "D:\\dir").length = 6 := by decide
  refine ⟨by decide, ?_, ?_⟩
  · rw [hlen]
    exact hsize
  · rw [hlen, Nat.mod_eq_of_lt hlt]
    omega

theorem calls_sample :
    getFullPathHelper sampleSystem (wide "D:foo") 16 = some ⟨22, none, [(16, 14)]⟩ ∧
      getFullPathHelper sampleSystem (wide "D:foo") 22 =
        some ⟨20, some ⟨22, wide "D:\\dir\\foo"⟩, [(22, 14)]⟩ ∧
      rtlGetFullPathName sampleSystem (wide "D:foo") 16 =
        some ⟨22, none, [(16, 14), (22, 14), (22, 22)]⟩ := by
  decide +kernel

theorem served_short_sample : Served sampleSystem (wide "D:foo") 16 := by
  refine ⟨driveHeld_sample (by decide) (by decide), fun first h _ => ?_, ?_⟩
  · obtain rfl := Option.some.inj (calls_sample.1.symm.trans h)
    exact driveHeld_sample (by decide) (by decide)
  · rintro ⟨first, second, hfirst, -, hsecond, hle, -⟩
    obtain rfl := Option.some.inj (calls_sample.1.symm.trans hfirst)
    obtain rfl := Option.some.inj (calls_sample.2.1.symm.trans hsecond)
    exact absurd hle (by decide)

theorem served_sample : Served sampleSystem (wide "D:foo") 22 := by
  refine ⟨driveHeld_sample (by decide) (by decide), fun first h hlt => ?_, ?_⟩
  · obtain rfl := Option.some.inj (calls_sample.2.1.symm.trans h)
    exact absurd hlt (by decide)
  · rintro ⟨first, second, hfirst, hlt, -⟩
    obtain rfl := Option.some.inj (calls_sample.2.1.symm.trans hfirst)
    exact absurd hlt (by decide)

/-- The buffer is too short, and the size that is returned is enough. -/
theorem rtlGetFullPathName_respects_sample : ∃ e e',
    rtlGetFullPathName sampleSystem (wide "D:foo") 16 = some e ∧ Respects 16 e ∧
      rtlGetFullPathName sampleSystem (wide "D:foo") e.result = some e' ∧ Respects e.result e' ∧
        0 < e'.result ∧ e'.result < e.result := by
  obtain ⟨e, he, hrespects, -, hagain⟩ :=
    rtlGetFullPathName_respects sampleSystem (wide "D:foo") 16 fun _ => served_short_sample
  have heq := Option.some.inj (calls_sample.2.2.symm.trans he)
  have hresult : e.result = 22 := by rw [← heq]
  obtain ⟨e', he', hrespects', hpos, hlt⟩ :=
    hagain (by omega) (by omega) fun _ => hresult ▸ served_sample
  exact ⟨e, e', he, hrespects, he', hrespects', hpos, hlt⟩

/-- For a space nothing is written. Behind eight bytes the terminator of a path of eight bytes is
written, and a backslash behind twelve bytes of a block of four. -/
theorem not_rtlGetFullPathName_respects :
    rtlGetFullPathName sampleSystem [space] 8 = some ⟨0, none, []⟩ ∧
      rtlGetFullPathName sampleSystem (wide "C:\\aa\\..\\b") 8 =
        some ⟨8, some ⟨10, wide "C:\\b"⟩, [(22, 22)]⟩ ∧
      rtlGetFullPathName sampleSystem (wide "D:foo") 4 =
        some ⟨22, none, [(4, 14), (22, 14), (22, 22)]⟩ := by
  decide +kernel

end Samples

end Wine.Paths
