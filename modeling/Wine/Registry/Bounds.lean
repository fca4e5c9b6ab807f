import Wine.Registry.LastWrite
import Wine.Registry.ScanSpecs

/-!
# Where loading a file reads

A load of a registry file with every read of the buffer that holds the line. Loads are written over
the functions that read a line and scan it, and run with two sets of them: the functions of the
source, which report a read outside the string in the buffer, and functions that test what they are
called with and then read nothing outside.
-/

namespace Wine.Registry
open Wine.Lib

/-- The string that a buffer holds. -/
@[ext] structure Text where
  bytes : List Byte
  plain : Plain bytes

namespace Text

/-- What a pointer points to. -/
def of (p : List Byte) : Text :=
  ⟨cString p, fun _ hc => plain_cString p _ hc⟩

/-- `p + n`, for a pointer that stays in the string. -/
def drop (t : Text) (n : ℕ) : Text := ⟨t.bytes.drop n, t.plain.drop n⟩

def trim (t : Text) : Text := of (t.bytes.dropWhile isspace)

end Text

/-- A read outside the string in the buffer, a loop that has used up its rounds, or a fault of a
function that is called. -/
inductive LoadFault where
  | outside
  | spent
  | fault (e : Fault)

abbrev LoadM := Exec State LoadFault

def call {α : Type} (m : M α) : LoadM α := fun s =>
  match m s with
  | .ok r => .ok r
  | .error e => .error (.fault e)

/-- Run a scanner on a string. -/
def scan {α : Type} (m : Scan α) (t : Text) : LoadM (α × Text) :=
  match m (t.bytes ++ [0]) with
  | .ok (a, p) => pure (a, .of p)
  | .error _ => throw .outside

/-- What a scanner has found, and what follows it. -/
def found {α : Type} (r : Option α × Text) : Option (α × Text) := r.1.map fun a => (a, r.2)

/-! ## Lines -/

/-- `info`: the length of the buffer and what is left of the file. -/
structure Source where
  len : ℕ
  file : List Byte
  room : 2 ≤ len

/-- What `fgets` takes from the file: at most `n` bytes, and none after a line feed. -/
def fgets : ℕ → List Byte → List Byte
  | 0, _ => []
  | _, [] => []
  | n + 1, c :: file => if c = ascii '\n' then [c] else c :: fgets n file

/-- `realloc`: a length that does not fit an `int` is too large. -/
def enlarge (newlen : ℕ) : M Bool :=
  if newlen < 2147483648 then memAlloc
  else do
    setError .noMemory
    pure false

/-- The line in the buffer without the line feed at `pos`, and without a carriage return before it. -/
def stripLine (buffer : List Byte) (pos : ℕ) : Text :=
  if 0 < pos ∧ buffer.getD (pos - 1) 0 = ascii '\r' then .of (buffer.take (pos - 1))
  else .of (buffer.take pos)

section
variable (last : List Byte → ℤ → LoadM Byte)

/-- The loop of `read_next_line`; `pre` is what the buffer holds before `pos`, and `last` reads a
character of the buffer. -/
def readLoop : ℕ → List Byte → Source → LoadM (Option Text × Source)
  | 0, _, _ => throw .spent
  | fuel + 1, pre, info =>
    if info.file = [] then pure (if pre ≠ [] then some (.of pre) else none, info)
    else do
      let chunk := fgets (info.len - pre.length - 1) info.file
      let info := { info with file := info.file.drop chunk.length }
      let buffer := pre ++ chunk ++ [0]
      let pos := strlen buffer
      if (← last buffer (pos - 1)) = ascii '\n' then
        pure (some (stripLine buffer (pos - 1)), info)
      else if pos < info.len - 1 then pure (some (.of buffer), info)
      else if (← call (enlarge (info.len + info.len / 2))) then
        readLoop fuel (cString buffer)
          ⟨info.len + info.len / 2, info.file, Nat.le_add_right_of_le info.room⟩
      else pure (none, info)

end

/-- `buffer[i]`. -/
def readBuffer (buffer : List Byte) (i : ℤ) : LoadM Byte :=
  if i < 0 then throw .outside
  else
    match buffer[i.toNat]? with
    | none => throw .outside
    | some c => pure c

/-! ## Loading -/

/-- The functions that a load reads with. -/
@[ext] structure Reader where
  nextLine : ℕ → Source → LoadM (Option Text × Source)
  strW : ℕ → Text → Byte → LoadM (Option (List WChar × Text))
  hex : ℕ → Text → LoadM (Option (List Byte × Text))
  dataType : Text → LoadM (Option ((BitVec 32 × ParseType) × Text))
  name : Text → LoadM (Option (List WChar × Text))
  spaces : Text → LoadM Text

/-- Where the loop of `load_keys` stands. -/
structure LoadState where
  subkey : Option ℕ
  prefixLen : ℤ
  info : Source

section
variable (cm : CaseMap) (rd : Reader)

namespace Reader

def loadKey (base : ℕ) (buffer : Text) (flags : KeyFlags) (prefixLen : ℤ) (defaultModif : ℤ) :
    LoadM (Option ℕ) := do
  if (← call memAlloc) then
    match (← rd.strW (2 * buffer.bytes.length) buffer (ascii ']')) with
    | none => pure none
    | some (name, rest) =>
      let modif := (scanInt rest.bytes).getD defaultModif
      let (left, p) := dropPrefix prefixLen name
      if p.headD 0 = 0 then
        if 1 < left then pure none else pure (some base)
      else call (createKey cm base p [] flags modif)
  else pure none

def getPrefixLen (k : ℕ) (name : Text) : LoadM ℤ := do
  if (← call memAlloc) then
    match (← rd.strW (2 * name.bytes.length) name (ascii ']')) with
    | none => pure 0
    | some (path, _) =>
      call do prefixUp cm (path.takeWhile fun c => c ≠ 0 ∧ c ≠ backslash) (← get).nextKey 1 k
  else pure 0

def parseValueName (k : ℕ) (buffer : Text) : LoadM (Option (ℕ × Text)) := do
  if (← call memAlloc) then
    match (← rd.name buffer) with
    | none => pure none
    | some (name, rest) =>
      let key ← call (getKey k)
      match findValue cm key name with
      | .found i => pure (some (i, rest))
      | .missing i =>
        if (← call (insertValue k name i)) then pure (some (i, rest)) else pure none
  else pure none

/-- The loop over the lines of a hex value. -/
def readHex : ℕ → Source → List Byte → Text → LoadM (Option (List Byte) × Source)
  | 0, _, _, _ => throw .spent
  | fuel + 1, info, data, buffer => do
    if (← call memAlloc) then
      match (← rd.hex (1 + buffer.bytes.length / 3) buffer) with
      | none => pure (none, info)
      | some (bytes, rest) =>
        let rest ← rd.spaces rest
        if peek rest.bytes = 0 then pure (some (data ++ bytes), info)
        else if peek rest.bytes ≠ ascii '\\' then pure (none, info)
        else
          match (← rd.nextLine fuel info) with
          | (none, info) => pure (none, info)
          | (some line, info) =>
            let line ← rd.spaces line
            readHex fuel info (data ++ bytes) line
    else pure (none, info)

/-- The part of `load_value` from `get_data_type` on that does not touch the value. -/
def readData (fuel : ℕ) (buffer : Text) (info : Source) :
    LoadM (Option (BitVec 32 × List Byte) × Source) := do
  match (← rd.dataType buffer) with
  | none => pure (none, info)
  | some ((type, .sz), rest) =>
    if (← call memAlloc) then
      match (← rd.strW (2 * rest.bytes.length) rest (ascii '"')) with
      | none => pure (none, info)
      | some (s, _) =>
        if (← call (memdup (stringBytes (s ++ [0])))) then
          pure (some (type, stringBytes (s ++ [0])), info)
        else pure (none, info)
    else pure (none, info)
  | some ((type, .dword), rest) =>
    if (← call (memdup (dwordBytes (strtoul rest.bytes).1))) then
      pure (some (type, dwordBytes (strtoul rest.bytes).1), info)
    else pure (none, info)
  | some ((type, .binary), rest) =>
    match (← readHex rd fuel info [] rest) with
    | (none, info) => pure (none, info)
    | (some data, info) =>
      if (← call (memdup data)) then pure (some (type, data), info) else pure (none, info)

def loadValue (fuel k : ℕ) (buffer : Text) (info : Source) : LoadM Source := do
  match (← parseValueName cm rd k buffer) with
  | none => pure info
  | some (i, rest) =>
    match (← readData rd fuel rest info) with
    | (none, info) => pure info
    | (some (type, data), info) =>
      call do
        storeValue k i type data
        makeDirty k
      pure info

/-- One round of the loop of `load_keys`, on a line that has been read. -/
def loadLine (fuel base : ℕ) (flags : KeyFlags) (defaultModif : ℤ) (line : Text)
    (ld : LoadState) : LoadM LoadState := do
  let p ← rd.spaces line
  if peek p.bytes = ascii '[' then
    let prefixLen ← if ld.prefixLen = -1 then getPrefixLen cm rd base (p.drop 1)
      else pure ld.prefixLen
    let subkey ← loadKey cm rd base (p.drop 1) flags prefixLen defaultModif
    pure { ld with subkey := subkey, prefixLen := prefixLen }
  else if peek p.bytes = ascii '@' ∨ peek p.bytes = ascii '"' then
    match ld.subkey with
    | none => pure ld
    | some k => do
      let info ← loadValue cm rd fuel k p ld.info
      pure { ld with info := info }
  else pure ld

def loadLoop (base : ℕ) (flags : KeyFlags) (defaultModif : ℤ) : ℕ → LoadState → LoadM PUnit
  | 0, _ => throw .spent
  | fuel + 1, ld => do
    match (← rd.nextLine fuel ld.info) with
    | (none, _) => pure ⟨⟩
    | (some line, info) =>
      let ld ← loadLine cm rd fuel base flags defaultModif line { ld with info := info }
      loadLoop base flags defaultModif fuel ld

/-- `load_keys`; the loops go around at most `fuel` times. -/
def loadKeys (fuel k : ℕ) (file : List Byte) (prefixLen : ℤ) : LoadM PUnit := do
  let defaultModif := (← get).now
  let key ← call (getKey k)
  if (← call memAlloc) then
    if (← call memAlloc) then
      match (← rd.nextLine fuel ⟨4, file, by decide⟩) with
      | (some line, info) =>
        if line.bytes = header then
          loadLoop cm rd k (loadFlags key) defaultModif fuel ⟨none, prefixLen, info⟩
        else call (setError .notRegistryFile)
      | (none, _) => call (setError .notRegistryFile)
    else pure ⟨⟩
  else pure ⟨⟩

end Reader

end

/-! ## The two readers -/

/-- The functions of the source. -/
def sourceReader : Reader where
  nextLine fuel info := readLoop readBuffer (fuel + 1) [] info
  strW len t endchar := found <$> scan (scanStrW len endchar) t
  hex len t := found <$> scan (scanHex len) t
  dataType t := found <$> scan scanDataType t
  name t := found <$> scan scanName t
  spaces t := Prod.snd <$> scan scanSpaces t

/-- The condition for a line is that it does not start with a `NUL`. -/
def lineFits (info : Source) : Bool := info.file.head? ≠ some 0

def demand (b : Bool) : LoadM PUnit := if b then pure ⟨⟩ else throw .outside

/-- Functions that read nothing outside, once what they are called with has been tested. -/
def guardedReader : Reader where
  nextLine fuel info := do
    demand (lineFits info)
    readLoop (fun buffer i => pure (buffer.getD i.toNat 0)) (fuel + 1) [] info
  strW len t endchar := do
    demand (strFits len t.bytes endchar)
    pure ((parseStrW len t.bytes endchar).map fun r => (r.1, .of r.2))
  hex len t := do
    demand (hexFits len t.bytes)
    pure ((parseHex len t.bytes).map fun r => (r.1, .of r.2))
  dataType t := pure ((getDataType t.bytes).map fun d => ((d.1, d.2.1), .of d.2.2))
  name t := do
    demand (nameFits t.bytes)
    pure ((parseName t.bytes).map fun r => (r.1, .of r.2))
  spaces t := pure t.trim

/-! ## The scanners -/

theorem cString_append_nul (p : List Byte) : cString (p ++ [0]) = cString p := by
  unfold cString
  induction p with
  | nil => rfl
  | cons c p ih =>
    rw [List.cons_append, List.takeWhile_cons, List.takeWhile_cons, ih]

theorem Text.of_append_nul (p : List Byte) : Text.of (p ++ [0]) = Text.of p :=
  Text.ext (cString_append_nul p)

theorem found_scan {α : Type} {m : Scan (Option α)} {t : Text} {fits : Bool}
    {parsed : Option (α × List Byte)}
    (h : wp m (fun r p => fits = true ∧ r = parsed.map (·.1) ∧
      ∀ res, parsed = some res → p = res.2 ++ [0]) (fun _ => ¬ fits = true) (t.bytes ++ [0])) :
    found <$> scan m t =
      (demand fits >>= fun _ => pure (parsed.map fun r => (r.1, Text.of r.2))) := by
  funext s
  unfold scan
  cases hm : m (t.bytes ++ [0]) with
  | error e =>
    have hno : ¬ fits = true := wp_of_error (E := fun _ => ¬ fits = true) h hm
    rw [Bool.eq_false_iff.mpr hno]
    rfl
  | ok r =>
    obtain ⟨a, p⟩ := r
    obtain ⟨hfits, rfl, hp⟩ := wp_of_ok h hm
    rw [hfits]
    cases parsed with
    | none => rfl
    | some res =>
      rw [hp res rfl]
      show Except.ok (some (res.1, Text.of (res.2 ++ [0])), s) = _
      rw [Text.of_append_nul]
      rfl

theorem spaces_eq : sourceReader.spaces = guardedReader.spaces := by
  funext t s
  have h := @wp_scanSpaces t.bytes fun _ => False
  show (Prod.snd <$> scan scanSpaces t) s = Except.ok (t.trim, s)
  unfold scan
  cases hm : scanSpaces (t.bytes ++ [0]) with
  | error e => exact (wp_of_error h hm).elim
  | ok r =>
    obtain ⟨a, p⟩ := r
    obtain rfl := wp_of_ok h hm
    show Except.ok (Text.of (t.bytes.dropWhile isspace ++ [0]), s) = _
    rw [Text.of_append_nul]
    rfl

theorem dataType_eq : sourceReader.dataType = guardedReader.dataType := by
  funext t
  have h : wp scanDataType (fun r p => true = true ∧
      r = ((getDataType t.bytes).map fun d => ((d.1, d.2.1), d.2.2)).map (·.1) ∧
        ∀ res, (getDataType t.bytes).map (fun d => ((d.1, d.2.1), d.2.2)) = some res →
          p = res.2 ++ [0]) (fun _ => ¬ true = true) (t.bytes ++ [0]) := by
    refine wp_mono (wp_scanDataType t.plain) ?_
    rintro r p ⟨rfl, hp⟩
    refine ⟨rfl, by rw [Option.map_map]; rfl, fun res hres => ?_⟩
    rw [Option.map_eq_some_iff] at hres
    obtain ⟨d, hd, rfl⟩ := hres
    exact hp d hd
  refine (found_scan h).trans ?_
  rw [Option.map_map]
  rfl

/-! ## Lines -/

theorem strlen_pos {p r : List Byte} (hp : Plain p) (hne : p ≠ []) :
    1 ≤ strlen (p ++ r) := by
  cases p with
  | nil => exact absurd rfl hne
  | cons c p =>
    unfold strlen cString
    rw [List.cons_append, List.takeWhile_cons, decide_eq_true (hp c List.mem_cons_self)]
    exact Nat.succ_pos _

theorem strlen_le (p : List Byte) : strlen p ≤ p.length :=
  (List.takeWhile_prefix _).length_le

theorem readBuffer_last {buffer : List Byte} (h : 1 ≤ strlen buffer) :
    readBuffer buffer ((strlen buffer : ℤ) - 1) =
      pure (buffer.getD ((strlen buffer : ℤ) - 1).toNat 0) := by
  have hle := strlen_le buffer
  have hlt : ((strlen buffer : ℤ) - 1).toNat < buffer.length := by omega
  unfold readBuffer
  rw [if_neg (by omega), List.getD_eq_getElem?_getD, List.getElem?_eq_getElem hlt]
  rfl

/-- Reading a line stays in the buffer if it starts with something. -/
theorem readLoop_eq {fuel : ℕ} {pre : List Byte} {info : Source} (hpre : Plain pre)
    (h : pre ≠ [] ∨ info.file.head? ≠ some 0) :
    readLoop readBuffer fuel pre info =
      readLoop (fun buffer i => pure (buffer.getD i.toNat 0)) fuel pre info := by
  induction fuel generalizing pre info with
  | zero => rfl
  | succ fuel ih =>
    unfold readLoop
    by_cases hfile : info.file = []
    · rw [if_pos hfile, if_pos hfile]
    rw [if_neg hfile, if_neg hfile]
    have hpos : 1 ≤ strlen (pre ++ fgets (info.len - pre.length - 1) info.file ++ [0]) := by
      by_cases hne : pre = []
      · obtain ⟨c, file, hcons⟩ := List.exists_cons_of_ne_nil hfile
        have hc := h.resolve_left (not_not.2 hne)
        rw [hcons, List.head?_cons] at hc
        have hc0 : c ≠ 0 := fun h0 => hc (by rw [h0])
        obtain ⟨n, hn⟩ : ∃ n, info.len - pre.length - 1 = n + 1 :=
          ⟨info.len - 2, by
            rw [hne]
            have := info.room
            simp only [List.length_nil]
            omega⟩
        rw [hn, hne, hcons, List.nil_append]
        unfold fgets
        by_cases hlf : c = ascii '\n'
        · rw [if_pos hlf]
          exact strlen_pos (p := [c]) (fun d hd => by
            rw [List.mem_singleton.mp hd]
            exact hc0) (List.cons_ne_nil _ _)
        · rw [if_neg hlf]
          exact strlen_pos (p := [c]) (r := fgets n file ++ [0]) (fun d hd => by
            rw [List.mem_singleton.mp hd]
            exact hc0) (List.cons_ne_nil _ _)
      · rw [List.append_assoc]
        exact strlen_pos hpre hne
    dsimp only
    rw [readBuffer_last hpos]
    have hne : cString (pre ++ fgets (info.len - pre.length - 1) info.file ++ [0]) ≠ [] :=
      List.ne_nil_of_length_pos hpos
    have hrec := @ih (cString (pre ++ fgets (info.len - pre.length - 1) info.file ++ [0]))
      ⟨info.len + info.len / 2,
        info.file.drop (fgets (info.len - pre.length - 1) info.file).length,
        Nat.le_add_right_of_le info.room⟩ (plain_cString _) (.inl hne)
    rw [hrec]

theorem nextLine_eq : sourceReader.nextLine = guardedReader.nextLine := by
  funext fuel info
  show readLoop readBuffer (fuel + 1) [] info = (demand (lineFits info) >>= fun _ => _)
  cases hfits : lineFits info with
  | true =>
    have hhead : info.file.head? ≠ some 0 := of_decide_eq_true hfits
    exact readLoop_eq (fun c hc => by cases hc) (.inr hhead)
  | false =>
    have hhead : info.file.head? = some 0 := not_not.1 (of_decide_eq_false hfits)
    obtain ⟨file, hfile⟩ := List.head?_eq_some_iff.1 hhead
    obtain ⟨n, hn⟩ : ∃ n, info.len - 0 - 1 = n + 1 := ⟨info.len - 2, by
      have := info.room
      omega⟩
    unfold readLoop
    rw [hfile, if_neg (List.cons_ne_nil _ _), List.length_nil, hn]
    have hnul : ¬ (0 : Byte) = ascii '\n' := by decide
    unfold fgets
    rw [if_neg hnul]
    rfl

/-- The functions of the source read within the buffer exactly where the tests succeed. -/
theorem sourceReader_eq : sourceReader = guardedReader := by
  apply Reader.ext
  · exact nextLine_eq
  · funext len t endchar
    exact found_scan (wp_scanStrW t.plain)
  · funext len t
    exact found_scan (wp_scanHex t.plain)
  · exact dataType_eq
  · funext t
    exact found_scan (wp_scanName t.plain)
  · exact spaces_eq

/-- However long the load goes on, it reads nothing outside the string in the buffer. -/
def LoadsWithin (cm : CaseMap) (rd : Reader) (k : ℕ) (file : List Byte) (prefixLen : ℤ)
    (s : State) : Prop :=
  ∀ fuel, Reader.loadKeys cm rd fuel k file prefixLen s ≠ .error .outside

def leaves {α : Type} : Except LoadFault α → Bool
  | .error .outside => true
  | _ => false

theorem not_loadsWithin {cm : CaseMap} {rd : Reader} {k : ℕ} {file : List Byte} {prefixLen : ℤ}
    {s : State} (fuel : ℕ)
    (h : leaves (Reader.loadKeys cm rd fuel k file prefixLen s) = true) :
    ¬ LoadsWithin cm rd k file prefixLen s := by
  intro hin
  have hne := hin fuel
  cases hr : Reader.loadKeys cm rd fuel k file prefixLen s with
  | ok r =>
    rw [hr] at h
    cases h
  | error e =>
    rw [hr] at h hne
    cases e with
    | outside => exact hne rfl
    | spent => cases h
    | fault e => cases h

end Wine.Registry
