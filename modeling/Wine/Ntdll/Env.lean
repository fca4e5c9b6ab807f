import Wine.Lib.Cells
import Wine.Lib.Storing
import Mathlib.Data.List.TakeWhile
import Wine.Casemap

/-!
# Environment blocks

An environment block is a row of strings with a NUL behind each and an empty string behind the
last. It starts the region it was allocated with, and the region is the list of its characters. A
pointer into the block is a distance from its start, or what the region holds from there on. A
computation that reads or writes behind the region, or fails an assertion, has no result.
-/

namespace Wine.Ntdll
open Lib Lib.Reading

def equalsSign : WChar := 0x3d

/-- A counted string, with the length in bytes. -/
structure UnicodeString where
  length : ℕ
  buffer : Option (List WChar)
  deriving DecidableEq, Repr

def UnicodeString.chars (u : UnicodeString) : List WChar := (u.buffer.getD []).take (u.length / 2)

/-- A string that receives a value; `MaximumLength` is the number of bytes of the buffer. -/
structure OutString where
  length : ℕ
  buffer : List (BitVec 8)
  deriving DecidableEq, Repr

inductive EnvStatus
  | success
  | variableNotFound
  | bufferTooSmall
  | invalidParameter
  | invalidParameter1
  | allocation (status : BitVec 32)
  deriving DecidableEq, Repr

def strlenW : List WChar → Option ℕ
  | [] => none
  | c :: s => if c = 0 then some 0 else (strlenW s).map (· + 1)

/-- `strncmpiW(str1, str2, n)`. -/
def strncmpiW (cm : CaseMap) : List WChar → List WChar → ℕ → Option ℤ
  | _, _, 0 => some 0
  | c :: s, d :: t, n + 1 =>
    let ret := ((cm.tolowerW c).toNat : ℤ) - (cm.tolowerW d).toNat
    if ret ≠ 0 ∨ c = 0 then some ret else strncmpiW cm s t n
  | _, _, _ + 1 => none

/-- `strchrW(str, ch)`; the result is a distance from `str`, or `NULL`. -/
def strchrW (ch : WChar) : List WChar → Option (Option ℕ)
  | [] => none
  | c :: s =>
    if c = ch then some (some 0)
    else if c = 0 then some none
    else (strchrW ch s).map (Option.map (· + 1))

/-- `for (p = env; *p; p += strlenW(p) + 1) if (stop) break;` -/
def walk (stop : List WChar → Option Bool) (env : List WChar) : ℕ → ℕ → Option ℕ
  | 0, _ => none
  | fuel + 1, p => do
    if (← env[p]?) = 0 then return p
    if ← stop (env.drop p) then return p
    walk stop env fuel (p + (← strlenW (env.drop p)) + 1)

/-- The test of `ENV_FindVariable`. -/
def foundAt (cm : CaseMap) (name var : List WChar) : Option Bool := do
  if (← strncmpiW cm var name name.length) ≠ 0 then return false
  if (← var[name.length]?) ≠ equalsSign then return false
  return (← strchrW equalsSign (var.drop 1)).map (· + 1) = some name.length

/-- `ENV_FindVariable`; the result is a pointer to the value, or `NULL`. -/
def envFindVariable (cm : CaseMap) (env name : List WChar) : Option (Option ℕ) := do
  let var ← walk (foundAt cm name) env env.length 0
  if (← env[var]?) = 0 then return none
  return some (var + name.length + 1)

def bytesOfChars (s : List WChar) : List (BitVec 8) := s.flatMap fun c => littleEndian 2 c.toNat

/-- `RtlQueryEnvironmentVariable_U`. The length of the value is kept in 16 bits. -/
def rtlQueryEnvironmentVariable_U (cm : CaseMap) (env : List WChar) (name : UnicodeString)
    (value : OutString) : Option (EnvStatus × OutString) :=
  if name.length / 2 = 0 then some (.variableNotFound, { value with length := 0 })
  else do
    match ← envFindVariable cm env name.chars with
    | none => return (.variableNotFound, { value with length := 0 })
    | some var =>
      let length := (← strlenW (env.drop var)) * 2 % 2 ^ 16
      if length ≤ value.buffer.length then
        let n := min (length + 2) value.buffer.length
        let bytes ← readAt (bytesOfChars (env.drop var)) 0 n
        return (.success, ⟨length, ← writeAt value.buffer 0 bytes⟩)
      else return (.bufferTooSmall, { value with length })

/-- The test `RtlSetEnvironmentVariable` knows a variable by. -/
def placeAt (cm : CaseMap) (name p : List WChar) : Option Bool := do
  if (← strncmpiW cm name p name.length) ≠ 0 then return false
  return (← p[name.length]?) = equalsSign

/-- The characters of the region that `NtAllocateVirtualMemory` makes for `n` characters. -/
def regionFor (n : ℕ) : List WChar := List.replicate ((2 * n + 4095) / 4096 * 4096 / 2) 0

/-- The block with the characters from `p` on `len` characters further on, so that the `old`
characters of the variable at `p` make way for the new ones; `refuse` is the status
`NtAllocateVirtualMemory` fails with. -/
def resize (env : List WChar) (p old oldSize : ℕ) (len : ℤ) (refuse : Option (BitVec 32)) :
    Option (EnvStatus × List WChar) := do
  let next := p + old
  let env' ←
    if len < 0 then moveWithin env (next + len).toNat next (oldSize - next) else some env
  let newSize := (oldSize + len).toNat
  if newSize * 2 > env'.length * 2 then
    match refuse with
    | some status => return (.allocation status, env')
    | none =>
      let newEnv ← writeAt (regionFor newSize) 0 (← readAt env' 0 p)
      if ¬0 < len then none
      return (.success, ← writeAt newEnv (p + len).toNat (← readAt env' p (oldSize - p)))
  else if len > 0 then return (.success, ← moveWithin env' (p + len).toNat p (oldSize - p))
  else return (.success, env')

/-- What `RtlSetEnvironmentVariable` writes at the place of the variable. -/
def chunk (name : List WChar) : Option (List WChar) → List WChar
  | some value => name ++ equalsSign :: value ++ [0]
  | none => []

/-- `name`, an equals sign and `value` written at `p` in place of the `old` characters there. -/
def replaceAt (env : List WChar) (p old oldSize : ℕ) (name : List WChar)
    (value : Option (List WChar)) (refuse : Option (BitVec 32)) :
    Option (EnvStatus × List WChar) := do
  let new : ℕ := value.elim 0 fun v => name.length + v.length + 2
  let (status, env') ← resize env p old oldSize (new - old) refuse
  if status = .success then return (status, ← writeAt env' p (chunk name value))
  return (status, env')

/-- `RtlSetEnvironmentVariable` after its checks of the name. -/
def setVariable (cm : CaseMap) (env name : List WChar) (value : Option (List WChar))
    (refuse : Option (BitVec 32)) : Option (EnvStatus × List WChar) := do
  let oldSize := (← walk (fun _ => some false) env env.length 0) + 1
  let p ← walk (placeAt cm name) env env.length 0
  let found := (← env[p]?) ≠ 0
  if value = none ∧ ¬found then return (.variableNotFound, env)
  let old : ℕ ← if found then (strlenW (env.drop p)).map (· + 1) else some 0
  replaceAt env p old oldSize name value refuse

/-- `RtlSetEnvironmentVariable` on the block that `penv` or the process parameters point to. -/
def rtlSetEnvironmentVariable (cm : CaseMap) (env : List WChar) (name value : Option UnicodeString)
    (refuse : Option (BitVec 32)) : Option (EnvStatus × List WChar) :=
  match name with
  | none => some (.invalidParameter1, env)
  | some name =>
    if name.buffer = none ∨ name.length = 0 then some (.invalidParameter1, env)
    else if equalsSign ∈ name.chars.drop 1 then some (.invalidParameter, env)
    else setVariable cm env name.chars (value.map UnicodeString.chars) refuse

end Wine.Ntdll

/-!
## The environment block as a map

The strings of a block are its contents. A string assigns a value to a name if it has an equals sign
behind its first character, and names are equal if they have the same lower case. The tests of the
reader and of the writer differ, but for a name that the writer accepts both find the first string
that assigns a value to it. What a call writes takes the place of that string, whichever way the
strings behind it have to move.
-/

namespace Wine.Ntdll
open Lib Lib.Reading

variable {cm : CaseMap} {name m v s t env rest : List WChar} {strs : List (List WChar)}

/-- The characters with a meaning of their own in a block have no other case. -/
structure KeepsMarks (cm : CaseMap) : Prop where
  zero : ∀ c, cm.tolowerW c = 0 ↔ c = 0
  sign : ∀ c, cm.tolowerW c = equalsSign ↔ c = equalsSign

def fold (cm : CaseMap) (s : List WChar) : List WChar := s.map cm.tolowerW

/-- The name and the value of a string of a block. -/
def assignment : List WChar → Option (List WChar × List WChar)
  | [] => none
  | c :: s =>
    if equalsSign ∈ s then
      some (c :: s.takeWhile (· != equalsSign), (s.dropWhile (· != equalsSign)).drop 1)
    else none

/-- The value that a string assigns to a name. -/
def valueOf (cm : CaseMap) (name s : List WChar) : Option (List WChar) :=
  (assignment s).bind fun a => if fold cm a.1 = fold cm name then some a.2 else none

/-- The values of a name, in the order of the block. -/
def values (cm : CaseMap) (name : List WChar) (strs : List (List WChar)) : List (List WChar) :=
  strs.filterMap (valueOf cm name)

def encode (strs : List (List WChar)) : List WChar := strs.flatMap (· ++ [0])

/-- `env` is a well-formed block with the strings `strs`. -/
def EnvBlock (strs : List (List WChar)) (env : List WChar) : Prop :=
  (∀ s ∈ strs, s ≠ [] ∧ 0 ∉ s) ∧ ∃ rest, env = encode strs ++ 0 :: rest

@[simp] theorem encode_nil : encode [] = [] := rfl

@[simp] theorem encode_cons : encode (s :: strs) = s ++ 0 :: encode strs := by
  simp [encode]

@[simp] theorem encode_append {strs' : List (List WChar)} :
    encode (strs ++ strs') = encode strs ++ encode strs' := by
  simp [encode]

theorem length_le_encode (strs : List (List WChar)) : strs.length ≤ (encode strs).length := by
  induction strs with
  | nil => simp
  | cons s strs ih =>
    simp only [encode_cons, List.length_cons, List.length_append]
    omega

section Strings

theorem assignment_append (hm : m ≠ []) (hsign : equalsSign ∉ m.tail) :
    assignment (m ++ equalsSign :: v) = some (m, v) := by
  obtain ⟨c, m, rfl⟩ := List.exists_cons_of_ne_nil hm
  have hall : ∀ d ∈ m, (d != equalsSign) = true := by
    intro d hd
    simp only [bne_iff_ne, ne_eq]
    rintro rfl
    exact hsign hd
  simp only [List.cons_append, assignment]
  rw [if_pos (by simp), List.takeWhile_append_of_pos hall, List.dropWhile_append_of_pos hall]
  simp

theorem of_assignment (h : assignment s = some (m, v)) :
    s = m ++ equalsSign :: v ∧ m ≠ [] ∧ equalsSign ∉ m.tail := by
  cases s with
  | nil => cases h
  | cons c s =>
    by_cases hmem : equalsSign ∈ s
    · obtain ⟨before, after, rfl, hbefore⟩ := List.eq_append_cons_of_mem hmem
      have hsplit := assignment_append (v := after) (List.cons_ne_nil c before) hbefore
      rw [List.cons_append, h, Option.some.injEq, Prod.mk.injEq] at hsplit
      obtain ⟨rfl, rfl⟩ := hsplit
      exact ⟨rfl, List.cons_ne_nil c before, hbefore⟩
    · rw [assignment, if_neg hmem] at h
      cases h

theorem valueOf_eq_some : valueOf cm name s = some v ↔
    ∃ m, s = m ++ equalsSign :: v ∧ m ≠ [] ∧ equalsSign ∉ m.tail ∧ fold cm m = fold cm name := by
  simp only [valueOf, Option.bind_eq_some_iff, Option.ite_none_right_eq_some, Option.some.injEq]
  constructor
  · rintro ⟨⟨m, w⟩, ha, hfold, rfl⟩
    obtain ⟨rfl, hm, hsign⟩ := of_assignment ha
    exact ⟨m, rfl, hm, hsign, hfold⟩
  · rintro ⟨m, rfl, hm, hsign, hfold⟩
    exact ⟨(m, v), assignment_append hm hsign, hfold, rfl⟩

theorem valueOf_congr {name' : List WChar} (h : fold cm name' = fold cm name) :
    valueOf cm name' = valueOf cm name := by
  funext s
  simp only [valueOf, h]

/-- A string assigns a value to one name only. -/
theorem valueOf_eq_none_of_ne {name' : List WChar} (hv : valueOf cm name s = some v)
    (h : fold cm name ≠ fold cm name') : valueOf cm name' s = none := by
  obtain ⟨m, rfl, hm, hsign, hfold⟩ := valueOf_eq_some.mp hv
  rw [valueOf, assignment_append hm hsign]
  exact if_neg fun h' => h (hfold.symm.trans h')

theorem valueOf_new (hm : m ≠ []) (hsign : equalsSign ∉ m.tail) :
    valueOf cm m (m ++ equalsSign :: v) = some v :=
  valueOf_eq_some.mpr ⟨m, rfl, hm, hsign, rfl⟩

end Strings

section Tests

theorem strlenW_append (hs : 0 ∉ s) : strlenW (s ++ 0 :: t) = some s.length := by
  induction s with
  | nil => rfl
  | cons c s ih =>
    rw [List.mem_cons, not_or] at hs
    rw [List.cons_append, strlenW, if_neg (Ne.symm hs.1), ih hs.2]
    rfl

theorem strchrW_append (hs : 0 ∉ s) :
    strchrW equalsSign (s ++ 0 :: t) = some (s.idxOf? equalsSign) := by
  induction s with
  | nil => rfl
  | cons c s ih =>
    rw [List.mem_cons, not_or] at hs
    rw [List.cons_append, strchrW, List.idxOf?_cons]
    by_cases hc : c = equalsSign
    · simp [hc]
    · rw [if_neg hc, if_neg (Ne.symm hs.1), ih hs.2]
      simp [hc]

theorem toNat_sub_eq_zero {c d : WChar} : (c.toNat : ℤ) - d.toNat = 0 ↔ c = d := by
  rw [Int.sub_eq_zero, Int.natCast_inj, ← BitVec.toNat_inj]

theorem KeepsMarks.fold_eq (hcm : KeepsMarks cm) {c d : WChar}
    (h : cm.tolowerW c = cm.tolowerW d) : c = 0 ↔ d = 0 := by
  rw [← hcm.zero c, h, hcm.zero d]

theorem strncmpiW_swap (hcm : KeepsMarks cm) {n : ℕ} :
    strncmpiW cm t s n = (strncmpiW cm s t n).map (-·) := by
  induction n generalizing s t with
  | zero => cases s <;> cases t <;> rfl
  | succ n ih =>
    cases s with
    | nil => cases t <;> rfl
    | cons c s =>
      cases t with
      | nil => rfl
      | cons d t =>
        simp only [strncmpiW]
        by_cases hcd : cm.tolowerW c = cm.tolowerW d
        · by_cases hc : c = 0
          · rw [if_pos (.inr ((hcm.fold_eq hcd).mp hc)), if_pos (.inr hc), hcd]
            simp
          · have hd := mt (hcm.fold_eq hcd).mpr hc
            rw [if_neg (not_or.mpr ⟨by simp [hcd], hd⟩), if_neg (not_or.mpr ⟨by simp [hcd], hc⟩),
              ih]
        · rw [if_pos (.inl (mt toNat_sub_eq_zero.mp (Ne.symm hcd))),
            if_pos (.inl (mt toNat_sub_eq_zero.mp hcd)), Option.map_some, Int.neg_sub]

/-- The comparison of a string of the block with a name: does the string start with the name? -/
theorem strncmpiW_name (hcm : KeepsMarks cm) (hs : 0 ∉ s) (hname : 0 ∉ name) :
    ∃ ret, strncmpiW cm (s ++ 0 :: t) name name.length = some ret ∧
      (ret = 0 ↔ fold cm (s.take name.length) = fold cm name) := by
  induction name generalizing s with
  | nil => exact ⟨0, by cases s <;> rfl, by simp⟩
  | cons d name ih =>
    rw [List.mem_cons, not_or] at hname
    cases s with
    | nil =>
      have hne : ¬cm.tolowerW 0 = cm.tolowerW d := fun h =>
        hname.1 ((hcm.fold_eq h).mp rfl).symm
      refine ⟨_, if_pos (.inr rfl), ?_⟩
      rw [toNat_sub_eq_zero]
      exact ⟨fun h => absurd h hne, fun h => by simp [fold] at h⟩
    | cons c s =>
      rw [List.mem_cons, not_or] at hs
      simp only [List.cons_append, List.length_cons, strncmpiW, List.take_succ_cons, fold,
        List.map_cons, List.cons.injEq]
      by_cases hcd : cm.tolowerW c = cm.tolowerW d
      · obtain ⟨ret, hret, hiff⟩ := ih hs.2 hname.2
        refine ⟨ret, ?_, by rw [hiff, fold, fold]; simp [hcd]⟩
        rw [if_neg (not_or.mpr ⟨by simp [hcd], Ne.symm hs.1⟩), hret]
      · have hne := mt toNat_sub_eq_zero.mp hcd
        exact ⟨_, if_pos (.inl hne), by simp [hne, hcd]⟩

/-- A string that starts with a name and an equals sign. -/
theorem starts_iff : (fold cm (s.take name.length) = fold cm name ∧
      s[name.length]? = some equalsSign) ↔
    ∃ m v, s = m ++ equalsSign :: v ∧ fold cm m = fold cm name := by
  constructor
  · rintro ⟨hfold, hsign⟩
    obtain ⟨hlt, hget⟩ := List.getElem?_eq_some_iff.mp hsign
    refine ⟨s.take name.length, s.drop (name.length + 1), ?_, hfold⟩
    rw [← hget, ← List.drop_eq_getElem_cons hlt, List.take_append_drop]
  · rintro ⟨m, v, rfl, hfold⟩
    have hlen : m.length = name.length := by simpa [fold] using congrArg List.length hfold
    rw [← hlen, List.take_left]
    exact ⟨hfold, by simp⟩

theorem valueOf_isSome_iff : (valueOf cm name s).isSome ↔
    ∃ m v, s = m ++ equalsSign :: v ∧ m ≠ [] ∧ equalsSign ∉ m.tail ∧ fold cm m = fold cm name := by
  rw [Option.isSome_iff_exists, exists_comm]
  exact exists_congr fun v => valueOf_eq_some

theorem getElem?_of_starts (h : fold cm (s.take name.length) = fold cm name) :
    ∃ c, (s ++ 0 :: t)[name.length]? = some c ∧
      (c = equalsSign ↔ s[name.length]? = some equalsSign) := by
  have hlen : name.length ≤ s.length := by
    have := congrArg List.length h
    simp only [fold, List.length_map, List.length_take] at this
    omega
  obtain hlt | heq := Nat.lt_or_eq_of_le hlen
  · refine ⟨s.get ⟨name.length, hlt⟩, ?_, ?_⟩
    · rw [List.getElem?_append_left hlt, List.getElem?_eq_getElem hlt]
      rfl
    · rw [List.getElem?_eq_getElem hlt, Option.some.injEq]
      rfl
  · refine ⟨0, by rw [heq]; simp, ?_⟩
    rw [List.getElem?_eq_none (Nat.le_of_eq heq.symm)]
    decide

/-- The writer finds the first string that assigns a value to a name it accepts. -/
theorem placeAt_eq (hcm : KeepsMarks cm) (hne : name ≠ []) (hname : 0 ∉ name)
    (hsign : equalsSign ∉ name.tail) (hs : 0 ∉ s) :
    placeAt cm name (s ++ 0 :: t) = some (valueOf cm name s).isSome := by
  have hiff : (valueOf cm name s).isSome ↔ fold cm (s.take name.length) = fold cm name ∧
      s[name.length]? = some equalsSign := by
    rw [valueOf_isSome_iff, starts_iff]
    refine exists_congr fun m => exists_congr fun v => ?_
    constructor
    · rintro ⟨hs, -, -, hfold⟩
      exact ⟨hs, hfold⟩
    · rintro ⟨hs, hfold⟩
      refine ⟨hs, ?_, ?_, hfold⟩
      · rintro rfl
        exact hne (List.map_eq_nil_iff.mp hfold.symm)
      · intro hin
        have htail : fold cm m.tail = fold cm name.tail := by
          rw [fold, fold, List.map_tail, List.map_tail]
          exact congrArg List.tail hfold
        obtain ⟨c, hc, heq⟩ : ∃ c ∈ name.tail, cm.tolowerW c = cm.tolowerW equalsSign := by
          rw [← List.mem_map, ← fold, ← htail]
          exact List.mem_map_of_mem hin
        rw [(hcm.sign equalsSign).mpr rfl, hcm.sign] at heq
        exact hsign (heq ▸ hc)
  obtain ⟨ret, hret, hzero⟩ := strncmpiW_name (t := t) hcm hs hname
  rw [placeAt, strncmpiW_swap hcm, hret]
  simp only [Option.map_some, Option.bind_eq_bind, Option.bind_some, ne_eq, Int.neg_eq_zero]
  by_cases hstarts : fold cm (s.take name.length) = fold cm name
  · obtain ⟨c, hc, hceq⟩ := getElem?_of_starts (t := t) hstarts
    rw [if_neg (not_not_intro (hzero.mpr hstarts)), hc]
    simp only [Option.bind_some, Option.pure_def, Option.some.injEq]
    rw [Bool.eq_iff_iff, hiff, decide_eq_true_iff, hceq]
    exact ⟨fun h => ⟨hstarts, h⟩, And.right⟩
  · rw [if_pos (mt hzero.mp hstarts)]
    simp only [Option.pure_def, Option.some.injEq]
    rw [Bool.eq_iff_iff, hiff]
    exact ⟨fun h => absurd h Bool.false_ne_true, fun h => absurd h.1 hstarts⟩

theorem idxOf?_eq_length {a : WChar} {l r : List WChar} :
    (l ++ a :: r).idxOf? a = some l.length ↔ a ∉ l := by
  induction l with
  | nil => simp [List.idxOf?_cons]
  | cons b l ih =>
    rw [List.cons_append, List.idxOf?_cons, List.mem_cons, not_or, ← ih]
    by_cases hb : b = a
    · simp [hb]
    · simp [hb, Ne.symm hb]

/-- The reader finds the first string that assigns a value to the name, whatever the name is. -/
theorem foundAt_eq (hcm : KeepsMarks cm) (hne : name ≠ []) (hname : 0 ∉ name) (hs : 0 ∉ s) :
    foundAt cm name (s ++ 0 :: t) = some (valueOf cm name s).isSome := by
  obtain ⟨ret, hret, hzero⟩ := strncmpiW_name (t := t) hcm hs hname
  rw [foundAt, hret]
  simp only [Option.bind_eq_bind, Option.bind_some, ne_eq]
  have hstart : (valueOf cm name s).isSome → fold cm (s.take name.length) = fold cm name ∧
      s[name.length]? = some equalsSign := by
    rw [valueOf_isSome_iff, starts_iff]
    rintro ⟨m, v, hs, -, -, hfold⟩
    exact ⟨m, v, hs, hfold⟩
  by_cases hstarts : fold cm (s.take name.length) = fold cm name
  · obtain ⟨c, hc, hceq⟩ := getElem?_of_starts (t := t) hstarts
    rw [if_neg (not_not_intro (hzero.mpr hstarts)), hc]
    simp only [Option.bind_some]
    by_cases hsign : c = equalsSign
    · obtain ⟨m, v, rfl, hfold⟩ := starts_iff.mp ⟨hstarts, hceq.mp hsign⟩
      obtain ⟨d, m, rfl⟩ : ∃ d m', m = d :: m' := by
        refine List.exists_cons_of_ne_nil ?_
        rintro rfl
        exact hne (List.map_eq_nil_iff.mp hfold.symm)
      have hlen : m.length + 1 = name.length := by simpa [fold] using congrArg List.length hfold
      rw [List.cons_append, List.mem_cons, not_or] at hs
      rw [if_neg (not_not_intro hsign), List.cons_append, List.cons_append, List.drop_one,
        List.tail_cons, strchrW_append hs.2]
      simp only [Option.bind_some, Option.pure_def, Option.some.injEq]
      rw [Bool.eq_iff_iff, decide_eq_true_iff, ← hlen, Option.map_eq_some_iff]
      simp only [Nat.add_right_cancel_iff, exists_eq_right, idxOf?_eq_length]
      constructor
      · intro hnot
        exact valueOf_isSome_iff.mpr ⟨d :: m, v, rfl, List.cons_ne_nil d m, hnot, hfold⟩
      · intro hsome
        obtain ⟨m', v', heq, hne', hnot, hfold'⟩ := valueOf_isSome_iff.mp hsome
        have hlen' : m'.length = (d :: m).length := by
          simpa [fold] using congrArg List.length (hfold'.trans hfold.symm)
        obtain ⟨rfl, -⟩ := List.append_inj heq.symm hlen'
        exact hnot
    · rw [if_pos hsign]
      simp only [Option.pure_def, Option.some.injEq]
      rw [Bool.eq_iff_iff]
      exact ⟨fun h => absurd h Bool.false_ne_true, fun h => absurd (hceq.mpr (hstart h).2) hsign⟩
  · rw [if_pos (mt hzero.mp hstarts)]
    simp only [Option.pure_def, Option.some.injEq]
    rw [Bool.eq_iff_iff]
    exact ⟨fun h => absurd h Bool.false_ne_true, fun h => absurd (hstart h).1 hstarts⟩

end Tests

section Walk

theorem walk_encode {stop : List WChar → Option Bool} {found : List WChar → Bool} {fuel : ℕ}
    (pre rest : List WChar) (hstrs : ∀ s ∈ strs, s ≠ [] ∧ 0 ∉ s)
    (hstop : ∀ s ∈ strs, ∀ t, stop (s ++ 0 :: t) = some (found s)) (hfuel : strs.length < fuel) :
    walk stop (pre ++ (encode strs ++ 0 :: rest)) fuel pre.length =
      some (pre.length + (encode (strs.takeWhile (!found ·))).length) := by
  induction strs generalizing pre fuel with
  | nil =>
    obtain ⟨fuel, rfl⟩ := Nat.exists_eq_add_of_lt hfuel
    rw [walk]
    simp
  | cons s strs ih =>
    obtain ⟨fuel, rfl⟩ : ∃ k, fuel = k + 1 := ⟨fuel - 1, by simp at hfuel; omega⟩
    obtain ⟨hne, hzero⟩ := hstrs s (by simp)
    obtain ⟨c, s', rfl⟩ := List.exists_cons_of_ne_nil hne
    have hget : (pre ++ (encode ((c :: s') :: strs) ++ 0 :: rest))[pre.length]? = some c := by
      simp
    have hdrop : (pre ++ (encode ((c :: s') :: strs) ++ 0 :: rest)).drop pre.length =
        (c :: s') ++ 0 :: (encode strs ++ 0 :: rest) := by
      simp
    have hc : c ≠ 0 := by
      rintro rfl
      simp at hzero
    rw [walk, hget, hdrop, hstop _ (by simp), strlenW_append hzero]
    simp only [Option.bind_eq_bind, Option.bind_some, if_neg hc]
    by_cases hf : found (c :: s')
    · rw [if_pos hf, List.takeWhile_cons_of_neg (by simp [hf])]
      simp
    · have hnext : pre ++ (encode ((c :: s') :: strs) ++ 0 :: rest) =
          (pre ++ ((c :: s') ++ [0])) ++ (encode strs ++ 0 :: rest) := by
        simp
      have hlen : pre.length + (c :: s').length + 1 = (pre ++ ((c :: s') ++ [0])).length := by
        simp only [List.length_append, List.length_singleton, Nat.add_assoc]
      rw [if_neg hf, hnext, hlen,
        ih _ (fun s hs => hstrs s (by simp [hs])) (fun s hs => hstop s (by simp [hs]))
          (by simp only [List.length_cons] at hfuel; omega),
        List.takeWhile_cons_of_pos (by simpa using hf)]
      simp only [encode_cons, List.length_append, List.length_cons, List.length_nil]
      congr 1
      omega

theorem EnvBlock.walk_eq {stop : List WChar → Option Bool} {found : List WChar → Bool}
    (hb : EnvBlock strs env) (hstop : ∀ s, 0 ∉ s → ∀ t, stop (s ++ 0 :: t) = some (found s)) :
    walk stop env env.length 0 = some (encode (strs.takeWhile (!found ·))).length := by
  obtain ⟨hstrs, rest, rfl⟩ := hb
  have hfuel : strs.length < (encode strs ++ 0 :: rest).length := by
    have := length_le_encode strs
    simp only [List.length_append, List.length_cons]
    omega
  have h := walk_encode [] rest hstrs (fun s hs t => hstop s (hstrs s hs).2 t) hfuel
  rwa [List.length_nil, Nat.zero_add] at h

end Walk

end Wine.Ntdll
