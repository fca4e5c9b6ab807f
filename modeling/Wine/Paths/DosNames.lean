import Wine.Casemap
import Wine.Paths.Collapse

/-!
# Types of path names and device names

The type of a path is read off its first four characters. A device name is what is left of the last
component without its extension, a colon and trailing spaces.
-/

namespace Wine.Paths

def colon : WChar := 0x3a#16

/-- `IS_SEPARATOR` -/
def isSeparator (ch : WChar) : Bool := ch = backslash ∨ ch = slash

/-- The character at an index, or the terminator. -/
def charAt (path : List WChar) (i : ℕ) : WChar := path.getD i 0#16

/-- `DOS_PATHNAME_TYPE` -/
inductive DosPathnameType where
  | uncPath
  | absoluteDrivePath
  | relativeDrivePath
  | absolutePath
  | relativePath
  | devicePath
  | uncDotPath
  deriving DecidableEq, Repr

/-- `RtlDetermineDosPathNameType_U` -/
def rtlDetermineDosPathNameType (path : List WChar) : DosPathnameType :=
  if isSeparator (charAt path 0) then
    if ¬isSeparator (charAt path 1) then .absolutePath
    else if charAt path 2 ≠ dot then .uncPath
    else if isSeparator (charAt path 3) then .devicePath
    else if charAt path 3 ≠ 0#16 then .uncPath
    else .uncDotPath
  else if charAt path 0 = 0#16 ∨ charAt path 1 ≠ colon then .relativePath
  else if isSeparator (charAt path 2) then .absoluteDrivePath
  else .relativeDrivePath

/-- `strncmpiW` on the first `n` characters, as far as whether they are the same. -/
def sameFirst (n : ℕ) (s t : List WChar) : Bool :=
  (s.take n).map wineCaseMap.tolowerW = (t.take n).map wineCaseMap.tolowerW

/-- The start of the file name that ends before index `k`. -/
def nameStart (path : List WChar) : ℕ → ℕ
  | 0 => 0
  | k + 1 =>
    if isSeparator (charAt path k) ∨ charAt path k = colon ∧ charAt path (k + 1) ≠ dot then k + 1
    else nameStart path k

/-- The end `e` without a colon before it. -/
def dropColon (path : List WChar) (e : ℕ) : ℕ :=
  if 0 < e ∧ charAt path (e - 1) = colon then e - 1 else e

/-- The end `e` without the spaces before it. -/
def dropSpaces (path : List WChar) : ℕ → ℕ
  | 0 => 0
  | e + 1 => if charAt path e = space then dropSpaces path e else e + 1

/-- Start and end of what may be a device name. -/
def deviceRange (path : List WChar) : ℕ × ℕ :=
  let e := dropColon path path.length
  let start := nameStart path e
  let e := match (path.drop start).findIdx? (· = dot) with
    | some p => dropColon path (start + p)
    | none => e
  (start, dropSpaces path e)

/-- `RtlIsDosDeviceName_U`: length and position of the device name in bytes. -/
def rtlIsDosDeviceName (path : List WChar) : Option (ℕ × ℕ) :=
  match rtlDetermineDosPathNameType path with
  | .uncPath => none
  | .devicePath =>
    if path.map wineCaseMap.tolowerW = wide "\\\\.\\con" then some (6, 8) else none
  | _ =>
    let (start, e) := deviceRange path
    let name := path.drop start
    if e = start + 3 then
      if sameFirst 3 name (wide "AUX") ∨ sameFirst 3 name (wide "CON") ∨
          sameFirst 3 name (wide "NUL") ∨ sameFirst 3 name (wide "PRN") then
        some (6, start * 2 % 0x10000)
      else none
    else if e = start + 4 then
      if (sameFirst 3 name (wide "COM") ∨ sameFirst 3 name (wide "LPT")) ∧
          0x30#16 < charAt path (e - 1) ∧ charAt path (e - 1) ≤ 0x39#16 then
        some (8, start * 2 % 0x10000)
      else none
    else none

variable {path : List WChar} {e k : ℕ}

theorem dropColon_le : dropColon path e ≤ e := by
  rw [dropColon]
  split
  · exact Nat.sub_le e 1
  · exact Nat.le_refl e

theorem dropSpaces_le : dropSpaces path e ≤ e := by
  induction e with
  | zero => exact Nat.le_refl 0
  | succ e ih =>
    rw [dropSpaces]
    split
    · exact Nat.le_succ_of_le ih
    · exact Nat.le_refl _

/-- The device name is inside the path. -/
theorem deviceRange_le : (deviceRange path).2 ≤ path.length := by
  rw [deviceRange]
  refine Nat.le_trans dropSpaces_le ?_
  split
  · next p hp =>
    refine Nat.le_trans dropColon_le ?_
    have hlt := (List.findIdx?_eq_some_iff_findIdx_eq.mp hp).1
    rw [List.length_drop] at hlt
    omega
  · exact dropColon_le

theorem lt_of_charAt (h : charAt path k ≠ 0#16) : k < path.length := by
  by_contra hle
  apply h
  rw [charAt, List.getD_eq_getElem?_getD, List.getElem?_eq_none (Nat.le_of_not_lt hle)]
  rfl

theorem lt_of_isSeparator (h : isSeparator (charAt path k) = true) : k < path.length := by
  apply lt_of_charAt
  intro hzero
  rw [hzero] at h
  exact absurd h (by decide)

/-- The characters that a path of the type has at least. -/
def DosPathnameType.least : DosPathnameType → ℕ
  | .uncPath => 2
  | .absoluteDrivePath => 3
  | .relativeDrivePath => 2
  | .absolutePath => 1
  | .relativePath => 0
  | .devicePath => 4
  | .uncDotPath => 3

theorem least_le : (rtlDetermineDosPathNameType path).least ≤ path.length := by
  have hcolon {c : WChar} (h : c = colon) : c ≠ 0#16 := fun hc => by
    rw [h] at hc
    exact absurd hc (by decide)
  have hdot {c : WChar} (h : c = dot) : c ≠ 0#16 := fun hc => by
    rw [h] at hc
    exact absurd hc (by decide)
  rw [rtlDetermineDosPathNameType]
  split_ifs with h0 h1 h2 h3 h4 h5 h6
  · exact lt_of_isSeparator h1
  · exact lt_of_isSeparator h3
  · exact lt_of_isSeparator h1
  · exact lt_of_charAt (hdot (not_not.mp h2))
  · exact lt_of_isSeparator h0
  · exact Nat.zero_le _
  · exact lt_of_isSeparator h6
  · exact lt_of_charAt (hcolon (not_not.mp (not_or.mp h5).2))

/-- A device name has three or four characters of the path. -/
theorem rtlIsDosDeviceName_bounds {sz offset : ℕ} (h : rtlIsDosDeviceName path = some (sz, offset)) :
    (sz = 6 ∨ sz = 8) ∧ offset / 2 + sz / 2 ≤ path.length := by
  have hle : (deviceRange path).2 ≤ path.length := deviceRange_le
  rw [rtlIsDosDeviceName] at h
  split at h
  · exact nomatch h
  · split at h
    · next hcon =>
      have hlen := congrArg List.length hcon
      rw [List.length_map] at hlen
      obtain ⟨rfl, rfl⟩ := Prod.mk.inj (Option.some.inj h)
      exact ⟨Or.inl rfl, hlen ▸ by decide⟩
    · exact nomatch h
  · dsimp only at h
    split_ifs at h with h3 hname h4 hdigit
    · obtain ⟨rfl, rfl⟩ := Prod.mk.inj (Option.some.inj h)
      exact ⟨Or.inl rfl, by omega⟩
    · obtain ⟨rfl, rfl⟩ := Prod.mk.inj (Option.some.inj h)
      exact ⟨Or.inr rfl, by omega⟩

end Wine.Paths
