import Mathlib.Algebra.Group.Int.Defs
import Mathlib.Algebra.Group.Nat.Defs
import Mathlib.Tactic.Common

/-!
# Unicode strings

`WCHAR`s and the comparison of strings without regard to case. The case tables are a parameter:
they are data that no function of the server depends on beyond applying them.
-/

namespace Wine

abbrev WChar := BitVec 16

instance instLawfulBEqWChar : LawfulBEq WChar := inferInstance

structure CaseMap where
  toupperW : WChar → WChar
  tolowerW : WChar → WChar

/-- The case map of the ASCII letters, on which all case tables agree. -/
def asciiCaseMap : CaseMap where
  toupperW c := if 97 ≤ c.toNat ∧ c.toNat ≤ 122 then c - 32 else c
  tolowerW c := if 65 ≤ c.toNat ∧ c.toNat ≤ 90 then c + 32 else c

/-- `memicmpW` on the first `n` characters; strings that are shorter are not compared further. -/
def memicmpW (cm : CaseMap) : List WChar → List WChar → ℕ → ℤ
  | c :: s, d :: t, n + 1 =>
    let ret := ((cm.tolowerW c).toNat : ℤ) - (cm.tolowerW d).toNat
    if ret ≠ 0 then ret else memicmpW cm s t n
  | _, _, _ => 0

/-- A string literal of the C source, given by its characters. -/
def wide (s : String) : List WChar := s.toList.map fun c => BitVec.ofNat 16 c.toNat

end Wine
