import Wine.Lib.Storing

/-!
# Tokens, SIDs and privileges

What the access check reads of a token, and how it compares a SID of the token with a SID in
memory. Addresses are counted from the start of the security descriptor.
-/

namespace Wine.Security

open Wine.Lib Reading

inductive Status where
  | success
  | accessDenied
  | bufferTooSmall
  | privilegeNotHeld
  | genericNotMapped
  | invalidSecurityDescr
  deriving DecidableEq, Repr

/-- `FIELD_OFFSET(SID, SubAuthority[count])` -/
def sidSize (count : ℕ) : ℕ := 8 + 4 * count

/-- A SID owned by a token: its bytes up to the last of its sub-authorities. -/
structure Sid where
  bytes : List (BitVec 8)
  sized : bytes.length = sidSize (bytes.getD 1 0).toNat

def Sid.subAuthorityCount (sid : Sid) : ℕ := (sid.bytes.getD 1 0).toNat

structure Group where
  enabled : Bool
  denyOnly : Bool
  sid : Sid

structure Luid where
  lowPart : BitVec 32
  highPart : BitVec 32
  deriving DecidableEq, Repr

structure Privilege where
  luid : Luid
  enabled : Bool
  deriving DecidableEq, Repr

structure LuidAndAttributes where
  luid : Luid
  attributes : BitVec 32
  deriving DecidableEq, Repr

def seSecurityPrivilege : Luid := ⟨8, 0⟩

def sePrivilegeUsedForAccess : BitVec 32 := 0x80000000

structure Token where
  privileges : List Privilege
  groups : List Group
  user : Sid

/-! ## Privileges -/

def tokenFindPrivilege (token : Token) (luid : Luid) (enabledOnly : Bool) : Option Privilege :=
  match token.privileges.find? (·.luid = luid) with
  | none => none
  | some privilege =>
    if enabledOnly && !privilege.enabled then none else some privilege

/-- One turn of the loop of `token_check_privileges`: the number of enabled privileges so far
and the entry written to `usedprivs`. -/
def checkPrivilege (token : Token) (count : ℕ) (req : LuidAndAttributes) :
    ℕ × LuidAndAttributes :=
  match tokenFindPrivilege token req.luid true with
  | none => (count, req)
  | some privilege =>
    if privilege.enabled then
      (count + 1, { req with attributes := req.attributes ||| sePrivilegeUsedForAccess })
    else
      (count, req)

def checkPrivileges (token : Token) : ℕ → List LuidAndAttributes → ℕ × List LuidAndAttributes
  | count, [] => (count, [])
  | count, req :: reqs =>
    let first := checkPrivilege token count req
    let rest := checkPrivileges token first.1 reqs
    (rest.1, first.2 :: rest.2)

def tokenCheckPrivileges (token : Token) (allRequired : Bool) (reqs : List LuidAndAttributes) :
    Bool × List LuidAndAttributes :=
  let checked := checkPrivileges token 0 reqs
  (if allRequired then checked.1 = reqs.length else 0 < checked.1, checked.2)

/-! ## SIDs -/

/-- `security_equal_sid`: `sid1` belongs to the token, `sid2` is an address. -/
def securityEqualSid (sid1 : Sid) (sid2 : ℕ) : Reading Bool := do
  let count ← number (sid2 + 1) 1
  if sid1.subAuthorityCount = count then do
    let bytes ← block sid2 (sidSize sid1.subAuthorityCount)
    pure (sid1.bytes = bytes)
  else
    pure false

def groupSidPresent (sid : ℕ) (deny : Bool) : List Group → Reading Bool
  | [] => pure false
  | group :: groups =>
    if group.enabled = false then groupSidPresent sid deny groups
    else if group.denyOnly && !deny then groupSidPresent sid deny groups
    else do
      if (← securityEqualSid group.sid sid) then pure true
      else groupSidPresent sid deny groups

def tokenSidPresent (token : Token) (sid : ℕ) (deny : Bool) : Reading Bool := do
  if (← securityEqualSid token.user sid) then pure true
  else groupSidPresent sid deny token.groups

end Wine.Security
