import Wine.Security.State

/-!
# Security descriptors and their validation

A `struct security_descriptor` is five 32-bit fields (`control`, `owner_len`, `group_len`,
`sacl_len`, `dacl_len`) followed by the owner, the group, the SACL and the DACL.
-/

namespace Wine.Security

open Wine.Lib Reading

def seDaclPresent : BitVec 32 := 0x4

/-- `sizeof(struct security_descriptor)` -/
def descriptorSize : ℕ := 20

/-- `sizeof(ACL)` -/
def aclSize : ℕ := 8

/-- `sizeof(ACE_HEADER)` -/
def aceHeaderSize : ℕ := 4

def maxAclLen : ℕ := 65535

def accessAllowedAceType : ℕ := 0

def accessDeniedAceType : ℕ := 1

def systemAuditAceType : ℕ := 2

def systemAlarmAceType : ℕ := 3

def sdControl : Reading ℕ := number 0 4

def sdOwnerLen : Reading ℕ := number 4 4

def sdGroupLen : Reading ℕ := number 8 4

def sdSaclLen : Reading ℕ := number 12 4

def sdDaclLen : Reading ℕ := number 16 4

def aclAceCount (acl : ℕ) : Reading ℕ := number (acl + 4) 2

def aceType (ace : ℕ) : Reading ℕ := number ace 1

def aceSize (ace : ℕ) : Reading ℕ := number (ace + 2) 2

/-- `FIELD_OFFSET(…, Mask)` of an allowed or denied ACE -/
def aceMask (ace : ℕ) : Reading (BitVec 32) := do
  pure (BitVec.ofNat 32 (← number (ace + 4) 4))

/-- `&ace->SidStart`, the same offset in all four kinds of ACE -/
def aceSidStart (ace : ℕ) : ℕ := ace + 8

def subAuthorityCount (sid : ℕ) : Reading ℕ := number (sid + 1) 1

def aceNext (ace : ℕ) : Reading ℕ := do
  let size ← aceSize ace
  step ace (ace + size)
  pure (ace + size)

/-- `ace->AceSize - FIELD_OFFSET(…, SidStart)`, stored in an unsigned 32-bit variable -/
def sidRoom (size : ℕ) : ℕ := (BitVec.ofNat 32 size - 8).toNat

/-- The loop of `acl_is_valid` with `count` entries and `size` bytes left. -/
def aclIsValidLoop : ℕ → ℕ → ℕ → Reading Bool
  | 0, _, _ => pure true
  | count + 1, ace, size =>
    if size < aceHeaderSize then pure false
    else do
      let length ← aceSize ace
      if size < length then pure false
      else do
        let kind ← aceType ace
        if kind = accessDeniedAceType ∨ kind = accessAllowedAceType ∨
            kind = systemAuditAceType ∨ kind = systemAlarmAceType then
          if sidRoom length < sidSize 0 then pure false
          else do
            if sidRoom length < sidSize (← subAuthorityCount (aceSidStart ace)) then pure false
            else do
              let next ← aceNext ace
              aclIsValidLoop count next (size - length)
        else
          pure false

def aclIsValid (acl size : ℕ) : Reading Bool :=
  if size < aclSize then pure false
  else do
    let count ← aclAceCount acl
    aclIsValidLoop count (acl + aclSize) (min size maxAclLen - aclSize)

/-- The DACL, if there is one, and whether the control word says that it is present. -/
def sdGetDacl : Reading (Option ℕ × Bool) := do
  let present := (BitVec.ofNat 32 (← sdControl) &&& seDaclPresent) != 0
  if (← sdDaclLen) ≠ 0 then
    pure (some (descriptorSize + (← sdOwnerLen) + (← sdGroupLen) + (← sdSaclLen)), present)
  else
    pure (none, present)

def sdGetSacl : Reading (Option ℕ) := do
  if (← sdSaclLen) ≠ 0 then
    pure (some (descriptorSize + (← sdOwnerLen) + (← sdGroupLen)))
  else
    pure none

def sdGetOwner : Reading (Option ℕ) := do
  if (← sdOwnerLen) ≠ 0 then pure (some descriptorSize) else pure none

def sdGetGroup : Reading (Option ℕ) := do
  if (← sdGroupLen) ≠ 0 then pure (some (descriptorSize + (← sdOwnerLen))) else pure none

/-- The test `sd_is_valid` makes of the owner and, with the owner's length again, of the
group. -/
def sidFits (sid : Option ℕ) : Reading Bool :=
  match sid with
  | none => pure true
  | some sid => do
    let needed := sidSize (← subAuthorityCount sid)
    let ownerLen ← sdOwnerLen
    pure (!(ownerLen < sidSize 1 || needed > ownerLen))

def aclFits (acl : Option ℕ) (length : ℕ) : Reading Bool :=
  match acl with
  | none => pure true
  | some acl => aclIsValid acl length

def sdIsValid (size : ℕ) : Reading Bool :=
  if size < descriptorSize then pure false
  else do
    let ownerLen ← sdOwnerLen
    if ownerLen ≥ sidSize 255 ∨ descriptorSize + ownerLen > size then pure false
    else do
      let owner ← sdGetOwner
      if !(← sidFits owner) then pure false
      else do
        let groupLen ← sdGroupLen
        if groupLen ≥ sidSize 255 ∨ descriptorSize + ownerLen + groupLen > size then pure false
        else do
          let group ← sdGetGroup
          if !(← sidFits group) then pure false
          else do
            let saclLen ← sdSaclLen
            if saclLen ≥ maxAclLen ∨ descriptorSize + ownerLen + groupLen + saclLen > size then
              pure false
            else do
              let sacl ← sdGetSacl
              if !(← aclFits sacl saclLen) then pure false
              else do
                let daclLen ← sdDaclLen
                if daclLen ≥ maxAclLen ∨
                    descriptorSize + ownerLen + groupLen + saclLen + daclLen > size then
                  pure false
                else do
                  let dacl ← sdGetDacl
                  aclFits dacl.1 daclLen

end Wine.Security

/-!
## The access check
-/

namespace Wine.Security

open Wine.Lib Reading

def genericRead : BitVec 32 := 0x80000000

def genericWrite : BitVec 32 := 0x40000000

def genericExecute : BitVec 32 := 0x20000000

def genericAll : BitVec 32 := 0x10000000

def maximumAllowed : BitVec 32 := 0x02000000

def accessSystemSecurity : BitVec 32 := 0x01000000

def readControl : BitVec 32 := 0x00020000

def writeDac : BitVec 32 := 0x00040000

structure GenericMapping where
  genericRead : BitVec 32
  genericWrite : BitVec 32
  genericExecute : BitVec 32
  genericAll : BitVec 32
  deriving DecidableEq, Repr

def mapGenericMask (mask : BitVec 32) (mapping : GenericMapping) : BitVec 32 :=
  let mask := if mask &&& genericRead ≠ 0 then mask ||| mapping.genericRead else mask
  let mask := if mask &&& genericWrite ≠ 0 then mask ||| mapping.genericWrite else mask
  let mask := if mask &&& genericExecute ≠ 0 then mask ||| mapping.genericExecute else mask
  let mask := if mask &&& genericAll ≠ 0 then mask ||| mapping.genericAll else mask
  mask &&& 0x0FFFFFFF

/-- What `token_access_check` returns: its value and the four variables it writes. -/
structure Checked where
  verdict : Status
  grantedAccess : BitVec 32
  status : Status
  privCount : ℕ
  privs : LuidAndAttributes
  deriving DecidableEq, Repr

/-- The body of the ACE loop: `none` when it returns from the function, otherwise the current
and the denied access. -/
def checkAce (token : Token) (desired : BitVec 32) (mapping : GenericMapping) (ace : ℕ)
    (current denied : BitVec 32) : Reading (Option (BitVec 32 × BitVec 32)) := do
  let kind ← aceType ace
  if kind = accessDeniedAceType then
    if (← tokenSidPresent token (aceSidStart ace) true) then
      let access := mapGenericMask (← aceMask ace) mapping
      if desired &&& maximumAllowed ≠ 0 then pure (some (current, denied ||| access))
      else if desired &&& access ≠ 0 then pure none
      else pure (some (current, denied ||| (access &&& ~~~current)))
    else pure (some (current, denied))
  else if kind = accessAllowedAceType then
    if (← tokenSidPresent token (aceSidStart ace) false) then
      let access := mapGenericMask (← aceMask ace) mapping
      if desired &&& maximumAllowed ≠ 0 then pure (some (current ||| access, denied))
      else pure (some (current ||| (access &&& ~~~denied), denied))
    else pure (some (current, denied))
  else
    pure (some (current, denied))

/-- The ACE loop with `count` entries left. `granted` is `*granted_access`, which the loop
compares with the desired access and does not write unless it returns. -/
def checkAces (token : Token) (desired granted : BitVec 32) (mapping : GenericMapping) :
    ℕ → ℕ → BitVec 32 → BitVec 32 → Reading (Option (BitVec 32 × BitVec 32))
  | 0, _, current, denied => pure (some (current, denied))
  | count + 1, ace, current, denied => do
    match ← checkAce token desired mapping ace current denied with
    | none => pure none
    | some (current, denied) =>
      if desired = granted then pure (some (current, denied))
      else do
        let next ← aceNext ace
        checkAces token desired granted mapping count next current denied

/-- Step 4 of `token_access_check` and what follows the loop. -/
def checkDacl (token : Token) (desired : BitVec 32) (mapping : GenericMapping) (dacl : ℕ)
    (current : BitVec 32) (privCount : ℕ) (privs : LuidAndAttributes) : Reading Checked := do
  let count ← aclAceCount dacl
  match ← checkAces token desired 0 mapping count (dacl + aclSize) current 0 with
  | none => pure ⟨.success, 0, .success, privCount, privs⟩
  | some (current, denied) =>
    if desired &&& maximumAllowed ≠ 0 then
      let granted := current &&& ~~~denied
      pure ⟨if granted ≠ 0 then .success else .accessDenied, granted, .success, privCount, privs⟩
    else if current &&& desired = desired then
      pure ⟨.success, current &&& desired, .success, privCount, privs⟩
    else
      pure ⟨.accessDenied, 0, .success, privCount, privs⟩

/-- Steps 3 and 4 of `token_access_check`. -/
def checkOwner (token : Token) (desired : BitVec 32) (mapping : GenericMapping)
    (owner dacl : ℕ) (current : BitVec 32) (privCount : ℕ) (privs : LuidAndAttributes) :
    Reading Checked := do
  if (← tokenSidPresent token owner false) then
    let current := current ||| (readControl ||| writeDac)
    if desired = current then
      pure ⟨.success, current, .success, privCount, privs⟩
    else
      checkDacl token desired mapping dacl current privCount privs
  else
    checkDacl token desired mapping dacl current privCount privs

/-- Step 2 of `token_access_check` and the steps after it. -/
def checkSecurity (token : Token) (desired : BitVec 32) (mapping : GenericMapping)
    (owner dacl privCount : ℕ) (privs : LuidAndAttributes) : Reading Checked :=
  if desired &&& accessSystemSecurity ≠ 0 then
    match tokenCheckPrivileges token true [⟨seSecurityPrivilege, 0⟩] with
    | (true, used) =>
      if privCount ≥ 1 then
        let privs := used.headD ⟨seSecurityPrivilege, 0⟩
        if desired = accessSystemSecurity then
          pure ⟨.success, accessSystemSecurity, .success, 1, privs⟩
        else
          checkOwner token desired mapping owner dacl accessSystemSecurity 1 privs
      else
        pure ⟨.bufferTooSmall, 0, .success, 1, privs⟩
    | (false, _) => pure ⟨.privilegeNotHeld, 0, .success, 0, privs⟩
  else
    checkOwner token desired mapping owner dacl 0 0 privs

def tokenAccessCheck (token : Token) (desired : BitVec 32) (privs : LuidAndAttributes)
    (privCount : ℕ) (mapping : GenericMapping) : Reading Checked :=
  if desired &&& (genericRead ||| genericWrite ||| genericExecute ||| genericAll) ≠ 0 then
    pure ⟨.accessDenied, 0, .genericNotMapped, 0, privs⟩
  else do
    let (dacl, present) ← sdGetDacl
    match ← sdGetOwner with
    | none => pure ⟨.accessDenied, 0, .invalidSecurityDescr, 0, privs⟩
    | some owner =>
      if (← sdGetGroup) = none then pure ⟨.accessDenied, 0, .invalidSecurityDescr, 0, privs⟩
      else if present = false then pure ⟨.success, desired, .success, 0, privs⟩
      else
        match dacl with
        | none => pure ⟨.accessDenied, 0, .success, 0, privs⟩
        | some dacl => checkSecurity token desired mapping owner dacl privCount privs

end Wine.Security
