import Wine.Lib.Storing

/-!
# Access control lists

The functions that read and edit an ACL in memory. Addresses are counted from the start of the ACL,
whose header has 8 bytes: revision, a byte of zero, size, count and two bytes of zero. A new ACE
comes from other memory, and so does a SID; both start at address 0 there.
-/

namespace Wine.Ntdll
open Lib Lib.Reading

def ACL_REVISION : ℕ := 2
def MAX_ACL_REVISION : ℕ := 4
def ACCESS_ALLOWED_ACE_TYPE : ℕ := 0
def ACCESS_DENIED_ACE_TYPE : ℕ := 1
def SYSTEM_AUDIT_ACE_TYPE : ℕ := 2
def SUCCESSFUL_ACCESS_ACE_FLAG : ℕ := 0x40
def FAILED_ACCESS_ACE_FLAG : ℕ := 0x80
def SID_REVISION : ℕ := 1
def SID_MAX_SUB_AUTHORITIES : ℕ := 15

inductive Status
  | success
  | invalidSid
  | revisionMismatch
  | invalidAcl
  | allottedSpaceExceeded
  | invalidParameter
  deriving DecidableEq, Repr

/-! ## SIDs -/

def subAuthorityCount (sid : Memory) : ℕ := load sid 1 1

def rtlLengthSid (sid : Memory) : ℕ := (subAuthorityCount sid) * 4 + 8

/-- `RtlValidSid` of a SID that is not `NULL`. -/
def RtlValidSid (sid : Memory) : Prop :=
  load sid 0 1 = SID_REVISION ∧ subAuthorityCount sid ≤ SID_MAX_SUB_AUTHORITIES

instance (sid : Memory) : Decidable (RtlValidSid sid) := inferInstanceAs (Decidable (_ ∧ _))

/-- `RtlCopySid` of a SID that is not `NULL`. -/
def rtlCopySid (length : ℕ) (m : Memory) (dst : ℕ) (sid : Memory) : Memory :=
  if ¬RtlValidSid sid ∨ length < rtlLengthSid sid then m
  else store m dst (bytesAt sid 0 (subAuthorityCount sid * 4 + 8))

/-! ## Walks -/

def aclRevision (m : Memory) : ℕ := load m 0 1

def aclSize (m : Memory) : ℕ := load m 2 2

theorem aclSize_lt (m : Memory) : aclSize m < 65536 := load_lt

def aceCount (m : Memory) : ℕ := load m 4 2

def aceSize (m : Memory) (ace : ℕ) : ℕ := load m (ace + 2) 2

def setAceCount (m : Memory) (count : ℕ) : Memory := store m 4 (littleEndian 2 count)

/-- The loop of `RtlValidAcl`, which goes once more than there are ACEs. -/
def validAclLoop (m : Memory) : ℕ → ℕ → Bool
  | 0, _ => true
  | n + 1, ace => if aclSize m < ace then false else validAclLoop m n (ace + aceSize m ace)

def rtlValidAcl (m : Memory) : Bool :=
  if aclRevision m ≠ ACL_REVISION then false else validAclLoop m (aceCount m + 1) 8

def firstFreeLoop (m : Memory) : ℕ → ℕ → Option ℕ
  | 0, ace => if aclSize m ≤ ace then none else some ace
  | n + 1, ace => if aclSize m ≤ ace then none else firstFreeLoop m n (ace + aceSize m ace)

/-- The place after the last ACE, or none when the function returns 0. -/
def rtlFirstFreeAce (m : Memory) : Option ℕ := firstFreeLoop m (aceCount m) 8

def getAceLoop (m : Memory) : ℕ → ℕ → ℕ
  | 0, ace => ace
  | n + 1, ace => getAceLoop m n (ace + aceSize m ace)

def rtlGetAce (m : Memory) (index : ℕ) : Option ℕ :=
  if aceCount m < index then none else some (getAceLoop m index 8)

/-! ## Edits -/

/-- Generically adds an ACE to an ACL. -/
def addAccessAce (m : Memory) (revision flags mask : ℕ) (sid : Option Memory) (type : ℕ) :
    Status × Memory :=
  match sid with
  | none => (.invalidSid, m)
  | some sid =>
    if ¬RtlValidSid sid then (.invalidSid, m)
    else if MAX_ACL_REVISION < aclRevision m ∨ MAX_ACL_REVISION < revision then
      (.revisionMismatch, m)
    else if ¬rtlValidAcl m then (.invalidAcl, m)
    else
      match rtlFirstFreeAce m with
      | none => (.invalidAcl, m)
      | some ace =>
        -- calculate generic size of the ACE
        let lengthSid := rtlLengthSid sid
        let size := 4 + 4 + lengthSid
        if aclSize m < ace + size then (.allottedSpaceExceeded, m)
        else
          let m' := store m ace (littleEndian 1 type)
          let m' := store m' (ace + 1) (littleEndian 1 flags)
          let m' := store m' (ace + 2) (littleEndian 2 size)
          let m' := store m' (ace + 4) (littleEndian 4 mask)
          let m' := rtlCopySid lengthSid m' (ace + 8) sid
          let m' := store m' 0 (littleEndian 1 (max (aclRevision m') revision))
          (.success, setAceCount m' (aceCount m' + 1))

def rtlAddAccessAllowedAceEx (m : Memory) (revision flags mask : ℕ) (sid : Option Memory) :
    Status × Memory :=
  addAccessAce m revision flags mask sid ACCESS_ALLOWED_ACE_TYPE

def rtlAddAccessDeniedAceEx (m : Memory) (revision flags mask : ℕ) (sid : Option Memory) :
    Status × Memory :=
  addAccessAce m revision flags mask sid ACCESS_DENIED_ACE_TYPE

def auditFlags (success failure : Bool) : ℕ :=
  (if success then SUCCESSFUL_ACCESS_ACE_FLAG else 0) +
    (if failure then FAILED_ACCESS_ACE_FLAG else 0)

def rtlAddAuditAccessAce (m : Memory) (revision mask : ℕ) (sid : Option Memory)
    (success failure : Bool) : Status × Memory :=
  addAccessAce m revision (auditFlags success failure) mask sid SYSTEM_AUDIT_ACE_TYPE

/-- The loop of `RtlAddAce` that counts the ACEs of the first `acelen` bytes of `src`. It goes on
for ever at an ACE of size 0, and has no result then. -/
def countAces (src : Memory) (acelen : ℕ) : ℕ → ℕ → ℕ → Option ℕ
  | fuel, ace, n =>
    if ace < acelen then
      match fuel with
      | 0 => none
      | fuel + 1 => countAces src acelen fuel (ace + aceSize src ace) (n + 1)
    else some n

/-- The revision and the index that the caller gives are not used. -/
def rtlAddAce (m : Memory) (_revision _start : ℕ) (src : Memory) (acelen : ℕ) : Option (Status × Memory) :=
  if aclRevision m ≠ ACL_REVISION then some (.invalidParameter, m)
  else
    match rtlFirstFreeAce m with
    | none => some (.invalidParameter, m)
    | some target =>
      match countAces src acelen acelen 0 0 with
      | none => none
      | some n =>
        -- too much aces
        if aclSize m < target + acelen then some (.invalidParameter, m)
        else
          let m' := store m target (bytesAt src 0 acelen)
          some (.success, setAceCount m' (aceCount m' + n))

/-- The length of the next `n` ACEs. -/
def restLength (m : Memory) : ℕ → ℕ → ℕ
  | 0, _ => 0
  | n + 1, ace => aceSize m ace + restLength m n (ace + aceSize m ace)

def rtlDeleteAce (m : Memory) (index : ℕ) : Status × Memory :=
  match rtlGetAce m index with
  | none => (.invalidParameter, m)
  | some ace =>
    -- skip over the ACE we are deleting
    let next := ace + aceSize m ace
    let len := restLength m (aceCount m - (index + 1)) next
    -- slide them all backwards
    let m' := store m ace (bytesAt m next len)
    (.success, setAceCount m' (aceCount m' + 65535))

end Wine.Ntdll

/-!
## Absolute and self-relative security descriptors

An absolute descriptor points to its SIDs and ACLs, each in memory of its own or `NULL`. A
self-relative one is a block of memory that holds them, with offsets for pointers:

    0 Revision   1 Sbz1   2 Control   4 Owner   8 Group   12 Sacl   16 Dacl
-/

namespace Wine.Ntdll
open Lib Lib.Reading

def SE_DACL_PRESENT : BitVec 16 := 0x0004
def SE_SACL_PRESENT : BitVec 16 := 0x0010
def SE_SELF_RELATIVE : BitVec 16 := 0x8000
def SECURITY_DESCRIPTOR_REVISION : ℕ := 1
def SECURITY_DESCRIPTOR_MIN_LENGTH : ℕ := 20

/-- An absolute descriptor; a pointer is what it points to. -/
structure SecurityDescriptor where
  revision : BitVec 8
  sbz1 : BitVec 8
  control : BitVec 16
  owner : Option Memory
  group : Option Memory
  sacl : Option Memory
  dacl : Option Memory

inductive SdStatus
  | success
  | invalidParameter
  | bufferTooSmall
  deriving DecidableEq, Repr

/-- A `NULL` pointer is followed. -/
inductive SdFault
  | nullPointer
  deriving DecidableEq, Repr

/-- The length of a SID, 0 for `NULL`. -/
def lengthSid : Option Memory → ℕ
  | none => 0
  | some sid => rtlLengthSid sid

/-- The length of an ACL of a descriptor, if it is present and not `NULL`. -/
def lengthAcl (control flag : BitVec 16) : Option Memory → ℕ
  | none => 0
  | some acl => if control &&& flag ≠ 0 then aclSize acl else 0

/-- `RtlLengthSecurityDescriptor` of an absolute descriptor. -/
def rtlLengthSecurityDescriptor (sd : SecurityDescriptor) : ℕ :=
  SECURITY_DESCRIPTOR_MIN_LENGTH + lengthSid sd.owner + lengthSid sd.group +
    lengthAcl sd.control SE_SACL_PRESENT sd.sacl + lengthAcl sd.control SE_DACL_PRESENT sd.dacl

def relControl (rel : Memory) : BitVec 16 := BitVec.ofNat 16 (load rel 2 2)

/-- The bytes behind a pointer; copying no bytes follows no pointer. -/
def bytesOf (p : Option Memory) (length : ℕ) : List (BitVec 8) :=
  match p with
  | none => []
  | some m => bytesAt m 0 length

/-- A part is stored at `offset`, with the offset in the field of the part. -/
def storePart (rel : Memory) (field offset : ℕ) (bytes : List (BitVec 8)) : Memory :=
  store (store rel field (littleEndian 4 offset)) offset bytes

/-- An ACL is stored behind the `length` bytes of the part that was stored last, at `offset`.
Returns the memory with the offset and length of the last part. -/
def storeAcl (rel : Memory) (flag : BitVec 16) (field offset length : ℕ) (acl : Option Memory) :
    Except SdFault (Memory × ℕ × ℕ) :=
  if relControl rel &&& flag ≠ 0 then
    match acl with
    | none => .error .nullPointer
    | some acl =>
      .ok (storePart rel field (offset + length) (bytesAt acl 0 (aclSize acl)),
        offset + length, aclSize acl)
  else .ok (store rel field (littleEndian 4 0), offset, length)

/-- `RtlMakeSelfRelativeSD` of an absolute descriptor, into the buffer `rel` of `bufferLength`
bytes. Returns the status, the buffer and the length that is stored. -/
def rtlMakeSelfRelativeSD (abs : Option SecurityDescriptor) (rel : Option Memory)
    (bufferLength : Option ℕ) : Except SdFault (SdStatus × Option Memory × Option ℕ) :=
  match abs, bufferLength with
  | some abs, some bufferLength =>
    let length := rtlLengthSecurityDescriptor abs
    if bufferLength < length then .ok (.bufferTooSmall, rel, some length)
    else
      match rel with
      | none => .ok (.invalidParameter, none, some bufferLength)
      | some rel => do
        let rel := store rel 0 [abs.revision]
        let rel := store rel 1 [abs.sbz1]
        let rel := store rel 2 (littleEndian 2 (abs.control ||| SE_SELF_RELATIVE).toNat)
        let offset := SECURITY_DESCRIPTOR_MIN_LENGTH
        let length := lengthSid abs.owner
        let rel := storePart rel 4 offset (bytesOf abs.owner length)
        let offset := offset + length
        let length := lengthSid abs.group
        let rel := storePart rel 8 offset (bytesOf abs.group length)
        let (rel, offset, length) ← storeAcl rel SE_SACL_PRESENT 12 offset length abs.sacl
        let (rel, _, _) ← storeAcl rel SE_DACL_PRESENT 16 offset length abs.dacl
        return (.success, some rel, some bufferLength)
  | _, _ => .ok (.invalidParameter, rel, bufferLength)

/-! ## Back to an absolute descriptor -/

/-- The sizes of the buffers, as the caller gives them and as they are returned. -/
structure SdSizes where
  absolute : ℕ
  dacl : ℕ
  sacl : ℕ
  owner : ℕ
  group : ℕ

/-- The memory from `p` on. -/
def memFrom (m : Memory) (p : ℕ) : Memory := fun i => m (p + i)

def relOwner (rel : Memory) : ℕ := load rel 4 4

def relGroup (rel : Memory) : ℕ := load rel 8 4

def relSacl (rel : Memory) : ℕ := load rel 12 4

def relDacl (rel : Memory) : ℕ := load rel 16 4

/-- A buffer that is too small for what is needed gets the size that is. -/
def requireSize (needed : Bool) (size length : ℕ) : Bool × ℕ :=
  if needed && size < length then (false, length) else (true, size)

/-- `*dst` after a copy of `length` bytes. -/
def copyTo (dst src : Memory) (length : ℕ) : Memory := store dst 0 (bytesAt src 0 length)

/-- `RtlSelfRelativeToAbsoluteSD`, with the buffers of the caller: the absolute descriptor and, in
`bufs`, the memory for dacl, sacl, owner and group. Returns the status, the descriptor, which points
to these buffers, and the sizes. `sizes` is none when one of the pointers to a size is `NULL`. -/
def rtlSelfRelativeToAbsoluteSD (rel : Option Memory) (abs : SecurityDescriptor)
    (bufDacl bufSacl bufOwner bufGroup : Memory) (sizes : Option SdSizes) :
    SdStatus × SecurityDescriptor × Option SdSizes :=
  match rel, sizes with
  | some rel, some sizes =>
    if relControl rel &&& SE_SELF_RELATIVE = 0 then (.invalidParameter, abs, some sizes)
    else
      let dacl := memFrom rel (relDacl rel)
      let sacl := memFrom rel (relSacl rel)
      let owner := memFrom rel (relOwner rel)
      let group := memFrom rel (relGroup rel)
      let hasDacl := relControl rel &&& SE_DACL_PRESENT ≠ 0
      let hasSacl := relControl rel &&& SE_SACL_PRESENT ≠ 0
      let hasOwner := relOwner rel ≠ 0
      let hasGroup := relGroup rel ≠ 0
      -- confirm buffers are sufficiently large
      let (ok₁, absoluteSize) := requireSize true sizes.absolute SECURITY_DESCRIPTOR_MIN_LENGTH
      let (ok₂, daclSize) := requireSize hasDacl sizes.dacl (aclSize dacl)
      let (ok₃, saclSize) := requireSize hasSacl sizes.sacl (aclSize sacl)
      let (ok₄, ownerSize) := requireSize hasOwner sizes.owner (rtlLengthSid owner)
      let (ok₅, groupSize) := requireSize hasGroup sizes.group (rtlLengthSid group)
      let sizes := ⟨absoluteSize, daclSize, saclSize, ownerSize, groupSize⟩
      if ¬(ok₁ && ok₂ && ok₃ && ok₄ && ok₅) then (.bufferTooSmall, abs, some sizes)
      else
        (.success,
          { abs with
            revision := rel 0
            control := relControl rel &&& ~~~SE_SELF_RELATIVE
            sacl := if hasSacl then some (copyTo bufSacl sacl (aclSize sacl)) else abs.sacl
            dacl := if hasDacl then some (copyTo bufDacl dacl (aclSize dacl)) else abs.dacl
            owner := if hasOwner then some (copyTo bufOwner owner (rtlLengthSid owner)) else abs.owner
            group := if hasGroup then some (copyTo bufGroup group (rtlLengthSid group)) else abs.group },
          some sizes)
  | _, _ => (.invalidParameter, abs, sizes)

end Wine.Ntdll
