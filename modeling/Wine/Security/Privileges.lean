import Wine.Security.State

/-!
# Adjusting the privileges of a token

The list of privileges of a token under `adjust_token_privileges`. The request counts the
entries whose LUID the token holds before it changes anything, and reserves that much of the
reply; the adjusting pass then writes the previous state of what it changes.
-/

namespace Wine.Security

def sePrivilegeEnabledByDefault : BitVec 32 := 0x00000001

def sePrivilegeEnabled : BitVec 32 := 0x00000002

def sePrivilegeRemove : BitVec 32 := 0x00000004

/-- `struct privilege` with its `def` bit. -/
structure HeldPrivilege extends Privilege where
  byDefault : Bool
  deriving DecidableEq, Repr

/-- `Attributes & SE_PRIVILEGE_REMOVE` -/
def LuidAndAttributes.removes (req : LuidAndAttributes) : Bool :=
  req.attributes &&& sePrivilegeRemove != 0

/-- `Attributes & SE_PRIVILEGE_ENABLED` -/
def LuidAndAttributes.enables (req : LuidAndAttributes) : Bool :=
  req.attributes &&& sePrivilegeEnabled != 0

def luidAndAttrFromPrivilege (privilege : HeldPrivilege) : LuidAndAttributes where
  luid := privilege.luid
  attributes := (if privilege.enabled then sePrivilegeEnabled else 0) |||
    (if privilege.byDefault then sePrivilegeEnabledByDefault else 0)

def findPrivilege (privileges : List HeldPrivilege) (luid : Luid) : Option HeldPrivilege :=
  privileges.find? (·.luid = luid)

def privilegeRemove (privileges : List HeldPrivilege) (luid : Luid) : List HeldPrivilege :=
  privileges.eraseP (·.luid = luid)

/-- `privilege->enabled = on` for the privilege that `token_find_privilege` returns. -/
def setEnabled (luid : Luid) (on : Bool) : List HeldPrivilege → List HeldPrivilege
  | [] => []
  | p :: ps => if p.luid = luid then { p with enabled := on } :: ps else p :: setEnabled luid on ps

/-- The variables of the adjusting pass: `modPrivs` is what was written to the reply so far and
`modPrivsCount` the room that is left. -/
structure Adjusting where
  privileges : List HeldPrivilege
  modPrivs : List LuidAndAttributes
  modPrivsCount : ℕ
  notAllAssigned : Bool
  deriving DecidableEq, Repr

/-- The entry for the previous state. Without the reply buffer (`granted = false`: the
allocation failed, and the pointer is null) the write is a fault. -/
def savePrevious (granted : Bool) (s : Adjusting) (privilege : HeldPrivilege) :
    Option Adjusting :=
  if s.modPrivsCount = 0 then some s
  else if granted then
    some { s with
      modPrivs := s.modPrivs ++ [luidAndAttrFromPrivilege privilege]
      modPrivsCount := s.modPrivsCount - 1 }
  else none

def adjustPrivilege (granted : Bool) (s : Adjusting) (req : LuidAndAttributes) :
    Option Adjusting :=
  match findPrivilege s.privileges req.luid with
  | none => some { s with notAllAssigned := true }
  | some privilege =>
    if req.removes then
      some { s with privileges := privilegeRemove s.privileges req.luid }
    else
      (savePrevious granted s privilege).map fun s =>
        { s with privileges := setEnabled req.luid req.enables s.privileges }

def tokenAdjustPrivileges (granted : Bool) (s : Adjusting) :
    List LuidAndAttributes → Option Adjusting
  | [] => some s
  | req :: reqs => (adjustPrivilege granted s req).bind
      fun s => tokenAdjustPrivileges granted s reqs

def tokenDisablePrivileges (privileges : List HeldPrivilege) : List HeldPrivilege :=
  privileges.map fun p => { p with enabled := false }

/-- `sizeof(LUID_AND_ATTRIBUTES)` -/
def luidAndAttributesSize : ℕ := 12

def modifiedPrivCount (privileges : List HeldPrivilege) (privs : List LuidAndAttributes) : ℕ :=
  privs.countP fun req => (findPrivilege privileges req.luid).isSome

/-- The entries for which the reply has room: `replyMax` is `get_reply_max_size()`. -/
def announced (replyMax : ℕ) (privileges : List HeldPrivilege)
    (privs : List LuidAndAttributes) : ℕ :=
  min (modifiedPrivCount privileges privs) (replyMax / luidAndAttributesSize)

/-- `reply->len`, the entries written to the reply data, and the privileges of the token
afterwards. -/
structure AdjustReply where
  len : ℕ
  modPrivs : List LuidAndAttributes
  privileges : List HeldPrivilege
  notAllAssigned : Bool
  deriving DecidableEq, Repr

/-- The handler, on the token that `handle` names; `none` is a fault. -/
def adjustTokenPrivileges (disableAll getModifiedState : Bool) (replyMax : ℕ) (granted : Bool)
    (privileges : List HeldPrivilege) (privs : List LuidAndAttributes) : Option AdjustReply :=
  let count :=
    if getModifiedState && !disableAll then announced replyMax privileges privs else 0
  let len := count * luidAndAttributesSize
  if disableAll then
    some ⟨len, [], tokenDisablePrivileges privileges, false⟩
  else
    (tokenAdjustPrivileges granted ⟨privileges, [], count, false⟩ privs).map fun s =>
      ⟨len, s.modPrivs, s.privileges, s.notAllAssigned⟩

/-! ## Finding after a change -/

theorem findPrivilege_nil (luid : Luid) : findPrivilege [] luid = none := rfl

theorem findPrivilege_cons (p : HeldPrivilege) (ps : List HeldPrivilege) (luid : Luid) :
    findPrivilege (p :: ps) luid = if p.luid = luid then some p else findPrivilege ps luid := by
  by_cases h : p.luid = luid <;> simp [findPrivilege, h]

theorem findPrivilege_luid {ps : List HeldPrivilege} {luid : Luid} {p : HeldPrivilege}
    (h : findPrivilege ps luid = some p) : p.luid = luid := by
  have := List.find?_some h
  simpa using this

theorem findPrivilege_setEnabled_self {ps : List HeldPrivilege} {luid : Luid}
    {p : HeldPrivilege} (on : Bool) (h : findPrivilege ps luid = some p) :
    findPrivilege (setEnabled luid on ps) luid = some { p with enabled := on } := by
  induction ps with
  | nil => cases h
  | cons q qs ih =>
    rw [findPrivilege_cons] at h
    by_cases hq : q.luid = luid
    · rw [if_pos hq] at h
      cases h
      simp [setEnabled, hq, findPrivilege_cons]
    · rw [if_neg hq] at h
      rw [setEnabled, if_neg hq, findPrivilege_cons, if_neg hq]
      exact ih h

theorem findPrivilege_setEnabled_of_ne {luid other : Luid} (hne : luid ≠ other) (on : Bool)
    (ps : List HeldPrivilege) :
    findPrivilege (setEnabled luid on ps) other = findPrivilege ps other := by
  induction ps with
  | nil => rfl
  | cons q qs ih =>
    by_cases hq : q.luid = luid
    · have hqo : q.luid ≠ other := hq ▸ hne
      simp [setEnabled, hq, findPrivilege_cons, hne]
    · rw [setEnabled, if_neg hq, findPrivilege_cons, findPrivilege_cons, ih]

theorem setEnabled_of_none {ps : List HeldPrivilege} {luid : Luid} (on : Bool)
    (h : findPrivilege ps luid = none) : setEnabled luid on ps = ps := by
  induction ps with
  | nil => rfl
  | cons q qs ih =>
    rw [findPrivilege_cons] at h
    by_cases hq : q.luid = luid
    · rw [if_pos hq] at h
      cases h
    · rw [if_neg hq] at h
      rw [setEnabled, if_neg hq, ih h]

theorem isSome_findPrivilege_setEnabled (luid other : Luid) (on : Bool)
    (ps : List HeldPrivilege) :
    (findPrivilege (setEnabled luid on ps) other).isSome = (findPrivilege ps other).isSome := by
  by_cases hne : luid = other
  · subst hne
    cases h : findPrivilege ps luid with
    | none => rw [setEnabled_of_none on h, h]
    | some p => rw [findPrivilege_setEnabled_self on h]; rfl
  · rw [findPrivilege_setEnabled_of_ne hne]

@[simp] theorem enables_luidAndAttrFromPrivilege (p : HeldPrivilege) :
    (luidAndAttrFromPrivilege p).enables = p.enabled := by
  unfold LuidAndAttributes.enables luidAndAttrFromPrivilege
  dsimp only
  cases p.enabled <;> cases p.byDefault <;> decide

@[simp] theorem removes_luidAndAttrFromPrivilege (p : HeldPrivilege) :
    (luidAndAttrFromPrivilege p).removes = false := by
  unfold LuidAndAttributes.removes luidAndAttrFromPrivilege
  dsimp only
  cases p.enabled <;> cases p.byDefault <;> decide

@[simp] theorem luid_luidAndAttrFromPrivilege (p : HeldPrivilege) :
    (luidAndAttrFromPrivilege p).luid = p.luid := rfl

end Wine.Security
