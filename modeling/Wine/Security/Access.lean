import Wine.Security.Dacl

/-!
# Verdicts, smaller masks and `MAXIMUM_ALLOWED`
-/

namespace Wine.Security

open Wine.Lib Reading

/-- A deny entry that names the token and overlaps the mask ends the call. -/
def StoppedByDeny (token : Token) (desired : BitVec 32) (privCount : ℕ)
    (mapping : GenericMapping) (m : Memory) : Prop :=
  ∃ owner dacl, ReadsDacl token m owner dacl desired privCount ∧
    Overlaps (daclDenies token mapping m dacl) desired

section

variable {token : Token} {desired : BitVec 32} {privs : LuidAndAttributes} {privCount : ℕ}
  {mapping : GenericMapping} {m : Memory} {c : Checked}

theorem Exit.granted_eq_or (h : Exit token desired privs privCount mapping m c) :
    c.grantedAccess = desired ∨ c.grantedAccess = 0 := by
  cases h with
  | invalid | nullDacl | privilegeNotHeld | bufferTooSmall | denied | refused => exact .inr rfl
  | unprotected | security | owner | allowed => exact .inl rfl

theorem Exit.success_iff (h : Exit token desired privs privCount mapping m c)
    (hd : ¬StoppedByDeny token desired privCount mapping m) (hne : desired ≠ 0) :
    c.verdict = .success ↔ c.grantedAccess = desired := by
  cases h with
  | invalid | nullDacl | privilegeNotHeld | bufferTooSmall | refused =>
    simp only [reduceCtorEq, false_iff]
    exact fun h => hne h.symm
  | denied hr h => exact absurd ⟨_, _, hr, h⟩ hd
  | unprotected | security | owner | allowed => simp only

theorem Exit.success_zero (h : Exit token 0 privs privCount mapping m c) :
    c.verdict = .success ↔ sdGetOwner.value m ≠ none ∧ sdGetGroup.value m ≠ none ∧
      sdGetDacl.value m ≠ (none, true) := by
  have hguarded {owner dacl : ℕ} (hg : Guarded m owner dacl) :
      sdGetOwner.value m ≠ none ∧ sdGetGroup.value m ≠ none ∧
        sdGetDacl.value m ≠ (none, true) := by
    rw [hg.owner, hg.dacl]
    exact ⟨(fun h => by cases h), hg.group, (fun h => by cases h)⟩
  cases h with
  | invalid h =>
    simp only [reduceCtorEq, false_iff]
    rintro ⟨ho, hg, _⟩
    exact h.elim ho hg
  | nullDacl ho hg h =>
    simp [h]
  | privilegeNotHeld hg ha => exact absurd ha (by decide)
  | bufferTooSmall hg ha => exact absurd ha (by decide)
  | denied hr h => exact absurd h (by simp)
  | refused hr hd h => exact absurd h (by simp)
  | unprotected ho hg h =>
    simp only [true_iff]
    refine ⟨ho, hg, fun hd => ?_⟩
    rw [hd] at h
    cases h
  | security hg | owner hg => simpa using hguarded hg
  | allowed hr => simpa using hguarded hr.guarded

/-- When a non-empty mask without generic rights is granted in full. -/
def Grants (token : Token) (desired : BitVec 32) (privCount : ℕ) (mapping : GenericMapping)
    (m : Memory) : Prop :=
  sdGetOwner.value m ≠ none ∧ sdGetGroup.value m ≠ none ∧ ((sdGetDacl.value m).2 = false ∨
    ∃ owner dacl, Guarded m owner dacl ∧ MayAccessSecurity token desired privCount ∧
      (desired = accessSystemSecurity ∨ AsksOwnerRights token m owner desired ∨
        ¬Overlaps (daclDenies token mapping m dacl) desired ∧
          Covers (priorRights token m owner desired ||| daclAllows token mapping m dacl) desired))

theorem Guarded.unique {owner dacl owner' dacl' : ℕ} (h : Guarded m owner dacl)
    (h' : Guarded m owner' dacl') : owner' = owner ∧ dacl' = dacl := by
  have ho := h.owner.symm.trans h'.owner
  have hd := h.dacl.symm.trans h'.dacl
  simp only [Option.some.injEq, Prod.mk.injEq, and_true] at ho hd
  exact ⟨ho.symm, hd.symm⟩

theorem Guarded.grants_iff {owner dacl : ℕ} (h : Guarded m owner dacl) :
    Grants token desired privCount mapping m ↔ MayAccessSecurity token desired privCount ∧
      (desired = accessSystemSecurity ∨ AsksOwnerRights token m owner desired ∨
        ¬Overlaps (daclDenies token mapping m dacl) desired ∧
          Covers (priorRights token m owner desired ||| daclAllows token mapping m dacl)
            desired) := by
  constructor
  · rintro ⟨_, _, hd | ⟨owner', dacl', h', hgrant⟩⟩
    · rw [h.dacl] at hd
      cases hd
    · obtain ⟨rfl, rfl⟩ := h.unique h'
      exact hgrant
  · intro hgrant
    refine ⟨?_, h.group, .inr ⟨owner, dacl, h, hgrant⟩⟩
    rw [h.owner]
    exact (fun h => by cases h)

theorem Exit.granted_iff (h : Exit token desired privs privCount mapping m c)
    (hne : desired ≠ 0) :
    c.grantedAccess = desired ↔ Grants token desired privCount mapping m := by
  have hzero : ¬(0 : BitVec 32) = desired := fun h => hne h.symm
  cases h with
  | invalid h =>
    simp only [hzero, false_iff]
    rintro ⟨ho, hg, _⟩
    exact h.elim ho hg
  | nullDacl ho hg h =>
    simp only [hzero, false_iff]
    rintro ⟨_, _, hd | ⟨owner, dacl, h', _⟩⟩
    · rw [h] at hd
      cases hd
    · rw [h'.dacl] at h
      cases h
  | privilegeNotHeld hg ha h =>
    rw [hg.grants_iff]
    simp only [hzero, false_iff]
    rintro ⟨hs, _⟩
    exact h (hs ha).1
  | bufferTooSmall hg ha h =>
    rw [hg.grants_iff]
    simp only [hzero, false_iff]
    rintro ⟨hs, _⟩
    exact h (hs ha).2
  | denied hr h =>
    rw [hr.guarded.grants_iff]
    simp only [hzero, false_iff]
    rintro ⟨_, hs | ho | ⟨hd, _⟩⟩
    · exact hr.more hs
    · exact hr.beyond ho
    · exact hd h
  | refused hr hd h =>
    rw [hr.guarded.grants_iff]
    simp only [hzero, false_iff]
    rintro ⟨_, hs | ho | ⟨_, hc⟩⟩
    · exact hr.more hs
    · exact hr.beyond ho
    · exact h hc
  | unprotected ho hg h =>
    simp only [true_iff]
    exact ⟨ho, hg, .inl h⟩
  | security hg hs h =>
    rw [hg.grants_iff]
    simp only [true_iff]
    exact ⟨hs, .inl h⟩
  | owner hg hs h =>
    rw [hg.grants_iff]
    simp only [true_iff]
    exact ⟨hs, .inr (.inl h)⟩
  | allowed hr hd h =>
    rw [hr.guarded.grants_iff]
    simp only [true_iff]
    exact ⟨hr.security, .inr (.inr ⟨hd, h⟩)⟩

end

/-! ## Descriptors in memory -/

def memoryOf (bytes : List (BitVec 8)) : Memory := fun i => bytes.getD i 0

/-- A number below 2 ^ 32 as four little-endian bytes. -/
def word (n : ℕ) : List (BitVec 8) :=
  [BitVec.ofNat 8 n, BitVec.ofNat 8 (n / 2 ^ 8), BitVec.ofNat 8 (n / 2 ^ 16),
    BitVec.ofNat 8 (n / 2 ^ 24)]

def localSystemSid : Sid := ⟨[1, 1, 0, 0, 0, 0, 0, 5, 18, 0, 0, 0], by decide⟩

def localSystem : Token := ⟨[⟨seSecurityPrivilege, true⟩], [], localSystemSid⟩

/-- An entry for the local system. -/
def aceBytes (kind : BitVec 8) (mask : ℕ) : List (BitVec 8) :=
  [kind, 0, 20, 0] ++ word mask ++ localSystemSid.bytes

def aclBytes (aces : List (List (BitVec 8))) : List (BitVec 8) :=
  [2, 0, BitVec.ofNat 8 (8 + aces.flatten.length), 0, BitVec.ofNat 8 aces.length, 0, 0, 0] ++
    aces.flatten

/-- A descriptor owned by the local system with this DACL, or with an empty one. -/
def descriptorBytes (dacl : List (BitVec 8)) : List (BitVec 8) :=
  word 4 ++ word 12 ++ word 12 ++ word 0 ++ word dacl.length ++ localSystemSid.bytes ++
    localSystemSid.bytes ++ dacl

def noMapping : GenericMapping := ⟨0, 0, 0, 0⟩

def noPrivs : LuidAndAttributes := ⟨⟨0, 0⟩, 0⟩

/-! ## The verdict -/

/-- The whole mask is granted or nothing is. Unless a deny entry ends the call, the verdict on
a non-empty mask is success exactly when the mask is granted; the empty mask is refused exactly
when the descriptor has no owner, no group or an empty DACL. -/
theorem verdict_agrees (token : Token) (desired : BitVec 32) (privs : LuidAndAttributes)
    (privCount : ℕ) (mapping : GenericMapping) (m : Memory) (hp : Plain desired) :
    let c := (tokenAccessCheck token desired privs privCount mapping).value m
    (c.grantedAccess = desired ∨ c.grantedAccess = 0) ∧
      (desired ≠ 0 → ¬StoppedByDeny token desired privCount mapping m →
        (c.verdict = .success ↔ c.grantedAccess = desired)) ∧
      (desired = 0 → (c.verdict = .success ↔ sdGetOwner.value m ≠ none ∧
        sdGetGroup.value m ≠ none ∧ sdGetDacl.value m ≠ (none, true))) := by
  have hexit := exit_tokenAccessCheck token privs privCount mapping m hp
  refine ⟨hexit.granted_eq_or, fun hne hd => hexit.success_iff hd hne, ?_⟩
  rintro rfl
  exact hexit.success_zero

theorem verdict_agrees_readControl :
    Plain readControl ∧
      ((tokenAccessCheck localSystem readControl noPrivs 1 noMapping).value
        (memoryOf (descriptorBytes (aclBytes [aceBytes 0 0x20000])))).grantedAccess ≠ 0 := by
  have hp : Plain readControl := ⟨by decide, by decide⟩
  have h := verdict_agrees localSystem readControl noPrivs 1 noMapping
    (memoryOf (descriptorBytes (aclBytes [aceBytes 0 0x20000]))) hp
  rcases h.1 with h | h
  · exact ⟨hp, by rw [h]; decide⟩
  · exact ⟨hp, by decide⟩

/-- An empty DACL refuses even the empty mask, which is all that was asked for. -/
theorem refused_emptyMask :
    (sdIsValid 44).value (memoryOf (descriptorBytes [])) = true ∧ Plain 0 ∧
      (tokenAccessCheck localSystem 0 noPrivs 1 noMapping).value
        (memoryOf (descriptorBytes [])) = ⟨.accessDenied, 0, .success, 0, noPrivs⟩ := by
  exact ⟨by decide, ⟨by decide, by decide⟩, by decide⟩

/-! ## Asking for less -/

/-- The larger mask is granted to the owner before the DACL is read, the smaller one is not
what the owner has before the DACL is read, and a deny entry overlaps it. -/
def LosesShortcut (token : Token) (desired smaller : BitVec 32) (privCount : ℕ)
    (mapping : GenericMapping) (m : Memory) : Prop :=
  ∃ owner dacl, Guarded m owner dacl ∧ MayAccessSecurity token desired privCount ∧
    AsksOwnerRights token m owner desired ∧ ¬AsksOwnerRights token m owner smaller ∧
    smaller ≠ accessSystemSecurity ∧ Overlaps (daclDenies token mapping m dacl) smaller

section

variable {token : Token} {desired smaller : BitVec 32} {privCount : ℕ}
  {mapping : GenericMapping} {m : Memory}

theorem Plain.mono (h : Plain desired) (hsub : Covers desired smaller) : Plain smaller where
  generic hg := h.generic ((overlaps_comm _ _).mp (((overlaps_comm _ _).mp hg).mono hsub))
  maximum hg := h.maximum ((overlaps_comm _ _).mp (((overlaps_comm _ _).mp hg).mono hsub))

theorem MayAccessSecurity.mono (h : MayAccessSecurity token desired privCount)
    (hsub : Covers desired smaller) : MayAccessSecurity token smaller privCount :=
  fun ha => h ((overlaps_comm _ _).mp (((overlaps_comm _ _).mp ha).mono hsub))

theorem eq_accessSystemSecurity_of_covers (h : Covers accessSystemSecurity smaller)
    (hne : smaller ≠ 0) : smaller = accessSystemSecurity := by
  have hbit (i : ℕ) (hi : smaller.getLsbD i) : i = 24 := by
    have h24 : (BitVec.twoPow 32 24).getLsbD i = true := h i hi
    rw [BitVec.getLsbD_twoPow, Bool.and_eq_true, decide_eq_true_eq, decide_eq_true_eq] at h24
    exact h24.2.symm
  have hset : smaller.getLsbD 24 = true := by
    by_contra hclear
    apply hne
    apply BitVec.eq_of_getLsbD_eq
    intro i _
    rw [BitVec.ofNat_eq_ofNat, BitVec.getLsbD_zero, ← Bool.not_eq_true]
    intro hi
    obtain rfl := hbit i hi
    exact hclear hi
  rw [← (and_eq_left_iff smaller accessSystemSecurity).mpr h]
  exact (and_eq_right_iff _ _).mpr ((covers_twoPow smaller (i := 24) (by decide)).mpr hset)

/-- What a token has before the DACL is read covers the smaller mask as it did the larger. -/
theorem covers_prior_mono {owner : ℕ} {allows : BitVec 32} (hsub : Covers desired smaller)
    (h : Covers (priorRights token m owner desired ||| allows) desired) :
    Covers (priorRights token m owner smaller ||| allows) smaller := by
  intro i hi
  have hlarge := h i (hsub i hi)
  simp only [priorRights, BitVec.getLsbD_or, BitVec.getLsbD_and, Bool.or_eq_true,
    Bool.and_eq_true] at hlarge ⊢
  rcases hlarge with (⟨_, hs⟩ | ho) | ha
  · exact .inl (.inl ⟨hi, hs⟩)
  · exact .inl (.inr ho)
  · exact .inr ha

/-- What a token has before the DACL is read covers what it then asks for as the owner. -/
theorem Grants.mono (hsub : Covers desired smaller) (hne : smaller ≠ 0)
    (hloses : ¬LosesShortcut token desired smaller privCount mapping m)
    (h : Grants token desired privCount mapping m) :
    Grants token smaller privCount mapping m := by
  obtain ⟨ho, hg, hd | ⟨owner, dacl, hguard, hs, hgrant⟩⟩ := h
  · exact ⟨ho, hg, .inl hd⟩
  · rw [hguard.grants_iff]
    refine ⟨hs.mono hsub, ?_⟩
    rcases hgrant with rfl | hask | ⟨hdeny, hcovers⟩
    · exact .inl (eq_accessSystemSecurity_of_covers hsub hne)
    · by_cases hsec : smaller = accessSystemSecurity
      · exact .inl hsec
      by_cases hask' : AsksOwnerRights token m owner smaller
      · exact .inr (.inl hask')
      refine .inr (.inr ⟨fun hover => ?_, ?_⟩)
      · exact hloses ⟨owner, dacl, hguard, hs, hask, hask', hsec, hover⟩
      · apply covers_prior_mono hsub
        rw [priorRights, if_pos hask.1, ← hask.2]
        intro i hi
        rw [BitVec.getLsbD_or, hi, Bool.true_or]
    · refine .inr (.inr ⟨fun hover => hdeny (hover.mono hsub), covers_prior_mono hsub hcovers⟩)

theorem LosesShortcut.not_mono (h : LosesShortcut token desired smaller privCount mapping m) :
    Grants token desired privCount mapping m ∧ ¬Grants token smaller privCount mapping m := by
  obtain ⟨owner, dacl, hguard, hs, hask, hask', hsec, hover⟩ := h
  rw [hguard.grants_iff, hguard.grants_iff]
  refine ⟨⟨hs, .inr (.inl hask)⟩, ?_⟩
  rintro ⟨_, h | h | ⟨h, _⟩⟩
  · exact hsec h
  · exact hask' h
  · exact h hover

end

/-- A mask whose larger mask is granted is granted too, exactly when the larger mask was not
granted by the owner's shortcut with a deny entry behind it. -/
theorem granted_mono_iff (token : Token) (desired smaller : BitVec 32)
    (privs : LuidAndAttributes) (privCount : ℕ) (mapping : GenericMapping) (m : Memory)
    (hp : Plain desired) (hsub : Covers desired smaller) :
    (((tokenAccessCheck token desired privs privCount mapping).value m).grantedAccess = desired →
      ((tokenAccessCheck token smaller privs privCount mapping).value m).grantedAccess = smaller) ↔
      ¬LosesShortcut token desired smaller privCount mapping m := by
  have hexit := exit_tokenAccessCheck token privs privCount mapping m hp
  have hexit' := exit_tokenAccessCheck token privs privCount mapping m (hp.mono hsub)
  by_cases hne : smaller = 0
  · subst hne
    constructor
    · rintro _ ⟨_, _, _, _, _, _, _, hover⟩
      simp at hover
    · rintro _ _
      exact hexit'.granted_eq_or.elim id id
  · have hne' : desired ≠ 0 := by
      rintro rfl
      apply hne
      rw [← (and_eq_left_iff smaller 0).mpr hsub]
      simp
    rw [hexit.granted_iff hne', hexit'.granted_iff hne]
    constructor
    · intro h hloses
      exact hloses.not_mono.2 (h hloses.not_mono.1)
    · intro hloses
      exact Grants.mono hsub hne hloses

def readControlDenied : Memory := memoryOf (descriptorBytes (aclBytes [aceBytes 1 0x20000]))

theorem granted_mono_writeDac :
    (((tokenAccessCheck localSystem ownerRights noPrivs 1 noMapping).value
        readControlDenied).grantedAccess = ownerRights →
      ((tokenAccessCheck localSystem writeDac noPrivs 1 noMapping).value
        readControlDenied).grantedAccess = writeDac) ↔
      ¬LosesShortcut localSystem ownerRights writeDac 1 noMapping readControlDenied :=
  granted_mono_iff localSystem ownerRights writeDac noPrivs 1 noMapping readControlDenied
    ⟨by decide, by decide⟩ (by decide)

/-- The owner may read and change the DACL, but not just read it. -/
theorem refused_readControl :
    (sdIsValid 72).value readControlDenied = true ∧ Plain ownerRights ∧
      Covers ownerRights readControl ∧
      ((tokenAccessCheck localSystem ownerRights noPrivs 1 noMapping).value
        readControlDenied).grantedAccess = ownerRights ∧
      ((tokenAccessCheck localSystem readControl noPrivs 1 noMapping).value
        readControlDenied).grantedAccess = 0 :=
  ⟨by decide, ⟨by decide, by decide⟩, by decide, by decide, by decide⟩

/-! ## `MAXIMUM_ALLOWED` -/

section

variable {token : Token} {privs : LuidAndAttributes} {privCount : ℕ}
  {mapping : GenericMapping} {m : Memory} {owner dacl : ℕ}

theorem Guarded.granted_maximum (h : Guarded m owner dacl) :
    ((tokenAccessCheck token maximumAllowed privs privCount mapping).value m).grantedAccess =
      (priorRights token m owner maximumAllowed ||| daclAllows token mapping m dacl) &&&
        ~~~daclDenies token mapping m dacl := by
  have hmax : maximumAllowed &&& maximumAllowed ≠ 0 := by decide
  have hsec : maximumAllowed &&& accessSystemSecurity = 0 := by decide
  have hown : ¬maximumAllowed = 0 ||| (readControl ||| writeDac) := by decide
  rw [value_tokenAccessCheck _ _ _ _ _ (by decide), h.owner, h.dacl]
  simp only [h.group, if_false, reduceCtorEq, checkSecurity, value_ite, ne_eq, checkOwner,
    value_bind, hown, priorRights, hsec, not_true_eq_false]
  by_cases hsid : (tokenSidPresent token owner false).value m = true
  · simp only [hsid, if_true]
    exact value_checkDacl_max hmax dacl _ 0 privs
  · rw [if_neg hsid, if_neg hsid]
    exact value_checkDacl_max hmax dacl _ 0 privs

/-- One right is granted when the token has it before the DACL is read or the DACL allows it,
and the DACL does not deny it. -/
theorem Guarded.grants_twoPow {i : ℕ} (h : Guarded m owner dacl) (hi : i < 32) (hs : i ≠ 24) :
    Grants token (BitVec.twoPow 32 i) privCount mapping m ↔
      (daclDenies token mapping m dacl).getLsbD i = false ∧
        (priorRights token m owner maximumAllowed ||| daclAllows token mapping m dacl).getLsbD i := by
  have hother : ∀ i < 32, i ≠ 24 → ¬Overlaps (BitVec.twoPow 32 i) accessSystemSecurity ∧
      BitVec.twoPow 32 i ≠ accessSystemSecurity ∧
      BitVec.twoPow 32 i ≠ (BitVec.twoPow 32 i &&& accessSystemSecurity) ||| ownerRights ∧
      BitVec.twoPow 32 i &&& accessSystemSecurity = maximumAllowed &&& accessSystemSecurity := by
    decide
  obtain ⟨hover, hne, hask, hand⟩ := hother i hi hs
  have hprior : priorRights token m owner (BitVec.twoPow 32 i) =
      priorRights token m owner maximumAllowed := by
    rw [priorRights, priorRights, hand]
  rw [h.grants_iff, overlaps_twoPow _ hi, covers_twoPow _ hi, hprior, Bool.not_eq_true]
  constructor
  · rintro ⟨_, h | h | h⟩
    · exact absurd h hne
    · exact absurd h.2 hask
    · exact h
  · intro h
    exact ⟨fun h => absurd h hover, .inr (.inr h)⟩

end

theorem plain_twoPow : ∀ i < 28, i ≠ 25 → Plain (BitVec.twoPow 32 i) := by
  have h : ∀ i < 28, i ≠ 25 → ¬Overlaps (BitVec.twoPow 32 i) genericRights ∧
      ¬Overlaps (BitVec.twoPow 32 i) maximumAllowed := by
    decide
  intro i hi hne
  exact ⟨(h i hi hne).1, (h i hi hne).2⟩

/-- A right is in the mask granted for `MAXIMUM_ALLOWED` exactly when it is granted alone.
`i` ranges over the rights that are not generic, other than `ACCESS_SYSTEM_SECURITY`. -/
theorem maximum_agrees (token : Token) (privs : LuidAndAttributes) (privCount : ℕ)
    (mapping : GenericMapping) (m : Memory) (hd : (sdGetDacl.value m).2 = true) (i : ℕ)
    (hi : i < 28) (hs : i ≠ 24) :
    let granted desired :=
      ((tokenAccessCheck token desired privs privCount mapping).value m).grantedAccess
    ((granted maximumAllowed).getLsbD i ↔
      Covers (granted (BitVec.twoPow 32 i)) (BitVec.twoPow 32 i)) ∧
      (BitVec.twoPow 32 i ≠ maximumAllowed →
        (Covers (granted (BitVec.twoPow 32 i)) (BitVec.twoPow 32 i) ↔
          granted (BitVec.twoPow 32 i) = BitVec.twoPow 32 i)) := by
  intro granted
  have hi' : i < 32 := by omega
  by_cases hmax : i = 25
  · subst hmax
    exact ⟨(covers_twoPow _ hi').symm, fun h => absurd rfl h⟩
  have hexit := exit_tokenAccessCheck token privs privCount mapping m (plain_twoPow i hi hmax)
  have hne : BitVec.twoPow 32 i ≠ 0 := by
    intro h
    have hbit : (BitVec.twoPow 32 i).getLsbD i = false := by rw [h]; simp
    simp [hi'] at hbit
  have hcovers : Covers (granted (BitVec.twoPow 32 i)) (BitVec.twoPow 32 i) ↔
      granted (BitVec.twoPow 32 i) = BitVec.twoPow 32 i := by
    constructor
    · intro h
      rcases hexit.granted_eq_or with heq | hzero
      · exact heq
      · have hbit : (granted (BitVec.twoPow 32 i)).getLsbD i = true := (covers_twoPow _ hi').mp h
        simp only [granted, hzero] at hbit
        simp at hbit
    · intro h
      rw [h]
      exact Covers.refl _
  refine ⟨?_, fun _ => hcovers⟩
  rw [hcovers]
  refine Iff.trans ?_ (hexit.granted_iff hne).symm
  by_cases hguard : ∃ owner dacl, Guarded m owner dacl
  · obtain ⟨owner, dacl, hguard⟩ := hguard
    rw [hguard.grants_twoPow hi' hs]
    simp only [granted]
    rw [hguard.granted_maximum, BitVec.getLsbD_and, BitVec.getLsbD_not]
    simp [hi', and_comm]
  · have hnone : ¬Grants token (BitVec.twoPow 32 i) privCount mapping m := by
      rintro ⟨_, _, h | ⟨owner, dacl, h, _⟩⟩
      · rw [hd] at h
        cases h
      · exact hguard ⟨owner, dacl, h⟩
    have hzero : granted maximumAllowed = 0 := by
      simp only [granted]
      rw [value_tokenAccessCheck _ _ _ _ _ (by decide)]
      cases ho : sdGetOwner.value m with
      | none => rfl
      | some owner =>
        by_cases hg : sdGetGroup.value m = none
        · simp [hg]
        · cases hdacl : sdGetDacl.value m with
          | mk dacl? present =>
            rw [hdacl] at hd
            obtain rfl : present = true := hd
            cases dacl? with
            | none => simp [hg]
            | some dacl => exact absurd ⟨owner, dacl, ho, hg, hdacl⟩ hguard
    rw [hzero]
    simp [hnone]

theorem maximum_agrees_readControl :
    ((tokenAccessCheck localSystem maximumAllowed noPrivs 1 noMapping).value
        readControlDenied).grantedAccess.getLsbD 18 ↔
      Covers ((tokenAccessCheck localSystem writeDac noPrivs 1 noMapping).value
        readControlDenied).grantedAccess writeDac :=
  (maximum_agrees localSystem noPrivs 1 noMapping readControlDenied (by decide) 18
    (by decide) (by decide)).1

end Wine.Security
