import Wine.Security.Access

/-!
# Where the access check reads

`acl_is_valid` computes the room for a SID as an unsigned difference, so an entry shorter than
its own fixed part passes. Everything else that the access check reads lies within a valid
descriptor.
-/

namespace Wine.Security

open Wine.Lib Reading

/-- A read lies within the `n` bytes; a walk advances by at least one ACE header. -/
def InBounds (n : ℕ) : Event → Prop
  | .read address length => address + length ≤ n
  | .advance source target => source + aceHeaderSize ≤ target

instance (n : ℕ) (e : Event) : Decidable (InBounds n e) :=
  match e with
  | .read address length => inferInstanceAs (Decidable (address + length ≤ n))
  | .advance source target => inferInstanceAs (Decidable (source + aceHeaderSize ≤ target))

/-- Whoever asks, and whatever for, the access check reads inside the descriptor. -/
def Safe (m : Memory) (n : ℕ) : Prop :=
  ∀ (token : Token) (desired : BitVec 32) (privs : LuidAndAttributes) (privCount : ℕ)
    (mapping : GenericMapping),
    All (InBounds n) (tokenAccessCheck token desired privs privCount mapping) m

/-- The entry names a SID that the access check reads. -/
def NamesSid (m : Memory) (ace : ℕ) : Prop :=
  (aceType ace).value m = accessDeniedAceType ∨ (aceType ace).value m = accessAllowedAceType

/-- The entry is not shorter than its header; if it is shorter than what stands before its
SID, the SID lies within the `n` bytes all the same. -/
def WellSized (m : Memory) (n ace : ℕ) : Prop :=
  aceHeaderSize ≤ (aceSize ace).value m ∧
    ((aceSize ace).value m < 8 → NamesSid m ace →
      aceSidStart ace + sidSize ((subAuthorityCount (aceSidStart ace)).value m) ≤ n)

/-! ## Validation -/

theorem load_lt (m : Memory) (address length : ℕ) : load m address length < 256 ^ length := by
  induction length generalizing address with
  | zero => simp [load]
  | succ length ih =>
    have hrest := ih (address + 1)
    have hbyte : (m address).toNat < 256 := (m address).isLt
    rw [load, Nat.pow_succ]
    omega

theorem sidRoom_eq {size : ℕ} (h : 8 ≤ size) (hlt : size < 2 ^ 16) : sidRoom size = size - 8 := by
  have h32 : (BitVec.ofNat 32 size).toNat = size := Nat.mod_eq_of_lt (by omega)
  rw [sidRoom, BitVec.toNat_sub_of_le, h32]
  · rfl
  · rw [BitVec.le_def, h32]
    exact h

/-- What validation says of one entry: its header lies within the descriptor, and its SID does
when the entry is not shorter than what stands before its SID. -/
structure Validated (m : Memory) (n ace : ℕ) : Prop where
  header : ace + aceHeaderSize ≤ n
  sid : 8 ≤ (aceSize ace).value m →
    aceSidStart ace + sidSize ((subAuthorityCount (aceSidStart ace)).value m) ≤ n

theorem validated_aclIsValidLoop {m : Memory} {n : ℕ} (count ace size : ℕ)
    (hsize : ace + size ≤ n) (hv : (aclIsValidLoop count ace size).value m = true) :
    ∀ a ∈ aceWalk m count ace, Validated m n a := by
  induction count generalizing ace size with
  | zero => simp [aceWalk]
  | succ count ih =>
    simp only [aclIsValidLoop, value_ite, value_bind, value_pure] at hv
    by_cases hheader : size < aceHeaderSize
    · simp [hheader] at hv
    by_cases hlength : size < (aceSize ace).value m
    · simp [hheader, hlength] at hv
    rw [if_neg hheader, if_neg hlength] at hv
    split at hv
    · split at hv
      · cases hv
      · split at hv
        · cases hv
        · rename_i hroom
          intro a ha
          rw [aceWalk, List.mem_cons] at ha
          rcases ha with rfl | ha
          · refine ⟨by omega, fun h8 => ?_⟩
            have hlt : (aceSize a).value m < 2 ^ 16 := load_lt m (a + 2) 2
            rw [sidRoom_eq h8 hlt] at hroom
            rw [aceSidStart] at hroom ⊢
            omega
          · refine ih _ (size - (aceSize ace).value m) ?_ hv a ha
            have hnext : (aceNext ace).value m = ace + (aceSize ace).value m := by
              simp [aceNext]
            rw [hnext]
            omega
    · cases hv

theorem validated_aclIsValid {m : Memory} {n acl size : ℕ} (hsize : acl + size ≤ n)
    (hv : (aclIsValid acl size).value m = true) :
    acl + aclSize ≤ n ∧ ∀ a ∈ daclAces m acl, Validated m n a := by
  simp only [aclIsValid, value_ite, value_bind, value_pure] at hv
  by_cases hsmall : size < aclSize
  · simp [hsmall] at hv
  · rw [if_neg hsmall] at hv
    refine ⟨by omega, ?_⟩
    refine validated_aclIsValidLoop _ _ (min size maxAclLen - aclSize) ?_ hv
    omega

/-- What validation says of a descriptor of `n` bytes. -/
structure ValidDescriptor (m : Memory) (n : ℕ) : Prop where
  fixed : descriptorSize ≤ n
  owner : ∀ owner, sdGetOwner.value m = some owner →
    owner + sidSize ((subAuthorityCount owner).value m) ≤ n
  dacl : ∀ dacl, (sdGetDacl.value m).1 = some dacl →
    dacl + aclSize ≤ n ∧ ∀ a ∈ daclAces m dacl, Validated m n a

theorem value_sdGetOwner (m : Memory) :
    sdGetOwner.value m = if sdOwnerLen.value m ≠ 0 then some descriptorSize else none := by
  simp only [sdGetOwner, value_bind, value_ite, value_pure]

theorem value_sdGetDacl (m : Memory) :
    (sdGetDacl.value m).1 = if sdDaclLen.value m ≠ 0 then
      some (descriptorSize + sdOwnerLen.value m + sdGroupLen.value m + sdSaclLen.value m)
    else none := by
  simp only [sdGetDacl, value_bind, value_ite, value_pure]
  split <;> rfl

theorem validDescriptor_of_sdIsValid {m : Memory} {n : ℕ} (hv : (sdIsValid n).value m = true) :
    ValidDescriptor m n := by
  simp only [sdIsValid, value_ite, value_bind, value_pure] at hv
  by_cases hfixed : n < descriptorSize
  · simp [hfixed] at hv
  rw [if_neg hfixed] at hv
  split at hv
  · cases hv
  rename_i howner
  split at hv
  · cases hv
  rename_i hfits
  split at hv
  · cases hv
  split at hv
  · cases hv
  split at hv
  · cases hv
  split at hv
  · cases hv
  split at hv
  · cases hv
  rename_i hdacl
  refine ⟨by omega, ?_, ?_⟩
  · intro owner hget
    rw [hget] at hfits
    simp only [sidFits, value_bind, value_pure, Bool.not_not, Bool.or_eq_true, decide_eq_true_eq]
      at hfits
    rw [value_sdGetOwner] at hget
    split at hget
    · obtain rfl := Option.some.inj hget
      omega
    · cases hget
  · intro dacl hget
    rw [hget, aclFits] at hv
    rw [value_sdGetDacl] at hget
    split at hget
    · obtain rfl := Option.some.inj hget
      exact validated_aclIsValid (by omega) hv
    · cases hget

/-! ## Reads of the access check -/

section

variable {m : Memory} {n : ℕ} {token : Token} {desired : BitVec 32} {privs : LuidAndAttributes}
  {privCount : ℕ} {mapping : GenericMapping}

theorem all_securityEqualSid {sid : ℕ}
    (h : sid + sidSize ((subAuthorityCount sid).value m) ≤ n) (sid1 : Sid) :
    All (InBounds n) (securityEqualSid sid1 sid) m := by
  have hcount : sid + 1 + 1 ≤ n := by
    rw [sidSize] at h
    omega
  simp only [securityEqualSid, all_bind, all_number, all_ite, all_block, all_pure, InBounds,
    value_number, hcount, implies_true, and_true, true_and]
  intro heq
  rw [heq]
  exact h

theorem all_groupSidPresent {sid : ℕ} (h : sid + sidSize ((subAuthorityCount sid).value m) ≤ n)
    (deny : Bool) (groups : List Group) : All (InBounds n) (groupSidPresent sid deny groups) m := by
  induction groups with
  | nil => simp [groupSidPresent]
  | cons group groups ih =>
    simp only [groupSidPresent, all_ite, all_bind, all_pure, all_securityEqualSid h, ih,
      implies_true, and_self]

theorem all_tokenSidPresent {sid : ℕ} (h : sid + sidSize ((subAuthorityCount sid).value m) ≤ n)
    (token : Token) (deny : Bool) : All (InBounds n) (tokenSidPresent token sid deny) m := by
  simp only [tokenSidPresent, all_bind, all_ite, all_pure, all_securityEqualSid h,
    all_groupSidPresent h, implies_true, and_self]

/-- The header of the entry lies within the descriptor, and so does the SID if it is read. -/
structure Readable (m : Memory) (n ace : ℕ) : Prop where
  header : ace + aceHeaderSize ≤ n
  sid : NamesSid m ace →
    aceSidStart ace + sidSize ((subAuthorityCount (aceSidStart ace)).value m) ≤ n

theorem Validated.readable {ace : ℕ} (h : Validated m n ace) (hs : WellSized m n ace) :
    Readable m n ace where
  header := h.header
  sid hname := by
    by_cases h8 : 8 ≤ (aceSize ace).value m
    · exact h.sid h8
    · exact hs.2 (by omega) hname

theorem all_checkAce {ace : ℕ} (h : Readable m n ace) (current denied : BitVec 32) :
    All (InBounds n) (checkAce token desired mapping ace current denied) m := by
  have hkind : All (InBounds n) (aceType ace) m := by
    have hh := h.header
    rw [aceHeaderSize] at hh
    rw [aceType, all_number, InBounds]
    omega
  have hmask (hname : NamesSid m ace) : All (InBounds n) (aceMask ace) m := by
    have hs := h.sid hname
    rw [aceSidStart, sidSize] at hs
    simp only [aceMask, all_bind, all_number, all_pure, and_true, InBounds]
    omega
  simp only [checkAce, all_bind, all_ite, all_pure, hkind, implies_true, and_true, true_and]
  constructor
  · intro hdeny
    exact ⟨all_tokenSidPresent (h.sid (.inl hdeny)) token true, fun _ => hmask (.inl hdeny)⟩
  · intro _ hallow
    exact ⟨all_tokenSidPresent (h.sid (.inr hallow)) token false, fun _ => hmask (.inr hallow)⟩

theorem all_aceNext (ace : ℕ) : All (InBounds n) (aceNext ace) m ↔
    ace + aceHeaderSize ≤ n ∧ aceHeaderSize ≤ (aceSize ace).value m := by
  have h : ace + 2 + 2 = ace + 4 := by omega
  simp only [aceNext, aceSize, all_bind, all_number, all_step, all_pure, InBounds, and_true,
    aceHeaderSize, h, Nat.add_le_add_iff_left]

theorem all_checkAces (count ace : ℕ) (current denied : BitVec 32)
    (h : ∀ a ∈ aceWalk m count ace, Readable m n a ∧ aceHeaderSize ≤ (aceSize a).value m) :
    All (InBounds n) (checkAces token desired 0 mapping count ace current denied) m := by
  induction count generalizing ace current denied with
  | zero => simp [checkAces]
  | succ count ih =>
    simp only [aceWalk, List.mem_cons, forall_eq_or_imp] at h
    obtain ⟨⟨hread, hsize⟩, hrest⟩ := h
    simp only [checkAces, all_bind]
    refine ⟨all_checkAce hread current denied, ?_⟩
    cases (checkAce token desired mapping ace current denied).value m with
    | none => simp
    | some s =>
      simp only [all_ite, all_pure, implies_true, true_and, all_bind, all_aceNext]
      intro _
      exact ⟨⟨hread.header, hsize⟩, ih _ _ _ hrest⟩

theorem ValidDescriptor.all_field (h : ValidDescriptor m n) {field : ℕ} (hf : field ≤ 16) :
    All (InBounds n) (number field 4) m := by
  have hfixed := h.fixed
  rw [descriptorSize] at hfixed
  rw [all_number, InBounds]
  omega

theorem ValidDescriptor.all_sdGetDacl (h : ValidDescriptor m n) :
    All (InBounds n) sdGetDacl m := by
  simp only [sdGetDacl, sdControl, sdDaclLen, sdOwnerLen, sdGroupLen, sdSaclLen, all_bind, all_ite,
    all_pure, h.all_field (Nat.zero_le 16), h.all_field (show 4 ≤ 16 by decide),
    h.all_field (show 8 ≤ 16 by decide), h.all_field (show 12 ≤ 16 by decide),
    h.all_field (Nat.le_refl 16), implies_true, and_self]

theorem ValidDescriptor.all_sdGetOwner (h : ValidDescriptor m n) :
    All (InBounds n) sdGetOwner m := by
  simp only [sdGetOwner, sdOwnerLen, all_bind, all_ite, all_pure,
    h.all_field (show 4 ≤ 16 by decide), implies_true, and_self]

theorem ValidDescriptor.all_sdGetGroup (h : ValidDescriptor m n) :
    All (InBounds n) sdGetGroup m := by
  simp only [sdGetGroup, sdOwnerLen, sdGroupLen, all_bind, all_ite, all_pure,
    h.all_field (show 4 ≤ 16 by decide), h.all_field (show 8 ≤ 16 by decide), implies_true,
    and_self]

theorem ValidDescriptor.all_checkDacl {owner dacl : ℕ} (h : ValidDescriptor m n)
    (hg : Guarded m owner dacl) (hw : ∀ a ∈ daclAces m dacl, WellSized m n a)
    (current : BitVec 32) (count : ℕ) (p : LuidAndAttributes) :
    All (InBounds n) (checkDacl token desired mapping dacl current count p) m := by
  obtain ⟨hacl, haces⟩ := h.dacl dacl (by rw [hg.dacl])
  simp only [checkDacl, all_bind]
  refine ⟨?_, all_checkAces _ _ _ _ fun a ha => ⟨(haces a ha).readable (hw a ha), (hw a ha).1⟩, ?_⟩
  · rw [aclSize] at hacl
    rw [aclAceCount, all_number, InBounds]
    omega
  · cases (checkAces token desired 0 mapping ((aclAceCount dacl).value m) (dacl + aclSize) current
      0).value m with
    | none => simp
    | some s => simp [all_ite]

theorem ValidDescriptor.all_checkOwner {owner dacl : ℕ} (h : ValidDescriptor m n)
    (hg : Guarded m owner dacl) (hw : ∀ a ∈ daclAces m dacl, WellSized m n a)
    (current : BitVec 32) (count : ℕ) (p : LuidAndAttributes) :
    All (InBounds n) (checkOwner token desired mapping owner dacl current count p) m := by
  simp only [checkOwner, all_bind, all_ite, all_pure, h.all_checkDacl hg hw, implies_true, and_true]
  exact all_tokenSidPresent (h.owner owner hg.owner) token false

theorem ValidDescriptor.all_checkSecurity {owner dacl : ℕ} (h : ValidDescriptor m n)
    (hg : Guarded m owner dacl) (hw : ∀ a ∈ daclAces m dacl, WellSized m n a) :
    All (InBounds n) (checkSecurity token desired mapping owner dacl privCount privs) m := by
  simp only [checkSecurity, all_ite, h.all_checkOwner hg hw, implies_true, and_true]
  intro _
  rcases tokenCheckPrivileges token true [⟨seSecurityPrivilege, 0⟩] with ⟨held, used⟩
  cases held with
  | false => simp
  | true => simp only [all_ite, all_pure, h.all_checkOwner hg hw, implies_true, and_self]

theorem all_tokenAccessCheck_iff (hd : ¬Overlaps desired genericRights)
    (h : ValidDescriptor m n) :
    All (InBounds n) (tokenAccessCheck token desired privs privCount mapping) m ↔
      ∀ owner dacl, Guarded m owner dacl →
        All (InBounds n) (checkSecurity token desired mapping owner dacl privCount privs) m := by
  have hgen : desired &&& (genericRead ||| genericWrite ||| genericExecute ||| genericAll) = 0 :=
    (and_eq_zero_iff _ _).mpr hd
  simp only [tokenAccessCheck, hgen, ne_eq, not_true_eq_false, if_false, all_bind,
    h.all_sdGetDacl, h.all_sdGetOwner, true_and]
  cases ho : sdGetOwner.value m with
  | none =>
    simp only [all_pure, true_iff]
    intro owner dacl hg
    rw [hg.owner] at ho
    cases ho
  | some owner =>
    simp only [all_bind, h.all_sdGetGroup, true_and, all_ite, all_pure, implies_true]
    constructor
    · intro hall owner' dacl hg
      have howner : owner' = owner := Option.some.inj (hg.owner.symm.trans ho)
      subst howner
      have hmatch := hall hg.group (by simp [hg.dacl])
      rwa [hg.dacl] at hmatch
    · intro hall hgroup hpresent
      cases hdacl : sdGetDacl.value m with
      | mk dacl? present =>
        rw [hdacl] at hpresent
        obtain rfl : present = true := by simpa using hpresent
        cases dacl? with
        | none => simp
        | some dacl => exact hall owner dacl ⟨ho, hgroup, hdacl⟩

/-! ## The reads that nothing checked -/

/-- The loop with `MAXIMUM_ALLOWED` looks at every entry and steps over it. -/
theorem of_all_checkAces_max (hd : desired &&& maximumAllowed ≠ 0) (count ace : ℕ)
    (current denied : BitVec 32)
    (h : All (InBounds n) (checkAces token desired 0 mapping count ace current denied) m) :
    ∀ a ∈ aceWalk m count ace, aceHeaderSize ≤ (aceSize a).value m ∧
      ∃ c d, All (InBounds n) (checkAce token desired mapping a c d) m := by
  have hne : desired ≠ 0 := by
    rintro rfl
    exact hd (by simp)
  induction count generalizing ace current denied with
  | zero => simp [aceWalk]
  | succ count ih =>
    simp only [checkAces, all_bind, value_checkAce_max hd, hne, if_false, all_aceNext] at h
    obtain ⟨hace, hnext, hrest⟩ := h
    simp only [aceWalk, List.mem_cons, forall_eq_or_imp]
    exact ⟨⟨hnext.2, current, denied, hace⟩, ih _ _ _ hrest⟩

/-- A user with a SID of this many sub-authorities. -/
def userWith (count : BitVec 8) : Token where
  privileges := []
  groups := []
  user := ⟨[1, count] ++ List.replicate (6 + 4 * count.toNat) 0, by
    simp only [List.length_append, List.length_replicate, sidSize]
    change 2 + (6 + 4 * count.toNat) = 8 + 4 * count.toNat
    omega⟩

theorem of_all_tokenSidPresent {sid : ℕ} {deny : Bool}
    (h : All (InBounds n) (tokenSidPresent (userWith (m (sid + 1))) sid deny) m) :
    sid + sidSize ((subAuthorityCount sid).value m) ≤ n := by
  have hcount : (subAuthorityCount sid).value m = (m (sid + 1)).toNat := by
    simp [subAuthorityCount, load]
  have huser : (userWith (m (sid + 1))).user.subAuthorityCount = (m (sid + 1)).toNat := rfl
  simp only [tokenSidPresent, all_bind, securityEqualSid, all_ite, all_block, InBounds, huser] at h
  rw [hcount]
  exact (h.1.2.1 hcount.symm).1

theorem of_all_checkAce {ace : ℕ} {c d : BitVec 32} (hname : NamesSid m ace)
    (h : All (InBounds n) (checkAce (userWith (m (aceSidStart ace + 1))) desired mapping ace c d)
      m) :
    aceSidStart ace + sidSize ((subAuthorityCount (aceSidStart ace)).value m) ≤ n := by
  simp only [checkAce, all_bind, all_ite] at h
  rcases hname with hdeny | hallow
  · exact of_all_tokenSidPresent (h.2.1 hdeny).1
  · have hne : ¬accessAllowedAceType = accessDeniedAceType := by decide
    rw [hallow] at h
    exact of_all_tokenSidPresent ((h.2.2 hne).1 rfl).1

theorem of_all_checkSecurity_max {owner dacl : ℕ}
    (h : All (InBounds n) (checkSecurity token maximumAllowed mapping owner dacl privCount privs)
      m) :
    ∃ current, All (InBounds n) (checkAces token maximumAllowed 0 mapping
      ((aclAceCount dacl).value m) (dacl + aclSize) current 0) m := by
  have hsec : maximumAllowed &&& accessSystemSecurity = 0 := by decide
  have hown : ¬maximumAllowed = 0 ||| (readControl ||| writeDac) := by decide
  simp only [checkSecurity, hsec, ne_eq, not_true_eq_false, if_false, checkOwner, all_bind, all_ite,
    hown, checkDacl] at h
  by_cases hsid : (tokenSidPresent token owner false).value m = true
  · exact ⟨_, (h.2.1 hsid).2.1⟩
  · exact ⟨_, (h.2.2 hsid).2.1⟩

end

/-- The access check of a valid descriptor stays inside it, for every token and every mask,
exactly when each entry of a DACL that is read is `WellSized`. -/
theorem safe_iff (m : Memory) (n : ℕ) (hv : (sdIsValid n).value m = true) :
    Safe m n ↔ ∀ owner dacl, Guarded m owner dacl → ∀ a ∈ daclAces m dacl, WellSized m n a := by
  have hvalid := validDescriptor_of_sdIsValid hv
  constructor
  · intro hsafe owner dacl hg a ha
    have hwalk (token : Token) : aceHeaderSize ≤ (aceSize a).value m ∧
        ∃ c d, All (InBounds n) (checkAce token maximumAllowed ⟨0, 0, 0, 0⟩ a c d) m := by
      have hall := hsafe token maximumAllowed ⟨⟨0, 0⟩, 0⟩ 0 ⟨0, 0, 0, 0⟩
      rw [all_tokenAccessCheck_iff (by decide) hvalid] at hall
      obtain ⟨current, hloop⟩ := of_all_checkSecurity_max (hall owner dacl hg)
      exact of_all_checkAces_max (by decide) _ _ _ _ hloop a ha
    refine ⟨(hwalk (userWith 0)).1, fun _ hname => ?_⟩
    obtain ⟨c, d, hace⟩ := (hwalk (userWith (m (aceSidStart a + 1)))).2
    exact of_all_checkAce hname hace
  · intro hw token desired privs privCount mapping
    by_cases hd : Overlaps desired genericRights
    · have hgen : desired &&&
          (genericRead ||| genericWrite ||| genericExecute ||| genericAll) ≠ 0 :=
        fun h => (and_eq_zero_iff _ _).mp h hd
      rw [tokenAccessCheck, if_pos hgen]
      simp
    · rw [all_tokenAccessCheck_iff hd hvalid]
      intro owner dacl hg
      exact hvalid.all_checkSecurity hg (hw owner dacl hg)

theorem safe_readControlDenied : Safe readControlDenied 72 ↔
    ∀ owner dacl, Guarded readControlDenied owner dacl →
      ∀ a ∈ daclAces readControlDenied dacl, WellSized readControlDenied 72 a :=
  safe_iff readControlDenied 72 (by decide)

/-- An allowed entry that is no longer than its header, at the end of the descriptor. -/
def shortAce : Memory := memoryOf (descriptorBytes (aclBytes [[0, 0, 4, 0]]))

theorem unsafe_shortAce : (sdIsValid 56).value shortAce = true ∧ ¬Safe shortAce 56 := by
  refine ⟨by decide, fun h => ?_⟩
  have hall := h localSystem readControl noPrivs 1 noMapping (.read 61 1) (by decide)
  exact absurd hall (by decide)

end Wine.Security
