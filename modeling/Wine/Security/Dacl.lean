import Wine.Lib.Masks
import Wine.Security.Check

/-!
# What a DACL allows and denies

The ACE loop depends on the order of the entries, but what `token_access_check` makes of its
outcome depends only on the bits that all entries together allow and deny to the token.
-/

namespace Wine.Security

open Wine.Lib Reading

variable (token : Token) (mapping : GenericMapping) (m : Memory)

/-- The bits an entry denies to the token. -/
def aceDenies (ace : ℕ) : BitVec 32 :=
  if (aceType ace).value m = accessDeniedAceType ∧
      (tokenSidPresent token (aceSidStart ace) true).value m then
    mapGenericMask ((aceMask ace).value m) mapping
  else 0

/-- The bits an entry allows to the token. -/
def aceAllows (ace : ℕ) : BitVec 32 :=
  if (aceType ace).value m = accessAllowedAceType ∧
      (tokenSidPresent token (aceSidStart ace) false).value m then
    mapGenericMask ((aceMask ace).value m) mapping
  else 0

/-- The addresses of `count` entries, the first one at `ace`. -/
def aceWalk : ℕ → ℕ → List ℕ
  | 0, _ => []
  | count + 1, ace => ace :: aceWalk count ((aceNext ace).value m)

def daclAces (dacl : ℕ) : List ℕ :=
  aceWalk m ((aclAceCount dacl).value m) (dacl + aclSize)

def daclDenies (dacl : ℕ) : BitVec 32 :=
  union ((daclAces m dacl).map (aceDenies token mapping m))

def daclAllows (dacl : ℕ) : BitVec 32 :=
  union ((daclAces m dacl).map (aceAllows token mapping m))

variable {token mapping m}

theorem aceDenies_of_not {ace : ℕ} (h : ¬((aceType ace).value m = accessDeniedAceType ∧
    (tokenSidPresent token (aceSidStart ace) true).value m)) :
    aceDenies token mapping m ace = 0 :=
  if_neg h

theorem aceAllows_of_not {ace : ℕ} (h : ¬((aceType ace).value m = accessAllowedAceType ∧
    (tokenSidPresent token (aceSidStart ace) false).value m)) :
    aceAllows token mapping m ace = 0 :=
  if_neg h

/-- The body of the loop for an entry that neither denies nor allows anything to the token. -/
theorem value_checkAce_skip {ace : ℕ}
    (hdeny : ¬((aceType ace).value m = accessDeniedAceType ∧
      (tokenSidPresent token (aceSidStart ace) true).value m))
    (hallow : ¬((aceType ace).value m = accessAllowedAceType ∧
      (tokenSidPresent token (aceSidStart ace) false).value m))
    (desired current denied : BitVec 32) :
    (checkAce token desired mapping ace current denied).value m = some (current, denied) := by
  simp only [checkAce, value_bind, value_ite, value_pure]
  by_cases hkind : (aceType ace).value m = accessDeniedAceType
  · have hsid : (tokenSidPresent token (aceSidStart ace) true).value m = false := by
      simpa [hkind] using hdeny
    simp [hkind, hsid]
  · rw [if_neg hkind]
    by_cases hkind' : (aceType ace).value m = accessAllowedAceType
    · have hsid : (tokenSidPresent token (aceSidStart ace) false).value m = false := by
        simpa [hkind'] using hallow
      simp [hkind', hsid]
    · rw [if_neg hkind']

theorem value_checkAce_deny {ace : ℕ} (hkind : (aceType ace).value m = accessDeniedAceType)
    (hsid : (tokenSidPresent token (aceSidStart ace) true).value m = true)
    (desired current denied : BitVec 32) :
    (checkAce token desired mapping ace current denied).value m =
      if desired &&& maximumAllowed ≠ 0 then
        some (current, denied ||| aceDenies token mapping m ace)
      else if Overlaps (aceDenies token mapping m ace) desired then none
      else some (current, denied ||| (aceDenies token mapping m ace &&& ~~~current)) := by
  have hace : aceDenies token mapping m ace = mapGenericMask ((aceMask ace).value m) mapping :=
    if_pos ⟨hkind, hsid⟩
  simp only [checkAce, value_bind, value_ite, value_pure, hkind, if_true, hsid, ← hace, ne_eq,
    and_eq_zero_iff, not_not, overlaps_comm desired (aceDenies token mapping m ace)]

theorem value_checkAce_allow {ace : ℕ} (hkind : (aceType ace).value m = accessAllowedAceType)
    (hsid : (tokenSidPresent token (aceSidStart ace) false).value m = true)
    (desired current denied : BitVec 32) :
    (checkAce token desired mapping ace current denied).value m =
      if desired &&& maximumAllowed ≠ 0 then
        some (current ||| aceAllows token mapping m ace, denied)
      else some (current ||| (aceAllows token mapping m ace &&& ~~~denied), denied) := by
  have hace : aceAllows token mapping m ace = mapGenericMask ((aceMask ace).value m) mapping :=
    if_pos ⟨hkind, hsid⟩
  have hne : ¬accessAllowedAceType = accessDeniedAceType := by decide
  simp only [checkAce, value_bind, value_ite, value_pure, hkind, if_true, hsid, ← hace, ne_eq,
    hne, if_false]

theorem value_checkAce {desired : BitVec 32} (hd : desired &&& maximumAllowed = 0) (ace : ℕ)
    (current denied : BitVec 32) :
    (checkAce token desired mapping ace current denied).value m =
      if Overlaps (aceDenies token mapping m ace) desired then none
      else some (current ||| (aceAllows token mapping m ace &&& ~~~denied),
        denied ||| (aceDenies token mapping m ace &&& ~~~current)) := by
  by_cases hdeny : (aceType ace).value m = accessDeniedAceType ∧
      (tokenSidPresent token (aceSidStart ace) true).value m
  · have hallows : aceAllows token mapping m ace = 0 :=
      aceAllows_of_not fun h => absurd (hdeny.1.symm.trans h.1) (by decide)
    rw [value_checkAce_deny hdeny.1 hdeny.2, if_neg (not_not.mpr hd), hallows]
    simp
  · rw [aceDenies_of_not hdeny]
    by_cases hallow : (aceType ace).value m = accessAllowedAceType ∧
        (tokenSidPresent token (aceSidStart ace) false).value m
    · rw [value_checkAce_allow hallow.1 hallow.2, if_neg (not_not.mpr hd)]
      simp
    · rw [value_checkAce_skip hdeny hallow, aceAllows_of_not hallow]
      simp

theorem value_checkAce_max {desired : BitVec 32} (hd : desired &&& maximumAllowed ≠ 0) (ace : ℕ)
    (current denied : BitVec 32) :
    (checkAce token desired mapping ace current denied).value m =
      some (current ||| aceAllows token mapping m ace,
        denied ||| aceDenies token mapping m ace) := by
  by_cases hdeny : (aceType ace).value m = accessDeniedAceType ∧
      (tokenSidPresent token (aceSidStart ace) true).value m
  · have hallows : aceAllows token mapping m ace = 0 :=
      aceAllows_of_not fun h => absurd (hdeny.1.symm.trans h.1) (by decide)
    rw [value_checkAce_deny hdeny.1 hdeny.2, if_pos hd, hallows]
    simp
  · rw [aceDenies_of_not hdeny]
    by_cases hallow : (aceType ace).value m = accessAllowedAceType ∧
        (tokenSidPresent token (aceSidStart ace) false).value m
    · rw [value_checkAce_allow hallow.1 hallow.2, if_pos hd]
      simp
    · rw [value_checkAce_skip hdeny hallow, aceAllows_of_not hallow]
      simp

/-- The loop with `MAXIMUM_ALLOWED` collects everything that is allowed and denied. -/
theorem value_checkAces_max {desired : BitVec 32} (hd : desired &&& maximumAllowed ≠ 0)
    (count ace : ℕ) (current denied : BitVec 32) :
    (checkAces token desired 0 mapping count ace current denied).value m =
      some (current ||| union ((aceWalk m count ace).map (aceAllows token mapping m)),
        denied ||| union ((aceWalk m count ace).map (aceDenies token mapping m))) := by
  have hne : desired ≠ 0 := by
    rintro rfl
    exact hd (by simp)
  induction count generalizing ace current denied with
  | zero => simp [checkAces, aceWalk]
  | succ count ih =>
    simp only [checkAces, value_bind, value_checkAce_max hd, hne, if_false, ih, aceWalk,
      List.map_cons, union_cons, BitVec.or_assoc]

/-- The loop without `MAXIMUM_ALLOWED` returns from the function at the first entry that denies
a desired bit; otherwise it has, of the desired bits, those it started with and those that
some entry allows. -/
theorem value_checkAces {desired : BitVec 32} (hd : desired &&& maximumAllowed = 0)
    (count ace : ℕ) (current denied : BitVec 32) (hdenied : ¬Overlaps denied desired) :
    if Overlaps (union ((aceWalk m count ace).map (aceDenies token mapping m))) desired then
      (checkAces token desired 0 mapping count ace current denied).value m = none
    else
      ∃ s, (checkAces token desired 0 mapping count ace current denied).value m = some s ∧
        ∀ i, desired.getLsbD i → (s.1.getLsbD i ↔ (current |||
          union ((aceWalk m count ace).map (aceAllows token mapping m))).getLsbD i) := by
  induction count generalizing ace current denied with
  | zero =>
    simp [checkAces, aceWalk]
  | succ count ih =>
    simp only [checkAces, value_bind, value_checkAce hd, aceWalk, List.map_cons, union_cons,
      overlaps_or_left]
    by_cases hace : Overlaps (aceDenies token mapping m ace) desired
    · simp [hace]
    · simp only [hace, if_false, false_or]
      by_cases hzero : desired = 0
      · subst hzero
        simp
      · simp only [hzero, if_false, value_bind]
        have hdenied' :
            ¬Overlaps (denied ||| (aceDenies token mapping m ace &&& ~~~current)) desired := by
          rw [overlaps_or_left]
          rintro (h | ⟨i, h, hi⟩)
          · exact hdenied h
          · rw [BitVec.getLsbD_and, Bool.and_eq_true] at h
            exact hace ⟨i, h.1, hi⟩
        have hrest := ih ((aceNext ace).value m)
          (current ||| (aceAllows token mapping m ace &&& ~~~denied)) _ hdenied'
        split
        · rename_i hover
          rwa [if_pos hover] at hrest
        · rename_i hover
          rw [if_neg hover] at hrest
          obtain ⟨s, hs, hbits⟩ := hrest
          refine ⟨s, hs, fun i hi => (hbits i hi).trans ?_⟩
          have hopen : denied.getLsbD i = false := by
            rw [← Bool.not_eq_true]
            exact fun h => hdenied ⟨i, h, hi⟩
          rw [BitVec.getLsbD_or, BitVec.getLsbD_or, BitVec.getLsbD_and, BitVec.getLsbD_not, hopen]
          simp [BitVec.lt_of_getLsbD hi, or_assoc]

theorem covers_congr {x y z : BitVec 32} (h : ∀ i, z.getLsbD i → (x.getLsbD i ↔ y.getLsbD i)) :
    Covers x z ↔ Covers y z :=
  forall₂_congr h

theorem value_checkDacl {desired : BitVec 32} (hd : desired &&& maximumAllowed = 0) (dacl : ℕ)
    (current : BitVec 32) (privCount : ℕ) (privs : LuidAndAttributes) :
    (checkDacl token desired mapping dacl current privCount privs).value m =
      if Overlaps (daclDenies token mapping m dacl) desired then
        ⟨.success, 0, .success, privCount, privs⟩
      else if Covers (current ||| daclAllows token mapping m dacl) desired then
        ⟨.success, desired, .success, privCount, privs⟩
      else
        ⟨.accessDenied, 0, .success, privCount, privs⟩ := by
  have hloop := @value_checkAces token mapping m desired hd
    ((aclAceCount dacl).value m) (dacl + aclSize) current 0#32 (by simp)
  simp only [checkDacl, value_bind, daclDenies, daclAllows, daclAces, BitVec.ofNat_eq_ofNat]
  by_cases hover : Overlaps (union ((aceWalk m ((aclAceCount dacl).value m)
      (dacl + aclSize)).map (aceDenies token mapping m))) desired
  · rw [if_pos hover] at hloop
    rw [BitVec.ofNat_eq_ofNat] at hloop
    simp only [hover, if_true, hloop, value_pure]
  · rw [if_neg hover] at hloop
    obtain ⟨⟨c, d⟩, hs, hbits⟩ := hloop
    rw [BitVec.ofNat_eq_ofNat] at hs
    have hzero : desired &&& maximumAllowed = 0#32 := hd
    simp only [hover, if_false, hs, value_ite, value_pure, hzero, ne_eq, not_true_eq_false,
      ← covers_congr hbits, and_eq_right_iff]
    by_cases hcovers : Covers c desired
    · simp [hcovers, (and_eq_right_iff c desired).mpr hcovers]
    · simp [hcovers]

theorem value_checkDacl_max {desired : BitVec 32} (hd : desired &&& maximumAllowed ≠ 0)
    (dacl : ℕ) (current : BitVec 32) (privCount : ℕ) (privs : LuidAndAttributes) :
    ((checkDacl token desired mapping dacl current privCount privs).value m).grantedAccess =
      (current ||| daclAllows token mapping m dacl) &&& ~~~daclDenies token mapping m dacl := by
  simp only [checkDacl, value_bind, value_checkAces_max hd, hd, ne_eq, not_false_eq_true, if_true,
    daclAllows, daclDenies, daclAces]
  simp

end Wine.Security

/-!
## The exits of the access check

A call without generic rights and without `MAXIMUM_ALLOWED` leaves `token_access_check` by one
of ten exits. What the caller may conclude from the verdict, and how the verdicts of two masks
are related, is read off them. The results hold for every memory, so for every valid descriptor
and whatever lies behind it.
-/

namespace Wine.Security

open Wine.Lib Reading

def genericRights : BitVec 32 := genericRead ||| genericWrite ||| genericExecute ||| genericAll

/-- The mask has neither generic rights nor `MAXIMUM_ALLOWED`. -/
structure Plain (desired : BitVec 32) : Prop where
  generic : ¬Overlaps desired genericRights
  maximum : ¬Overlaps desired maximumAllowed

/-- The descriptor has an owner, a group and a DACL. -/
structure Guarded (m : Memory) (owner dacl : ℕ) : Prop where
  owner : sdGetOwner.value m = some owner
  group : sdGetGroup.value m ≠ none
  dacl : sdGetDacl.value m = (some dacl, true)

/-- What the owner of an object may do whatever its DACL says. -/
def ownerRights : BitVec 32 := readControl ||| writeDac

def HoldsSecurityPrivilege (token : Token) : Prop :=
  (tokenCheckPrivileges token true [⟨seSecurityPrivilege, 0⟩]).1 = true

instance (token : Token) : Decidable (HoldsSecurityPrivilege token) :=
  inferInstanceAs (Decidable (_ = true))

/-- `ACCESS_SYSTEM_SECURITY` is not asked for, or is held and there is room to say so. -/
def MayAccessSecurity (token : Token) (desired : BitVec 32) (privCount : ℕ) : Prop :=
  Overlaps desired accessSystemSecurity → HoldsSecurityPrivilege token ∧ 1 ≤ privCount

/-- The token is the owner and asks for exactly what it has before the DACL is read. -/
def AsksOwnerRights (token : Token) (m : Memory) (owner : ℕ) (desired : BitVec 32) : Prop :=
  (tokenSidPresent token owner false).value m = true ∧
    desired = (desired &&& accessSystemSecurity) ||| ownerRights

/-- The rights a token has before the DACL is read. -/
def priorRights (token : Token) (m : Memory) (owner : ℕ) (desired : BitVec 32) : BitVec 32 :=
  (desired &&& accessSystemSecurity) |||
    if (tokenSidPresent token owner false).value m then ownerRights else 0

/-- The call gets as far as the DACL. -/
structure ReadsDacl (token : Token) (m : Memory) (owner dacl : ℕ) (desired : BitVec 32)
    (privCount : ℕ) : Prop where
  guarded : Guarded m owner dacl
  security : MayAccessSecurity token desired privCount
  more : desired ≠ accessSystemSecurity
  beyond : ¬AsksOwnerRights token m owner desired

section

variable (token : Token) (desired : BitVec 32) (privs : LuidAndAttributes) (privCount : ℕ)
  (mapping : GenericMapping) (m : Memory)

/-- The exits of a call, each with what it returns. -/
inductive Exit : Checked → Prop where
  | invalid (h : sdGetOwner.value m = none ∨ sdGetGroup.value m = none) :
      Exit ⟨.accessDenied, 0, .invalidSecurityDescr, 0, privs⟩
  | unprotected (ho : sdGetOwner.value m ≠ none) (hg : sdGetGroup.value m ≠ none)
      (h : (sdGetDacl.value m).2 = false) : Exit ⟨.success, desired, .success, 0, privs⟩
  | nullDacl (ho : sdGetOwner.value m ≠ none) (hg : sdGetGroup.value m ≠ none)
      (h : sdGetDacl.value m = (none, true)) : Exit ⟨.accessDenied, 0, .success, 0, privs⟩
  | privilegeNotHeld {owner dacl : ℕ} (hg : Guarded m owner dacl)
      (ha : Overlaps desired accessSystemSecurity) (h : ¬HoldsSecurityPrivilege token) :
      Exit ⟨.privilegeNotHeld, 0, .success, 0, privs⟩
  | bufferTooSmall {owner dacl : ℕ} (hg : Guarded m owner dacl)
      (ha : Overlaps desired accessSystemSecurity) (h : ¬1 ≤ privCount) :
      Exit ⟨.bufferTooSmall, 0, .success, 1, privs⟩
  | security {owner dacl : ℕ} (hg : Guarded m owner dacl)
      (hs : MayAccessSecurity token desired privCount) (h : desired = accessSystemSecurity)
      (n : ℕ) (p : LuidAndAttributes) : Exit ⟨.success, desired, .success, n, p⟩
  | owner {owner dacl : ℕ} (hg : Guarded m owner dacl)
      (hs : MayAccessSecurity token desired privCount)
      (h : AsksOwnerRights token m owner desired) (n : ℕ) (p : LuidAndAttributes) :
      Exit ⟨.success, desired, .success, n, p⟩
  | denied {owner dacl : ℕ} (hr : ReadsDacl token m owner dacl desired privCount)
      (h : Overlaps (daclDenies token mapping m dacl) desired) (n : ℕ) (p : LuidAndAttributes) :
      Exit ⟨.success, 0, .success, n, p⟩
  | allowed {owner dacl : ℕ} (hr : ReadsDacl token m owner dacl desired privCount)
      (hd : ¬Overlaps (daclDenies token mapping m dacl) desired)
      (h : Covers (priorRights token m owner desired ||| daclAllows token mapping m dacl) desired)
      (n : ℕ) (p : LuidAndAttributes) : Exit ⟨.success, desired, .success, n, p⟩
  | refused {owner dacl : ℕ} (hr : ReadsDacl token m owner dacl desired privCount)
      (hd : ¬Overlaps (daclDenies token mapping m dacl) desired)
      (h : ¬Covers (priorRights token m owner desired ||| daclAllows token mapping m dacl) desired)
      (n : ℕ) (p : LuidAndAttributes) : Exit ⟨.accessDenied, 0, .success, n, p⟩

end

section

variable {desired : BitVec 32} (token : Token) (privs : LuidAndAttributes) (privCount : ℕ)
  (mapping : GenericMapping) (m : Memory) {owner dacl : ℕ}

theorem exit_checkDacl (hp : Plain desired)
    (hr : ReadsDacl token m owner dacl desired privCount) (n : ℕ) (p : LuidAndAttributes) :
    Exit token desired privs privCount mapping m ((checkDacl token desired mapping dacl
      (priorRights token m owner desired) n p).value m) := by
  rw [value_checkDacl ((and_eq_zero_iff _ _).mpr hp.maximum)]
  by_cases hd : Overlaps (daclDenies token mapping m dacl) desired
  · rw [if_pos hd]
    exact .denied hr hd n p
  · rw [if_neg hd]
    by_cases hc : Covers (priorRights token m owner desired ||| daclAllows token mapping m dacl)
        desired
    · rw [if_pos hc]
      exact .allowed hr hd hc n p
    · rw [if_neg hc]
      exact .refused hr hd hc n p

theorem exit_checkOwner (hp : Plain desired) (hg : Guarded m owner dacl)
    (hs : MayAccessSecurity token desired privCount) (hm : desired ≠ accessSystemSecurity)
    (n : ℕ) (p : LuidAndAttributes) :
    Exit token desired privs privCount mapping m ((checkOwner token desired mapping owner dacl
      (desired &&& accessSystemSecurity) n p).value m) := by
  simp only [checkOwner, value_bind, value_ite, value_pure]
  have hdacl (hb : ¬AsksOwnerRights token m owner desired) :=
    exit_checkDacl token privs privCount mapping m hp ⟨hg, hs, hm, hb⟩ n p
  by_cases hsid : (tokenSidPresent token owner false).value m = true
  · simp only [hsid, if_true]
    by_cases hd : desired = (desired &&& accessSystemSecurity) ||| (readControl ||| writeDac)
    · rw [if_pos hd, ← hd]
      exact .owner hg hs ⟨hsid, hd⟩ n p
    · rw [if_neg hd]
      have h := hdacl fun h => hd h.2
      rwa [priorRights, if_pos hsid] at h
  · rw [if_neg hsid]
    have h := hdacl fun h => hsid h.1
    rw [priorRights, if_neg hsid] at h
    simpa using h

theorem exit_checkSecurity (hp : Plain desired) (hg : Guarded m owner dacl) :
    Exit token desired privs privCount mapping m ((checkSecurity token desired mapping owner dacl
      privCount privs).value m) := by
  simp only [checkSecurity, value_ite, ne_eq, and_eq_zero_iff, not_not]
  by_cases ha : Overlaps desired accessSystemSecurity
  · rw [if_pos ha]
    cases hc : tokenCheckPrivileges token true [⟨seSecurityPrivilege, 0⟩] with
    | mk held used =>
      have hheld : (tokenCheckPrivileges token true [⟨seSecurityPrivilege, 0⟩]).1 = held := by
        rw [hc]
      cases held with
      | false =>
        refine .privilegeNotHeld hg ha fun h => ?_
        rw [HoldsSecurityPrivilege, hheld] at h
        cases h
      | true =>
        simp only [value_ite, value_pure]
        by_cases hn : privCount ≥ 1
        · rw [if_pos hn]
          have hs : MayAccessSecurity token desired privCount := fun _ => ⟨hheld, hn⟩
          by_cases hd : desired = accessSystemSecurity
          · rw [if_pos hd, ← hd]
            exact .security hg hs hd _ _
          · rw [if_neg hd]
            have hcur : desired &&& accessSystemSecurity = accessSystemSecurity := by
              rw [and_eq_right_iff]
              exact (covers_twoPow desired (i := 24) (by decide)).mpr
                ((overlaps_twoPow desired (i := 24) (by decide)).mp ha)
            have h := exit_checkOwner token privs privCount mapping m hp hg hs hd 1
              (used.headD ⟨seSecurityPrivilege, 0⟩)
            rwa [hcur] at h
        · rw [if_neg hn]
          exact .bufferTooSmall hg ha hn
  · rw [if_neg ha]
    have hs : MayAccessSecurity token desired privCount := fun h => absurd h ha
    have hm : desired ≠ accessSystemSecurity := by
      rintro rfl
      exact ha (by decide)
    have h := exit_checkOwner token privs privCount mapping m hp hg hs hm 0 privs
    rwa [(and_eq_zero_iff _ _).mpr ha] at h

theorem value_tokenAccessCheck (hg : ¬Overlaps desired genericRights) :
    (tokenAccessCheck token desired privs privCount mapping).value m =
      match sdGetOwner.value m with
      | none => ⟨.accessDenied, 0, .invalidSecurityDescr, 0, privs⟩
      | some owner =>
        if sdGetGroup.value m = none then ⟨.accessDenied, 0, .invalidSecurityDescr, 0, privs⟩
        else if (sdGetDacl.value m).2 = false then ⟨.success, desired, .success, 0, privs⟩
        else
          match (sdGetDacl.value m).1 with
          | none => ⟨.accessDenied, 0, .success, 0, privs⟩
          | some dacl =>
            (checkSecurity token desired mapping owner dacl privCount privs).value m := by
  have hgen : desired &&& (genericRead ||| genericWrite ||| genericExecute ||| genericAll) = 0 :=
    (and_eq_zero_iff _ _).mpr hg
  simp only [tokenAccessCheck, hgen, ne_eq, not_true_eq_false, if_false, value_bind]
  cases sdGetOwner.value m with
  | none => rfl
  | some owner =>
    simp only [value_bind, value_ite, value_pure]
    cases (sdGetDacl.value m).1 with
    | none => rfl
    | some dacl => rfl

theorem exit_tokenAccessCheck (hp : Plain desired) :
    Exit token desired privs privCount mapping m
      ((tokenAccessCheck token desired privs privCount mapping).value m) := by
  rw [value_tokenAccessCheck token privs privCount mapping m hp.generic]
  cases ho : sdGetOwner.value m with
  | none => exact .invalid (.inl ho)
  | some owner =>
    have hone : sdGetOwner.value m ≠ none := by rw [ho]; exact (fun h => by cases h)
    by_cases hgr : sdGetGroup.value m = none
    · simp only [hgr, if_true]
      exact .invalid (.inr hgr)
    · simp only [hgr, if_false]
      cases hd : sdGetDacl.value m with
      | mk dacl? present =>
        cases present with
        | false =>
          exact .unprotected hone hgr (by rw [hd])
        | true =>
          cases dacl? with
          | none => exact .nullDacl hone hgr hd
          | some dacl => exact exit_checkSecurity token privs privCount mapping m hp ⟨ho, hgr, hd⟩

end

end Wine.Security
