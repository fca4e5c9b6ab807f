import Wine.Ntdll.SecurityDescriptor

/-!
# Descriptors packed and unpacked

Packing stores the parts one after the other behind the header. Unpacking takes an owner or group
for present when its offset is not zero, and packing always stores an offset that is not.
-/

namespace Wine.Ntdll
open Lib Lib.Reading

/-- A valid descriptor that is absolute. -/
structure ValidAbsolute (sd : SecurityDescriptor) : Prop where
  revision : sd.revision.toNat = SECURITY_DESCRIPTOR_REVISION
  absolute : sd.control &&& SE_SELF_RELATIVE = 0
  owner : ∀ s, sd.owner = some s → RtlValidSid s
  group : ∀ s, sd.group = some s → RtlValidSid s
  sacl : sd.control &&& SE_SACL_PRESENT ≠ 0 → ∀ a, sd.sacl = some a → rtlValidAcl a = true
  dacl : sd.control &&& SE_DACL_PRESENT ≠ 0 → ∀ a, sd.dacl = some a → rtlValidAcl a = true

/-- Both pointers are `NULL`, or both lead to the same SID. -/
def SameSid : Option Memory → Option Memory → Prop
  | none, none => True
  | some s, some t => rtlLengthSid t = rtlLengthSid s ∧
      bytesAt t 0 (rtlLengthSid s) = bytesAt s 0 (rtlLengthSid s)
  | _, _ => False

/-- Both pointers are `NULL`, or both lead to the same ACL. -/
def SameAcl : Option Memory → Option Memory → Prop
  | none, none => True
  | some a, some b => aclSize b = aclSize a ∧ bytesAt b 0 (aclSize a) = bytesAt a 0 (aclSize a)
  | _, _ => False

/-- The control flags, owner, group and ACLs are the same; the flags tell which ACLs are present. -/
structure SameDescriptor (sd sd' : SecurityDescriptor) : Prop where
  control : sd'.control = sd.control
  owner : SameSid sd.owner sd'.owner
  group : SameSid sd.group sd'.group
  sacl : sd.control &&& SE_SACL_PRESENT ≠ 0 → SameAcl sd.sacl sd'.sacl
  dacl : sd.control &&& SE_DACL_PRESENT ≠ 0 → SameAcl sd.dacl sd'.dacl

/-- The buffers are large enough for the parts of the descriptor. -/
structure Adequate (sd : SecurityDescriptor) (sizes : SdSizes) : Prop where
  absolute : SECURITY_DESCRIPTOR_MIN_LENGTH ≤ sizes.absolute
  owner : lengthSid sd.owner ≤ sizes.owner
  group : lengthSid sd.group ≤ sizes.group
  sacl : lengthAcl sd.control SE_SACL_PRESENT sd.sacl ≤ sizes.sacl
  dacl : lengthAcl sd.control SE_DACL_PRESENT sd.dacl ≤ sizes.dacl

/-! ## Parts of a self-relative descriptor -/

/-- The field holds an offset at which the bytes are found. -/
def PartAt (rel : Memory) (field offset : ℕ) (bytes : List (BitVec 8)) : Prop :=
  load rel field 4 = offset ∧ bytesAt rel offset bytes.length = bytes

/-- Only the field and the `n` bytes from `offset` on are written. -/
def Writes (rel rel' : Memory) (field offset n : ℕ) : Prop :=
  ∀ i, (i < field ∨ field + 4 ≤ i) → (i < offset ∨ offset + n ≤ i) → rel' i = rel i

variable {rel rel' : Memory} {f g p q n : ℕ} {bytes : List (BitVec 8)} {c : BitVec 16}
  {sd : SecurityDescriptor}

theorem PartAt.frame (h : PartAt rel g q bytes) (hw : Writes rel rel' f p n) (hfield : g + 4 ≤ f)
    (hhead : f + 4 ≤ q) (hhead' : g + 4 ≤ p) (hpart : q + bytes.length ≤ p) :
    PartAt rel' g q bytes := by
  constructor
  · rw [← h.1]
    exact load_congr fun i _ hi => hw i (by omega) (by omega)
  · refine (bytesAt_congr fun i hi hi' => ?_).trans h.2
    exact hw i (by omega) (by omega)

theorem writes_storePart (h : bytes.length = n) : Writes rel (storePart rel f p bytes) f p n := by
  intro i hf hp
  rw [storePart, store_of_not_mem (by rwa [h]), store_of_not_mem (by rwa [length_littleEndian])]

theorem partAt_storePart (hp : p < 2 ^ 32) (hf : f + 4 ≤ p) :
    PartAt (storePart rel f p bytes) f p bytes := by
  refine ⟨?_, bytesAt_store⟩
  rw [storePart, load_store_of_disjoint (.inl hf), load_store]
  exact Nat.mod_eq_of_lt hp

theorem Writes.relControl (h : Writes rel rel' f p n) (hf : 4 ≤ f) (hp : 4 ≤ p) :
    relControl rel' = relControl rel := by
  unfold Ntdll.relControl
  rw [load_congr fun i _ hi => h i (by omega) (by omega)]

theorem length_bytesOf_sid (s : Option Memory) : (bytesOf s (lengthSid s)).length = lengthSid s := by
  cases s <;> simp [bytesOf, lengthSid]

/-- An ACL that is present and not `NULL`, or one that is not present, is stored. -/
theorem storeAcl_ok {flag : BitVec 16} {acl : Option Memory} (hcontrol : relControl rel = c)
    (hacl : c &&& flag ≠ 0 → acl ≠ none) (hp : p + n < 2 ^ 32) (hf : f + 4 ≤ p + n) :
    ∃ rel' q' n', storeAcl rel flag f p n acl = .ok (rel', q', n') ∧
      Writes rel rel' f (p + n) (lengthAcl c flag acl) ∧
      q' + n' = p + n + lengthAcl c flag acl ∧
      (c &&& flag ≠ 0 → ∀ a, acl = some a → PartAt rel' f (p + n) (bytesAt a 0 (aclSize a))) := by
  subst hcontrol
  unfold storeAcl
  by_cases hflag : relControl rel &&& flag ≠ 0
  · obtain ⟨a, rfl⟩ := Option.ne_none_iff_exists'.mp (hacl hflag)
    rw [if_pos hflag]
    refine ⟨_, _, _, rfl, ?_, ?_, fun _ b hb => ?_⟩
    · rw [lengthAcl, if_pos hflag]
      exact writes_storePart length_bytesAt
    · simp only [lengthAcl, if_pos hflag]
    · cases hb
      exact partAt_storePart hp hf
  · rw [if_neg hflag]
    have hzero : lengthAcl (relControl rel) flag acl = 0 := by
      cases acl with
      | none => rfl
      | some a => exact if_neg hflag
    refine ⟨_, _, _, rfl, fun i hi _ => ?_, by rw [hzero, Nat.add_zero], fun h => absurd h hflag⟩
    exact store_of_not_mem (by rwa [length_littleEndian])

theorem storeAcl_null {flag : BitVec 16} (h : relControl rel &&& flag ≠ 0) :
    storeAcl rel flag f p n none = .error .nullPointer := by
  rw [storeAcl, if_pos h]

/-! ## Packing -/

/-- What packing leaves in the buffer `buf`. -/
structure Packed (sd : SecurityDescriptor) (buf rel : Memory) : Prop where
  outside : ∀ i, rtlLengthSecurityDescriptor sd ≤ i → rel i = buf i
  control : relControl rel = sd.control ||| SE_SELF_RELATIVE
  owner : PartAt rel 4 20 (bytesOf sd.owner (lengthSid sd.owner))
  group : PartAt rel 8 (20 + lengthSid sd.owner) (bytesOf sd.group (lengthSid sd.group))
  sacl : sd.control &&& SE_SACL_PRESENT ≠ 0 → ∀ a, sd.sacl = some a →
    ∃ p, PartAt rel 12 p (bytesAt a 0 (aclSize a))
  dacl : sd.control &&& SE_DACL_PRESENT ≠ 0 → ∀ a, sd.dacl = some a →
    ∃ p, PartAt rel 16 p (bytesAt a 0 (aclSize a))

/-- The ACLs that are present are not `NULL`. -/
def AclsNonNull (sd : SecurityDescriptor) : Prop :=
  (sd.control &&& SE_SACL_PRESENT ≠ 0 → sd.sacl ≠ none) ∧
  (sd.control &&& SE_DACL_PRESENT ≠ 0 → sd.dacl ≠ none)

/-- The header without the offsets. -/
def storeHeader (sd : SecurityDescriptor) (rel : Memory) : Memory :=
  store (store (store rel 0 [sd.revision]) 1 [sd.sbz1]) 2
    (littleEndian 2 (sd.control ||| SE_SELF_RELATIVE).toNat)

/-- Owner and group behind the header. -/
def storeSids (sd : SecurityDescriptor) (rel : Memory) : Memory :=
  storePart (storePart (storeHeader sd rel) 4 20 (bytesOf sd.owner (lengthSid sd.owner))) 8
    (20 + lengthSid sd.owner) (bytesOf sd.group (lengthSid sd.group))

theorem rtlMakeSelfRelativeSD_eq (buf : Memory) {length : ℕ}
    (h : rtlLengthSecurityDescriptor sd ≤ length) :
    rtlMakeSelfRelativeSD (some sd) (some buf) (some length) = do
      let (rel, offset, last) ← storeAcl (storeSids sd buf) SE_SACL_PRESENT 12
        (20 + lengthSid sd.owner) (lengthSid sd.group) sd.sacl
      let (rel, _, _) ← storeAcl rel SE_DACL_PRESENT 16 offset last sd.dacl
      return (.success, some rel, some length) := by
  rw [rtlMakeSelfRelativeSD, if_neg (Nat.not_lt.mpr h)]
  rfl

theorem relControl_storeHeader :
    relControl (storeHeader sd rel) = sd.control ||| SE_SELF_RELATIVE := by
  have hlt : (sd.control ||| SE_SELF_RELATIVE).toNat < 256 ^ 2 := BitVec.isLt _
  rw [relControl, storeHeader, load_store, Nat.mod_eq_of_lt hlt, BitVec.ofNat_toNat,
    BitVec.setWidth_eq]

theorem flag_or {flag : BitVec 16} (h : flag &&& SE_SELF_RELATIVE = 0) :
    (c ||| SE_SELF_RELATIVE) &&& flag = c &&& flag := by
  ext i hi
  have hbit := congrArg (fun b : BitVec 16 => b[i]) h
  simp only [BitVec.getElem_and, BitVec.getElem_or] at hbit ⊢
  cases hf : flag[i] <;> simp [hf] at hbit ⊢
  simp [hbit]

theorem lengthSid_le {s : Option Memory} (h : ∀ t, s = some t → RtlValidSid t) :
    lengthSid s ≤ 68 := by
  cases s with
  | none => exact Nat.zero_le _
  | some t =>
      have hcount : subAuthorityCount t ≤ 15 := (h t rfl).2
      rw [lengthSid, rtlLengthSid]
      omega

theorem lengthAcl_lt (flag : BitVec 16) (acl : Option Memory) : lengthAcl c flag acl < 65536 := by
  cases acl with
  | none => exact Nat.zero_lt_succ _
  | some a =>
      have := aclSize_lt a
      rw [lengthAcl]
      split_ifs <;> omega

theorem storeHeader_of_le {i : ℕ} (h : 4 ≤ i) : storeHeader sd rel i = rel i := by
  rw [storeHeader, store_of_not_mem (.inr (by rw [length_littleEndian]; omega)),
    store_of_not_mem (.inr (by rw [List.length_singleton]; omega)),
    store_of_not_mem (.inr (by rw [List.length_singleton]; omega))]

theorem storeSids_spec (h : ValidAbsolute sd) (buf : Memory) :
    (∀ i, 20 + lengthSid sd.owner + lengthSid sd.group ≤ i → storeSids sd buf i = buf i) ∧
    relControl (storeSids sd buf) = sd.control ||| SE_SELF_RELATIVE ∧
    PartAt (storeSids sd buf) 4 20 (bytesOf sd.owner (lengthSid sd.owner)) ∧
    PartAt (storeSids sd buf) 8 (20 + lengthSid sd.owner)
      (bytesOf sd.group (lengthSid sd.group)) := by
  have hown := lengthSid_le h.owner
  have hlo := length_bytesOf_sid sd.owner
  have howner : Writes (storeHeader sd buf) _ 4 20 _ :=
    writes_storePart (length_bytesOf_sid sd.owner)
  have hgroup : Writes _ (storeSids sd buf) 8 (20 + lengthSid sd.owner) _ :=
    writes_storePart (length_bytesOf_sid sd.group)
  refine ⟨fun i hi => ?_, ?_, ?_, partAt_storePart (by omega) (by omega)⟩
  · rw [hgroup i (by omega) (by omega), howner i (by omega) (by omega),
      storeHeader_of_le (by omega)]
  · rw [hgroup.relControl (by decide) (by omega), howner.relControl (by decide) (by decide),
      relControl_storeHeader]
  · refine (partAt_storePart (by decide) (by decide)).frame hgroup (by decide) (by decide)
      (by omega) ?_
    omega

theorem exists_packed (h : ValidAbsolute sd) (hnull : AclsNonNull sd) (buf : Memory) :
    ∃ rel, rtlMakeSelfRelativeSD (some sd) (some buf) (some (rtlLengthSecurityDescriptor sd)) =
      .ok (.success, some rel, some (rtlLengthSecurityDescriptor sd)) ∧ Packed sd buf rel := by
  have hown := lengthSid_le h.owner
  have hgrp := lengthSid_le h.group
  have hlo := length_bytesOf_sid sd.owner
  have hlg := length_bytesOf_sid sd.group
  have hslt := lengthAcl_lt (c := sd.control) SE_SACL_PRESENT sd.sacl
  have hlen : rtlLengthSecurityDescriptor sd = 20 + lengthSid sd.owner + lengthSid sd.group +
    lengthAcl sd.control SE_SACL_PRESENT sd.sacl + lengthAcl sd.control SE_DACL_PRESENT sd.dacl := rfl
  have hsflag : (sd.control ||| SE_SELF_RELATIVE) &&& SE_SACL_PRESENT =
    sd.control &&& SE_SACL_PRESENT := flag_or (by decide)
  have hdflag : (sd.control ||| SE_SELF_RELATIVE) &&& SE_DACL_PRESENT =
    sd.control &&& SE_DACL_PRESENT := flag_or (by decide)
  have hlens : lengthAcl (sd.control ||| SE_SELF_RELATIVE) SE_SACL_PRESENT sd.sacl =
      lengthAcl sd.control SE_SACL_PRESENT sd.sacl := by
    unfold lengthAcl
    rw [hsflag]
  have hlend : lengthAcl (sd.control ||| SE_SELF_RELATIVE) SE_DACL_PRESENT sd.dacl =
      lengthAcl sd.control SE_DACL_PRESENT sd.dacl := by
    unfold lengthAcl
    rw [hdflag]
  obtain ⟨hout, hcontrol, howner, hgroup⟩ := storeSids_spec h buf
  -- the SACL behind the group
  obtain ⟨rel₁, q, n, hfirst, hwrites, hend, hsacl⟩ :=
    storeAcl_ok (f := 12) (p := 20 + lengthSid sd.owner) (n := lengthSid sd.group) hcontrol
      (hsflag ▸ hnull.1) (by omega) (by omega)
  rw [hlens] at hwrites hend
  rw [hsflag] at hsacl
  have hcontrol₁ := (hwrites.relControl (by decide) (by omega)).trans hcontrol
  -- the DACL behind the part that was stored last
  obtain ⟨rel₂, q', n', hsecond, hwrites', -, hdacl⟩ :=
    storeAcl_ok (f := 16) (p := q) (n := n) hcontrol₁ (hdflag ▸ hnull.2) (by omega) (by omega)
  rw [hlend, hend] at hwrites'
  rw [hdflag] at hdacl
  have hmake : rtlMakeSelfRelativeSD (some sd) (some buf) (some (rtlLengthSecurityDescriptor sd)) =
      .ok (.success, some rel₂, some (rtlLengthSecurityDescriptor sd)) := by
    rw [rtlMakeSelfRelativeSD_eq buf (Nat.le_refl _), hfirst]
    change (storeAcl rel₁ SE_DACL_PRESENT 16 q n sd.dacl >>= _) = _
    rw [hsecond]
    rfl
  refine ⟨rel₂, hmake, ?_⟩
  constructor
  · intro i hi
    rw [hlen] at hi
    rw [hwrites' i (by omega) (by omega), hwrites i (by omega) (by omega), hout i (by omega)]
  · exact (hwrites'.relControl (by decide) (by omega)).trans hcontrol₁
  · refine (howner.frame hwrites ?_ ?_ ?_ ?_).frame hwrites' ?_ ?_ ?_ ?_ <;> omega
  · refine (hgroup.frame hwrites ?_ ?_ ?_ ?_).frame hwrites' ?_ ?_ ?_ ?_ <;> omega
  · intro hflag a ha
    have hsize : lengthAcl sd.control SE_SACL_PRESENT sd.sacl = aclSize a := by
      rw [ha, lengthAcl, if_pos hflag]
    have hla : (bytesAt a 0 (aclSize a)).length = aclSize a := length_bytesAt
    refine ⟨_, (hsacl hflag a ha).frame hwrites' ?_ ?_ ?_ ?_⟩ <;> omega
  · exact fun hflag a ha => ⟨_, hdacl hflag a ha⟩

/-! ## Unpacking -/

/-! The header of a SID or ACL says how long it is, also in a copy. -/

theorem memFrom_zero (m : Memory) : memFrom m 0 = m := by
  funext i
  rw [memFrom, Nat.zero_add]

theorem rtlLengthSid_congr {s t : Memory} (h : bytesAt t p n = bytesAt s 0 n) (hn : 2 ≤ n) :
    rtlLengthSid (memFrom t p) = rtlLengthSid s := by
  have hbyte := eq_of_bytesAt_eq h (i := 1) (by omega)
  rw [Nat.zero_add] at hbyte
  simp only [rtlLengthSid, subAuthorityCount, load, memFrom, hbyte]

theorem aclSize_congr {a t : Memory} (h : bytesAt t p n = bytesAt a 0 n) (hn : 4 ≤ n) :
    aclSize (memFrom t p) = aclSize a := by
  have hlow := eq_of_bytesAt_eq h (i := 2) (by omega)
  have hhigh := eq_of_bytesAt_eq h (i := 3) (by omega)
  rw [Nat.zero_add] at hlow hhigh
  simp only [aclSize, load, memFrom, Nat.reduceAdd, hlow, hhigh]

theorem bytesAt_copyTo {dst src : Memory} : bytesAt (copyTo dst (memFrom src p) n) 0 n =
    bytesAt src p n := by
  have hcopy := @bytesAt_store dst 0 (bytesAt (memFrom src p) 0 n)
  rw [length_bytesAt] at hcopy
  refine hcopy.trans (bytesAt_eq fun i _ => ?_)
  rw [Nat.zero_add, memFrom]

theorem eight_le_aclSize {a : Memory} (h : rtlValidAcl a = true) : 8 ≤ aclSize a := by
  rw [rtlValidAcl] at h
  split_ifs at h with hrev
  rw [validAclLoop] at h
  split_ifs at h with hlt
  exact Nat.not_lt.mp hlt

theorem sameSid_copy (dst : Memory) {s rel : Memory}
    (h : PartAt rel f p (bytesAt s 0 (rtlLengthSid s))) :
    rtlLengthSid (memFrom rel p) = rtlLengthSid s ∧
    SameSid (some s) (some (copyTo dst (memFrom rel p) (rtlLengthSid (memFrom rel p)))) := by
  have hpart := h.2
  rw [length_bytesAt] at hpart
  have hlen : rtlLengthSid (memFrom rel p) = rtlLengthSid s :=
    rtlLengthSid_congr hpart (Nat.le_add_left_of_le (by decide))
  have hcopy : bytesAt (copyTo dst (memFrom rel p) (rtlLengthSid s)) 0 (rtlLengthSid s) =
      bytesAt s 0 (rtlLengthSid s) := bytesAt_copyTo.trans hpart
  refine ⟨hlen, ?_⟩
  rw [hlen]
  have hlen' := rtlLengthSid_congr hcopy (Nat.le_add_left_of_le (by decide))
  rw [memFrom_zero] at hlen'
  exact ⟨hlen', hcopy⟩

theorem sameAcl_copy (dst : Memory) {a rel : Memory} (h : PartAt rel f p (bytesAt a 0 (aclSize a)))
    (hvalid : rtlValidAcl a = true) :
    aclSize (memFrom rel p) = aclSize a ∧
    SameAcl (some a) (some (copyTo dst (memFrom rel p) (aclSize (memFrom rel p)))) := by
  have hsize := eight_le_aclSize hvalid
  have hpart := h.2
  rw [length_bytesAt] at hpart
  have hlen : aclSize (memFrom rel p) = aclSize a := aclSize_congr hpart (by omega)
  have hcopy : bytesAt (copyTo dst (memFrom rel p) (aclSize a)) 0 (aclSize a) =
      bytesAt a 0 (aclSize a) := bytesAt_copyTo.trans hpart
  refine ⟨hlen, ?_⟩
  rw [hlen]
  have hlen' := aclSize_congr hcopy (by omega)
  rw [memFrom_zero] at hlen'
  exact ⟨hlen', hcopy⟩

/-- A packed descriptor is unpacked again, into adequate buffers. -/
def Unpacks (sd : SecurityDescriptor) (rel : Memory) : Prop :=
  ∀ (abs : SecurityDescriptor) (bufDacl bufSacl bufOwner bufGroup : Memory) (sizes : SdSizes),
    Adequate sd sizes → ∃ sd' sizes',
      rtlSelfRelativeToAbsoluteSD (some rel) abs bufDacl bufSacl bufOwner bufGroup (some sizes) =
        (.success, sd', some sizes') ∧ SameDescriptor sd sd'

/-- All parts that are stored can be found again. -/
structure Packable (sd : SecurityDescriptor) : Prop where
  owner : sd.owner ≠ none
  group : sd.group ≠ none
  acls : AclsNonNull sd

theorem requireSize_eq {needed : Bool} {size length : ℕ} (h : needed = true → length ≤ size) :
    requireSize needed size length = (true, size) := by
  rw [requireSize, if_neg]
  rw [Bool.and_eq_true, decide_eq_true_eq]
  exact fun hsmall => absurd (h hsmall.1) (Nat.not_le.mpr hsmall.2)

/-- An ACL that is present is copied into a buffer that is large enough. -/
theorem sameAcl_packed (dst : Memory) {flag : BitVec 16} {acl : Option Memory} {size : ℕ}
    (hnull : acl ≠ none) (hpart : ∀ a, acl = some a → ∃ p, PartAt rel f p (bytesAt a 0 (aclSize a)))
    (hvalid : ∀ a, acl = some a → rtlValidAcl a = true) (hroom : lengthAcl c flag acl ≤ size)
    (hflag : c &&& flag ≠ 0) : aclSize (memFrom rel (load rel f 4)) ≤ size ∧
      SameAcl acl (some (copyTo dst (memFrom rel (load rel f 4))
        (aclSize (memFrom rel (load rel f 4))))) := by
  obtain ⟨a, rfl⟩ := Option.ne_none_iff_exists'.mp hnull
  obtain ⟨p, hp⟩ := hpart a rfl
  obtain ⟨hlen, hcopy⟩ := sameAcl_copy dst hp (hvalid a rfl)
  rw [lengthAcl, if_pos hflag] at hroom
  rw [hp.1]
  exact ⟨hlen ▸ hroom, hcopy⟩

theorem or_self_relative : (c ||| SE_SELF_RELATIVE) &&& SE_SELF_RELATIVE ≠ 0 := by
  intro h
  have hbit := congrArg (fun b : BitVec 16 => b[15]) h
  simp [SE_SELF_RELATIVE] at hbit

theorem and_not_self_relative (h : c &&& SE_SELF_RELATIVE = 0) :
    (c ||| SE_SELF_RELATIVE) &&& ~~~SE_SELF_RELATIVE = c := by
  ext i hi
  have hbit := congrArg (fun b : BitVec 16 => b[i]) h
  simp only [BitVec.getElem_and, BitVec.getElem_or, BitVec.getElem_not] at hbit ⊢
  cases hf : SE_SELF_RELATIVE[i] <;> simp [hf] at hbit ⊢
  simp [hbit]

theorem Packed.unpacks {buf : Memory} (h : ValidAbsolute sd) (hp : Packable sd)
    (hpacked : Packed sd buf rel) : Unpacks sd rel := by
  intro abs bufDacl bufSacl bufOwner bufGroup sizes hsizes
  obtain ⟨s, hs⟩ := Option.ne_none_iff_exists'.mp hp.owner
  obtain ⟨t, ht⟩ := Option.ne_none_iff_exists'.mp hp.group
  have hown := hpacked.owner
  have hgrp := hpacked.group
  have hroom := hsizes.owner
  have hroom' := hsizes.group
  rw [hs] at hown hgrp hroom
  rw [ht] at hgrp hroom'
  have howner : relOwner rel = 20 := hown.1
  have hgroup : relGroup rel = 20 + rtlLengthSid s := hgrp.1
  obtain ⟨hslen, hsame⟩ := sameSid_copy bufOwner hown
  obtain ⟨htlen, hsame'⟩ := sameSid_copy bufGroup hgrp
  have hsflag : relControl rel &&& SE_SACL_PRESENT = sd.control &&& SE_SACL_PRESENT := by
    rw [hpacked.control, flag_or (by decide)]
  have hdflag : relControl rel &&& SE_DACL_PRESENT = sd.control &&& SE_DACL_PRESENT := by
    rw [hpacked.control, flag_or (by decide)]
  have hsacl : sd.control &&& SE_SACL_PRESENT ≠ 0 →
      aclSize (memFrom rel (relSacl rel)) ≤ sizes.sacl ∧ SameAcl sd.sacl (some
        (copyTo bufSacl (memFrom rel (relSacl rel)) (aclSize (memFrom rel (relSacl rel))))) :=
    fun hflag => sameAcl_packed bufSacl (hp.acls.1 hflag) (hpacked.sacl hflag) (h.sacl hflag)
      hsizes.sacl hflag
  have hdacl : sd.control &&& SE_DACL_PRESENT ≠ 0 →
      aclSize (memFrom rel (relDacl rel)) ≤ sizes.dacl ∧ SameAcl sd.dacl (some
        (copyTo bufDacl (memFrom rel (relDacl rel)) (aclSize (memFrom rel (relDacl rel))))) :=
    fun hflag => sameAcl_packed bufDacl (hp.acls.2 hflag) (hpacked.dacl hflag) (h.dacl hflag)
      hsizes.dacl hflag
  have hself : ¬relControl rel &&& SE_SELF_RELATIVE = 0 := hpacked.control ▸ or_self_relative
  rw [rtlSelfRelativeToAbsoluteSD, if_neg hself]
  simp only [hsflag, hdflag, howner, hgroup]
  rw [requireSize_eq fun _ => hsizes.absolute,
    requireSize_eq fun hn => (hdacl (of_decide_eq_true hn)).1,
    requireSize_eq fun hn => (hsacl (of_decide_eq_true hn)).1,
    requireSize_eq fun _ => hslen ▸ hroom, requireSize_eq fun _ => htlen ▸ hroom']
  refine ⟨_, _, rfl, ?_⟩
  constructor
  · rw [hpacked.control]
    exact and_not_self_relative h.absolute
  · rw [hs]
    exact hsame
  · rw [ht, if_pos (by omega)]
    exact hsame'
  · intro hflag
    rw [if_pos hflag]
    exact (hsacl hflag).2
  · intro hflag
    rw [if_pos hflag]
    exact (hdacl hflag).2

/-! ## Round trips -/

/-- Packing into a buffer of the length of the descriptor succeeds, writes only there, and gives a
descriptor that is unpacked again. -/
def RoundTrips (sd : SecurityDescriptor) : Prop :=
  ∀ buf : Memory, ∃ rel,
    rtlMakeSelfRelativeSD (some sd) (some buf) (some (rtlLengthSecurityDescriptor sd)) =
      .ok (.success, some rel, some (rtlLengthSecurityDescriptor sd)) ∧
    (∀ i, rtlLengthSecurityDescriptor sd ≤ i → rel i = buf i) ∧ Unpacks sd rel

theorem not_makeSelfRelative {buf : Memory} (h : ValidAbsolute sd) (hnull : ¬AclsNonNull sd) :
    rtlMakeSelfRelativeSD (some sd) (some buf) (some (rtlLengthSecurityDescriptor sd)) =
      .error .nullPointer := by
  have hcontrol := (storeSids_spec h buf).2.1
  have hown := lengthSid_le h.owner
  have hgrp := lengthSid_le h.group
  have hsflag : (sd.control ||| SE_SELF_RELATIVE) &&& SE_SACL_PRESENT =
    sd.control &&& SE_SACL_PRESENT := flag_or (by decide)
  have hdflag : (sd.control ||| SE_SELF_RELATIVE) &&& SE_DACL_PRESENT =
    sd.control &&& SE_DACL_PRESENT := flag_or (by decide)
  rw [rtlMakeSelfRelativeSD_eq buf (Nat.le_refl _)]
  by_cases hsacl : sd.control &&& SE_SACL_PRESENT ≠ 0 → sd.sacl ≠ none
  · obtain ⟨rel, q, n, hfirst, hwrites, -⟩ :=
      storeAcl_ok (f := 12) (p := 20 + lengthSid sd.owner) (n := lengthSid sd.group) hcontrol
        (hsflag ▸ hsacl) (by omega) (by omega)
    have hdacl : sd.control &&& SE_DACL_PRESENT ≠ 0 ∧ sd.dacl = none := by
      by_contra hno
      exact hnull ⟨hsacl, fun hflag hnone => hno ⟨hflag, hnone⟩⟩
    have hflag : relControl rel &&& SE_DACL_PRESENT ≠ 0 := by
      rw [hwrites.relControl (by decide) (by omega), hcontrol, hdflag]
      exact hdacl.1
    rw [hfirst, hdacl.2]
    change (storeAcl rel SE_DACL_PRESENT 16 q n none >>= _) = _
    rw [storeAcl_null hflag]
    rfl
  · rw [Classical.not_imp, not_not] at hsacl
    rw [hsacl.2, storeAcl_null (by rw [hcontrol, hsflag]; exact hsacl.1)]
    rfl

/-- An owner whose offset is not zero is unpacked, and so is a group. -/
theorem unpacked_ne_none {abs sd' : SecurityDescriptor} {bufs : Memory}
    {sizes : SdSizes} {sizes' : Option SdSizes}
    (h : rtlSelfRelativeToAbsoluteSD (some rel) abs bufs bufs bufs bufs (some sizes) =
      (.success, sd', sizes')) :
    (relOwner rel ≠ 0 → sd'.owner ≠ none) ∧ (relGroup rel ≠ 0 → sd'.group ≠ none) := by
  rw [rtlSelfRelativeToAbsoluteSD] at h
  split at h
  · cases h
  · simp only at h
    split at h
    · cases h
    · simp only [Prod.mk.injEq] at h
      obtain ⟨-, rfl, -⟩ := h
      exact ⟨fun hne => by simp [hne], fun hne => by simp [hne]⟩

/-- A part that is missing, or an ACL that is `NULL`, does not make the round trip. -/
theorem RoundTrips.packable (htrip : RoundTrips sd) (h : ValidAbsolute sd) : Packable sd := by
  obtain ⟨rel, hmake, -, hunpack⟩ := htrip fun _ => 0
  have hacls : AclsNonNull sd := by
    by_contra hnull
    rw [not_makeSelfRelative h hnull] at hmake
    cases hmake
  obtain ⟨rel', hmake', hpacked⟩ := exists_packed h hacls fun _ => 0
  rw [hmake] at hmake'
  cases hmake'
  -- buffers of exactly the sizes of the parts
  obtain ⟨sd', sizes', hun, hsame⟩ := hunpack sd (fun _ => 0) (fun _ => 0) (fun _ => 0)
    (fun _ => 0) ⟨20, lengthAcl sd.control SE_DACL_PRESENT sd.dacl,
      lengthAcl sd.control SE_SACL_PRESENT sd.sacl, lengthSid sd.owner, lengthSid sd.group⟩
    ⟨Nat.le_refl _, Nat.le_refl _, Nat.le_refl _, Nat.le_refl _, Nat.le_refl _⟩
  obtain ⟨howner, hgroup⟩ := unpacked_ne_none hun
  have hoff : relOwner rel ≠ 0 := by
    rw [show relOwner rel = 20 from hpacked.owner.1]
    decide
  have hoff' : relGroup rel ≠ 0 := by
    rw [show relGroup rel = 20 + lengthSid sd.owner from hpacked.group.1]
    omega
  refine ⟨fun hnone => ?_, fun hnone => ?_, hacls⟩
  · have hsid := hsame.owner
    obtain ⟨t, ht⟩ := Option.ne_none_iff_exists'.mp (howner hoff)
    rw [hnone, ht] at hsid
    exact hsid
  · have hsid := hsame.group
    obtain ⟨t, ht⟩ := Option.ne_none_iff_exists'.mp (hgroup hoff')
    rw [hnone, ht] at hsid
    exact hsid

/-- A valid absolute descriptor makes the round trip exactly if it has an owner and a group and the
ACLs that are present are not `NULL`. -/
theorem self_relative_round_trip (sd : SecurityDescriptor) (h : ValidAbsolute sd) :
    RoundTrips sd ↔ sd.owner ≠ none ∧ sd.group ≠ none ∧
      (sd.control &&& SE_SACL_PRESENT ≠ 0 → sd.sacl ≠ none) ∧
      (sd.control &&& SE_DACL_PRESENT ≠ 0 → sd.dacl ≠ none) := by
  constructor
  · intro htrip
    obtain ⟨howner, hgroup, hacls⟩ := htrip.packable h
    exact ⟨howner, hgroup, hacls⟩
  · rintro ⟨howner, hgroup, hacls⟩ buf
    obtain ⟨rel, hmake, hpacked⟩ := exists_packed h hacls buf
    exact ⟨rel, hmake, hpacked.outside, hpacked.unpacks h ⟨howner, hgroup, hacls⟩⟩

/-- The SID S-1-5-18. -/
def localSystem : Memory := store (fun _ => 0) 0 [1, 1, 0, 0, 0, 0, 0, 5, 18, 0, 0, 0]

/-- A descriptor with owner and group and without ACLs. -/
def ownedDescriptor : SecurityDescriptor := ⟨1, 0, 0, some localSystem, some localSystem, none, none⟩

theorem valid_ownedDescriptor : ValidAbsolute ownedDescriptor where
  revision := by decide
  absolute := by decide
  owner s hs := by cases hs; decide
  group s hs := by cases hs; decide
  sacl h := absurd rfl h
  dacl h := absurd rfl h

theorem self_relative_round_trip_owned :
    RoundTrips ownedDescriptor ↔ ownedDescriptor.owner ≠ none ∧ ownedDescriptor.group ≠ none ∧
      (ownedDescriptor.control &&& SE_SACL_PRESENT ≠ 0 → ownedDescriptor.sacl ≠ none) ∧
      (ownedDescriptor.control &&& SE_DACL_PRESENT ≠ 0 → ownedDescriptor.dacl ≠ none) :=
  self_relative_round_trip ownedDescriptor valid_ownedDescriptor

/-- A descriptor without owner, group and ACLs comes back with an owner. -/
theorem empty_descriptor_gains_owner :
    ¬∀ sd : SecurityDescriptor, ValidAbsolute sd → RoundTrips sd := by
  intro hall
  let sd : SecurityDescriptor := ⟨1, 0, 0, none, none, none, none⟩
  have hvalid : ValidAbsolute sd :=
    ⟨by decide, by decide, by simp [sd], by simp [sd], by simp [sd], by simp [sd]⟩
  exact ((hall sd hvalid).packable hvalid).owner rfl

end Wine.Ntdll
