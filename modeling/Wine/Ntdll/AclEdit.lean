import Wine.Lib.Runs
import Wine.Ntdll.SecurityDescriptor

/-!
# ACLs as lists of ACEs

A well-formed ACL holds a list of ACEs one after the other. Every walk over it stops where the list
says, and the edits append to the list or remove one element of it.
-/

namespace Wine.Ntdll
open Lib Lib.Reading

/-! ## Lists of ACEs in memory -/

/-- The bytes of an ACE, whose header says how many they are. -/
structure Ace where
  bytes : List (BitVec 8)
  four_le : 4 ≤ bytes.length
  size_eq : (bytes.getD 2 0).toNat + 256 * (bytes.getD 3 0).toNat = bytes.length

def Ace.size (ace : Ace) : ℕ := ace.bytes.length

theorem Ace.four_le_size (ace : Ace) : 4 ≤ ace.size := ace.four_le

def totalSize : List Ace → ℕ
  | [] => 0
  | ace :: aces => ace.size + totalSize aces

@[simp] theorem totalSize_nil : totalSize [] = 0 := rfl

@[simp] theorem totalSize_cons (ace : Ace) (aces : List Ace) :
    totalSize (ace :: aces) = ace.size + totalSize aces := rfl

@[simp] theorem totalSize_append (l l' : List Ace) :
    totalSize (l ++ l') = totalSize l + totalSize l' := by
  induction l with
  | nil => simp
  | cons ace l ih => rw [List.cons_append, totalSize_cons, totalSize_cons, ih, Nat.add_assoc]

theorem length_le_totalSize (l : List Ace) : 4 * l.length ≤ totalSize l := by
  induction l with
  | nil => simp
  | cons ace l ih =>
      have := ace.four_le_size
      rw [totalSize_cons, List.length_cons]
      omega

/-- The ACEs lie one after the other from `p` on. -/
def AcesAt (m : Memory) : ℕ → List Ace → Prop
  | _, [] => True
  | p, ace :: aces => bytesAt m p ace.size = ace.bytes ∧ AcesAt m (p + ace.size) aces

variable {m m' : Memory} {p q : ℕ} {ace : Ace} {l l' : List Ace}

theorem AcesAt.aceSize_eq (h : AcesAt m p (ace :: l)) : aceSize m p = ace.size := by
  have hfour := ace.four_le_size
  have hbyte : ∀ i, i < ace.size → m (p + i) = ace.bytes.getD i 0 := by
    intro i hi
    rw [← h.1, getD_bytesAt hi]
  simp only [aceSize, load, Nat.add_assoc, hbyte 2 (by omega), hbyte (2 + 1) (by omega)]
  exact ace.size_eq

theorem acesAt_append : AcesAt m p (l ++ l') ↔ AcesAt m p l ∧ AcesAt m (p + totalSize l) l' := by
  induction l generalizing p with
  | nil => simp [AcesAt]
  | cons ace l ih => rw [List.cons_append, AcesAt, AcesAt, ih, totalSize_cons, and_assoc, Nat.add_assoc]

/-- ACEs whose bytes are found somewhere else are there. -/
theorem AcesAt.of_eq (h : AcesAt m p l) (heq : ∀ i, i < totalSize l → m' (q + i) = m (p + i)) :
    AcesAt m' q l := by
  induction l generalizing p q with
  | nil => trivial
  | cons ace l ih =>
      rw [totalSize_cons] at heq
      refine ⟨h.1 ▸ bytesAt_eq fun i hi => heq i (by omega), ih h.2 fun i hi => ?_⟩
      rw [Nat.add_assoc, Nat.add_assoc]
      exact heq _ (by omega)

theorem AcesAt.congr (h : AcesAt m p l) (heq : ∀ i, p ≤ i → i < p + totalSize l → m' i = m i) :
    AcesAt m' p l :=
  h.of_eq fun i hi => heq _ (Nat.le_add_right p i) (Nat.add_lt_add_left hi p)

/-! ## Walks -/

theorem getAceLoop_eq (h : AcesAt m p (l ++ l')) :
    getAceLoop m l.length p = p + totalSize l := by
  induction l generalizing p with
  | nil => rfl
  | cons ace l ih =>
      rw [List.cons_append] at h
      rw [List.length_cons, getAceLoop, h.aceSize_eq, ih h.2, totalSize_cons, Nat.add_assoc]

theorem validAclLoop_eq (h : AcesAt m p l) (hfit : p + totalSize l ≤ aclSize m) :
    validAclLoop m (l.length + 1) p = true := by
  induction l generalizing p with
  | nil =>
      rw [totalSize_nil, Nat.add_zero] at hfit
      rw [List.length_nil, validAclLoop, if_neg (Nat.not_lt.mpr hfit), validAclLoop]
  | cons ace l ih =>
      rw [totalSize_cons] at hfit
      rw [List.length_cons, validAclLoop, if_neg (by omega), h.aceSize_eq]
      exact ih h.2 (by omega)

theorem firstFreeLoop_eq (h : AcesAt m p l) (hfit : p + totalSize l ≤ aclSize m) :
    firstFreeLoop m l.length p =
      if aclSize m ≤ p + totalSize l then none else some (p + totalSize l) := by
  induction l generalizing p with
  | nil => rfl
  | cons ace l ih =>
      have hfour := ace.four_le_size
      rw [totalSize_cons] at hfit ⊢
      rw [List.length_cons, firstFreeLoop, if_neg (by omega), h.aceSize_eq, ih h.2 (by omega),
        Nat.add_assoc]

theorem countAces_eq {acelen fuel n : ℕ} (h : AcesAt m p l) (hend : p + totalSize l = acelen)
    (hfuel : l.length ≤ fuel) : countAces m acelen fuel p n = some (n + l.length) := by
  induction l generalizing p fuel n with
  | nil =>
      rw [totalSize_nil, Nat.add_zero] at hend
      unfold countAces
      rw [if_neg (by omega)]
      rfl
  | cons ace l ih =>
      have hfour := ace.four_le_size
      rw [totalSize_cons] at hend
      rw [List.length_cons] at hfuel ⊢
      obtain ⟨fuel, rfl⟩ := Nat.exists_eq_add_of_le' (Nat.one_le_of_lt hfuel)
      unfold countAces
      rw [if_pos (by omega)]
      simp only
      rw [h.aceSize_eq, ih h.2 (by omega) (by omega), Nat.add_right_comm, Nat.add_assoc]

theorem restLength_eq (h : AcesAt m p l) : restLength m l.length p = totalSize l := by
  induction l generalizing p with
  | nil => rfl
  | cons ace l ih =>
      rw [List.length_cons, restLength, h.aceSize_eq, ih h.2, totalSize_cons]

/-! ## Well-formed ACLs -/

/-- The ACL holds exactly the ACEs of `l`. -/
structure WellFormed (m : Memory) (l : List Ace) : Prop where
  revision : aclRevision m = ACL_REVISION
  count : aceCount m = l.length
  aces : AcesAt m 8 l
  fits : 8 + totalSize l ≤ aclSize m

namespace WellFormed

theorem length_lt (h : WellFormed m l) : l.length < 16384 := by
  have := length_le_totalSize l
  have := h.fits
  have := aclSize_lt m
  omega

theorem valid (h : WellFormed m l) : rtlValidAcl m = true := by
  rw [rtlValidAcl, if_neg (not_not_intro h.revision), h.count, validAclLoop_eq h.aces h.fits]

theorem firstFree (h : WellFormed m l) : rtlFirstFreeAce m =
    if aclSize m ≤ 8 + totalSize l then none else some (8 + totalSize l) := by
  rw [rtlFirstFreeAce, h.count, firstFreeLoop_eq h.aces h.fits]

end WellFormed

/-! ## The header -/

@[simp] theorem aceCount_setAceCount (n : ℕ) : aceCount (setAceCount m n) = n % 65536 := load_store

@[simp] theorem aclRevision_setAceCount (n : ℕ) :
    aclRevision (setAceCount m n) = aclRevision m :=
  load_store_of_disjoint (.inl (by decide))

@[simp] theorem aclSize_setAceCount (n : ℕ) : aclSize (setAceCount m n) = aclSize m :=
  load_store_of_disjoint (.inl (by decide))

theorem setAceCount_of_le {n i : ℕ} (h : 8 ≤ i) : setAceCount m n i = m i :=
  store_of_not_mem (.inr (by rw [length_littleEndian]; omega))

/-- What is stored after the header leaves it alone. -/
theorem header_store (bytes : List (BitVec 8)) (h : 8 ≤ p) :
    aclRevision (store m p bytes) = aclRevision m ∧ aclSize (store m p bytes) = aclSize m ∧
      aceCount (store m p bytes) = aceCount m :=
  ⟨load_store_of_disjoint (.inl (by omega)), load_store_of_disjoint (.inl (by omega)),
    load_store_of_disjoint (.inl (by omega))⟩

/-! ## Edits -/

/-- The outcome of a call that makes the list `l'` of an ACL in memory `m`, where that is
possible. -/
def Edited (possible : Prop) (l' : List Ace) (m : Memory) (r : Status × Memory) : Prop :=
  (possible → r.1 = .success ∧ WellFormed r.2 l') ∧ (¬possible → r.1 ≠ .success ∧ r.2 = m)

/-- ACEs that are stored after the last one belong to the list once they are counted. -/
theorem WellFormed.append {bytes : List (BitVec 8)} (h : WellFormed m l)
    (hnew : AcesAt (store m (8 + totalSize l) bytes) (8 + totalSize l) l')
    (hfit : 8 + totalSize l + totalSize l' ≤ aclSize m) :
    WellFormed (setAceCount (store m (8 + totalSize l) bytes)
      (aceCount (store m (8 + totalSize l) bytes) + l'.length)) (l ++ l') := by
  obtain ⟨hrev, hsize, hcount⟩ := header_store (m := m) bytes (Nat.le_add_right 8 _)
  have hlen := length_le_totalSize l'
  have hlt := h.length_lt
  have hmax := aclSize_lt m
  have hold : AcesAt (store m (8 + totalSize l) bytes) 8 l :=
    h.aces.congr fun i _ hi => store_of_not_mem (.inl hi)
  constructor
  · rw [aclRevision_setAceCount, hrev, h.revision]
  · rw [aceCount_setAceCount, hcount, h.count, List.length_append, Nat.mod_eq_of_lt (by omega)]
  · exact (acesAt_append.mpr ⟨hold, hnew⟩).congr fun i hi _ => setAceCount_of_le hi
  · rw [aclSize_setAceCount, hsize, totalSize_append]
    omega

/-- A list of ACEs in memory of its own. -/
structure AceList where
  mem : Memory
  aces : List Ace
  acesAt : AcesAt mem 0 aces

theorem rtlAddAce_spec (h : WellFormed m l) (revision start : ℕ) (src : AceList) :
    ∃ r, rtlAddAce m revision start src.mem (totalSize src.aces) = some r ∧
      Edited (8 + totalSize l < aclSize m ∧ 8 + totalSize l + totalSize src.aces ≤ aclSize m)
        (l ++ src.aces) m r := by
  have hfuel := length_le_totalSize src.aces
  have hcount := countAces_eq (n := 0) src.acesAt (Nat.zero_add _)
    (by omega : src.aces.length ≤ totalSize src.aces)
  rw [Nat.zero_add] at hcount
  rw [rtlAddAce, if_neg (not_not_intro h.revision), h.firstFree]
  by_cases hfull : aclSize m ≤ 8 + totalSize l
  · rw [if_pos hfull]
    exact ⟨_, rfl, fun hp => by omega, fun _ => ⟨by simp, rfl⟩⟩
  · rw [if_neg hfull]
    simp only [hcount]
    by_cases hroom : aclSize m < 8 + totalSize l + totalSize src.aces
    · rw [if_pos hroom]
      exact ⟨_, rfl, fun hp => by omega, fun _ => ⟨by simp, rfl⟩⟩
    · rw [if_neg hroom]
      refine ⟨_, rfl, fun _ => ⟨rfl, h.append ?_ (Nat.not_lt.mp hroom)⟩, fun hp => by omega⟩
      refine src.acesAt.of_eq fun i hi => ?_
      rw [store_of_mem (by rw [length_bytesAt]; exact hi), getD_bytesAt hi]

/-- Deleting an ACE slides the ones after it over it. -/
theorem WellFormed.delete (h : WellFormed m (l ++ ace :: l')) :
    (rtlDeleteAce m l.length).1 = .success ∧
      WellFormed (rtlDeleteAce m l.length).2 (l ++ l') := by
  obtain ⟨hbefore, hrest⟩ := acesAt_append.mp h.aces
  have hcount := h.count
  have hlt := h.length_lt
  have hfits := h.fits
  simp only [List.length_append, List.length_cons] at hcount hlt
  simp only [totalSize_append, totalSize_cons] at hfits
  have hget : rtlGetAce m l.length = some (8 + totalSize l) := by
    rw [rtlGetAce, if_neg (by omega), getAceLoop_eq h.aces]
  have hlen : restLength m (aceCount m - (l.length + 1)) (8 + totalSize l + ace.size) =
      totalSize l' := by
    rw [hcount, show l.length + (l'.length + 1) - (l.length + 1) = l'.length by omega,
      restLength_eq hrest.2]
  obtain ⟨hrev, hsize, hcount'⟩ := header_store (m := m)
    (bytesAt m (8 + totalSize l + ace.size) (totalSize l')) (Nat.le_add_right 8 _)
  simp only [rtlDeleteAce, hget, hrest.aceSize_eq, hlen, true_and]
  generalize hm' : store m (8 + totalSize l) _ = m' at *
  have hslid : AcesAt m' (8 + totalSize l) l' := by
    refine hrest.2.of_eq fun i hi => ?_
    rw [← hm', store_of_mem (by rw [length_bytesAt]; exact hi), getD_bytesAt hi]
  have hkept : AcesAt m' 8 l :=
    hbefore.congr fun i _ hi => hm' ▸ store_of_not_mem (.inl hi)
  constructor
  · rw [aclRevision_setAceCount, hrev, h.revision]
  · rw [aceCount_setAceCount, hcount', hcount, List.length_append]
    omega
  · exact (acesAt_append.mpr ⟨hkept, hslid⟩).congr fun i hi _ => setAceCount_of_le hi
  · rw [aclSize_setAceCount, hsize, totalSize_append]
    omega

theorem rtlDeleteAce_spec (h : WellFormed m l) {index : ℕ} (hne : index ≠ l.length) :
    Edited (index < l.length) (l.eraseIdx index) m (rtlDeleteAce m index) := by
  constructor
  · intro hlt
    have hsplit : l.take index ++ l[index] :: l.drop (index + 1) = l := by
      rw [← List.drop_eq_getElem_cons hlt, List.take_append_drop]
    have hlen : (l.take index).length = index := List.length_take_of_le (Nat.le_of_lt hlt)
    rw [List.eraseIdx_eq_take_drop_succ]
    rw [← hsplit] at h
    have hdel := h.delete
    rwa [hlen] at hdel
  · intro hge
    have hget : rtlGetAce m index = none := if_pos (by rw [h.count]; omega)
    simp only [rtlDeleteAce, hget]
    exact ⟨by simp, trivial⟩

def accessAceBytes (type flags mask : ℕ) (sid : Memory) : List (BitVec 8) :=
  littleEndian 1 type ++ (littleEndian 1 flags ++
    (littleEndian 2 (8 + rtlLengthSid sid) ++
      (littleEndian 4 mask ++ bytesAt sid 0 (rtlLengthSid sid))))

theorem four_le_accessAceBytes (type flags mask : ℕ) (sid : Memory) :
    4 ≤ (accessAceBytes type flags mask sid).length := by
  simp only [accessAceBytes, List.length_append, length_littleEndian]
  omega

theorem size_accessAceBytes (type flags mask : ℕ) (sid : Memory) (h : RtlValidSid sid) :
    ((accessAceBytes type flags mask sid).getD 2 0).toNat +
      256 * ((accessAceBytes type flags mask sid).getD 3 0).toNat =
        (accessAceBytes type flags mask sid).length := by
  have hcount : subAuthorityCount sid ≤ 15 := h.2
  simp only [accessAceBytes, littleEndian, List.cons_append, List.nil_append,
    List.getD_cons_succ, List.getD_cons_zero, List.length_cons, length_bytesAt,
    BitVec.toNat_ofNat, rtlLengthSid]
  omega

/-- The ACE that `add_access_ace` stores. -/
def accessAce (type flags mask : ℕ) (sid : Memory) (h : RtlValidSid sid) : Ace where
  bytes := accessAceBytes type flags mask sid
  four_le := four_le_accessAceBytes type flags mask sid
  size_eq := size_accessAceBytes type flags mask sid h

theorem size_accessAce {type flags mask : ℕ} {sid : Memory} (h : RtlValidSid sid) :
    (accessAce type flags mask sid h).size = 8 + rtlLengthSid sid := by
  simp only [Ace.size, accessAce, accessAceBytes, List.length_append, length_littleEndian, length_bytesAt]
  omega

/-- The list with the new ACE; it is the old one if the SID is not valid. -/
def withAccessAce (l : List Ace) (type flags mask : ℕ) (sid : Option Memory) : List Ace :=
  match sid with
  | none => l
  | some sid => if h : RtlValidSid sid then l ++ [accessAce type flags mask sid h] else l

/-- There is room for an ACE of the SID, which is valid, after the ACEs of `l`. -/
def RoomFor (m : Memory) (l : List Ace) (sid : Option Memory) : Prop :=
  ∃ s, sid = some s ∧ RtlValidSid s ∧ 8 + totalSize l + (8 + rtlLengthSid s) ≤ aclSize m

/-- The four fields and the SID are stored as the bytes of one ACE. -/
theorem store_accessAce {type flags mask : ℕ} {sid : Memory} (h : RtlValidSid sid) :
    rtlCopySid (rtlLengthSid sid) (store (store (store (store m p (littleEndian 1 type)) (p + 1)
      (littleEndian 1 flags)) (p + 2) (littleEndian 2 (4 + 4 + rtlLengthSid sid))) (p + 4)
        (littleEndian 4 mask)) (p + 8) sid =
      store m p (accessAce type flags mask sid h).bytes := by
  rw [rtlCopySid, if_neg (by simp [h]), store_store _ (by rw [length_littleEndian]),
    store_store _ (by rw [length_littleEndian]), store_store _ (by rw [length_littleEndian]),
    store_store _ (by rw [length_littleEndian])]
  rfl

/-- A revision that is not above that of the ACL does not change it. -/
theorem store_revision {revision : ℕ} (h : revision ≤ aclRevision m) :
    store m 0 (littleEndian 1 (max (aclRevision m) revision)) = m := by
  rw [Nat.max_eq_left h, aclRevision, littleEndian_load, store_bytesAt]

theorem WellFormed.append_accessAce (h : WellFormed m l) (type flags mask : ℕ) {sid : Memory}
    (hvalid : RtlValidSid sid) (hroom : 8 + totalSize l + (4 + 4 + rtlLengthSid sid) ≤ aclSize m) :
    WellFormed (setAceCount (store m (8 + totalSize l) (accessAce type flags mask sid hvalid).bytes)
      (aceCount (store m (8 + totalSize l) (accessAce type flags mask sid hvalid).bytes) + 1))
      (l ++ [accessAce type flags mask sid hvalid]) := by
  have hsize : (accessAce type flags mask sid hvalid).size = _ := size_accessAce hvalid
  refine @WellFormed.append _ _ [accessAce type flags mask sid hvalid] _ h ?_ ?_
  · exact ⟨bytesAt_store, trivial⟩
  · rw [totalSize_cons, totalSize_nil, hsize]
    omega

theorem addAccessAce_spec (h : WellFormed m l) {revision flags mask type : ℕ}
    {sid : Option Memory} (hrev : revision ≤ ACL_REVISION ∨
      ¬(revision ≤ MAX_ACL_REVISION ∧ RoomFor m l sid)) :
    Edited (revision ≤ MAX_ACL_REVISION ∧ RoomFor m l sid) (withAccessAce l type flags mask sid) m
      (addAccessAce m revision flags mask sid type) := by
  cases sid with
  | none => exact ⟨fun h => by simp [RoomFor] at h, fun _ => ⟨by simp [addAccessAce], rfl⟩⟩
  | some sid =>
      -- the calls that are refused, with what the refusal says about the room
      have hrefuse : ∀ st : Status, st ≠ .success →
          (revision ≤ MAX_ACL_REVISION → RtlValidSid sid →
            ¬8 + totalSize l + (8 + rtlLengthSid sid) ≤ aclSize m) →
          Edited (revision ≤ MAX_ACL_REVISION ∧ RoomFor m l (some sid))
            (withAccessAce l type flags mask (some sid)) m (st, m) := by
        refine fun st hst hroom => ⟨?_, fun _ => ⟨hst, rfl⟩⟩
        rintro ⟨hmax, s, hs, hvalid, hfit⟩
        cases hs
        exact absurd hfit (hroom hmax hvalid)
      rw [addAccessAce]
      by_cases hvalid : RtlValidSid sid
      · rw [if_neg (not_not_intro hvalid), h.revision]
        by_cases hmax : revision ≤ MAX_ACL_REVISION
        · rw [if_neg (not_or_intro (by decide) (Nat.not_lt.mpr hmax)), h.valid, if_neg (by simp),
            h.firstFree]
          by_cases hfull : aclSize m ≤ 8 + totalSize l
          · rw [if_pos hfull]
            exact hrefuse _ (by simp) fun _ _ => by omega
          · rw [if_neg hfull]
            simp only
            by_cases hroom : aclSize m < 8 + totalSize l + (4 + 4 + rtlLengthSid sid)
            · rw [if_pos hroom]
              exact hrefuse _ (by simp) fun _ _ => by omega
            · rw [if_neg hroom, store_accessAce hvalid]
              refine ⟨fun hp => ⟨rfl, ?_⟩, fun hno => ?_⟩
              · have hlow := hrev.resolve_right (not_not_intro hp)
                have hnew := h.append_accessAce type flags mask hvalid (Nat.not_lt.mp hroom)
                rw [withAccessAce, dif_pos hvalid, store_revision]
                · exact hnew
                · rw [(header_store _ (Nat.le_add_right 8 _)).1, h.revision]
                  exact hlow
              · exact absurd ⟨hmax, sid, rfl, hvalid, by omega⟩ hno
        · rw [if_pos (.inr (Nat.not_le.mp hmax))]
          exact hrefuse _ (by simp) fun hle => absurd hle hmax
      · rw [if_pos hvalid]
        exact hrefuse _ (by simp) fun _ hv => absurd hv hvalid

/-! ## Runs -/

inductive AclOp
  | addAccessAllowed (revision flags mask : ℕ) (sid : Option Memory)
  | addAccessDenied (revision flags mask : ℕ) (sid : Option Memory)
  | addAuditAccess (revision mask : ℕ) (sid : Option Memory) (success failure : Bool)
  | addAce (revision start : ℕ) (src : AceList)
  | delete (index : ℕ)

/-- The call in memory; it has no result if it does not return. -/
def AclOp.call (m : Memory) : AclOp → Option (Status × Memory)
  | .addAccessAllowed revision flags mask sid =>
    some (rtlAddAccessAllowedAceEx m revision flags mask sid)
  | .addAccessDenied revision flags mask sid =>
    some (rtlAddAccessDeniedAceEx m revision flags mask sid)
  | .addAuditAccess revision mask sid success failure =>
    some (rtlAddAuditAccessAce m revision mask sid success failure)
  | .addAce revision start src => rtlAddAce m revision start src.mem (totalSize src.aces)
  | .delete index => some (rtlDeleteAce m index)

/-- The list that the call is to make of `l`. -/
def AclOp.edit (l : List Ace) : AclOp → List Ace
  | .addAccessAllowed _ flags mask sid => withAccessAce l ACCESS_ALLOWED_ACE_TYPE flags mask sid
  | .addAccessDenied _ flags mask sid => withAccessAce l ACCESS_DENIED_ACE_TYPE flags mask sid
  | .addAuditAccess _ mask sid success failure =>
    withAccessAce l SYSTEM_AUDIT_ACE_TYPE (auditFlags success failure) mask sid
  | .addAce _ _ src => l ++ src.aces
  | .delete index => l.eraseIdx index

/-- The call can make its list: the SID is valid, the revision known and there is room, or the
index names an ACE. `RtlAddAce` does not look at a full ACL further. -/
def AclOp.Possible (m : Memory) (l : List Ace) : AclOp → Prop
  | .addAccessAllowed revision _ _ sid => revision ≤ MAX_ACL_REVISION ∧ RoomFor m l sid
  | .addAccessDenied revision _ _ sid => revision ≤ MAX_ACL_REVISION ∧ RoomFor m l sid
  | .addAuditAccess revision _ sid _ _ => revision ≤ MAX_ACL_REVISION ∧ RoomFor m l sid
  | .addAce _ _ src =>
    8 + totalSize l < aclSize m ∧ 8 + totalSize l + totalSize src.aces ≤ aclSize m
  | .delete index => index < l.length

/-- The list of an ACL in memory, as the calls that have succeeded made it. -/
structure AclState where
  mem : Memory
  aces : List Ace

inductive AclFault
  | noReturn

def aclStep (s : AclState) (op : AclOp) : Except AclFault AclState :=
  match op.call s.mem with
  | none => .error .noReturn
  | some r => .ok ⟨r.2, if r.1 = .success then op.edit s.aces else s.aces⟩

/-- The calls that keep to what `RtlValidAcl` accepts and to the ACEs that exist: an access ACE of a
revision above 2 is not added, and no call deletes the ACE after the last one. -/
def AclOp.Ok (s : AclState) (op : AclOp) : Prop :=
  match op with
  | .addAccessAllowed revision _ _ _ | .addAccessDenied revision _ _ _
  | .addAuditAccess revision _ _ _ _ => revision ≤ ACL_REVISION ∨ ¬op.Possible s.mem s.aces
  | .addAce _ _ _ => True
  | .delete index => index ≠ s.aces.length

theorem AclOp.call_spec {s : AclState} (h : WellFormed s.mem s.aces) (op : AclOp) (hok : op.Ok s) :
    ∃ r, op.call s.mem = some r ∧
      Edited (op.Possible s.mem s.aces) (op.edit s.aces) s.mem r := by
  cases op with
  | addAccessAllowed revision flags mask sid => exact ⟨_, rfl, addAccessAce_spec h hok⟩
  | addAccessDenied revision flags mask sid => exact ⟨_, rfl, addAccessAce_spec h hok⟩
  | addAuditAccess revision mask sid success failure =>
      exact ⟨_, rfl, addAccessAce_spec h hok⟩
  | addAce revision start src => exact rtlAddAce_spec h revision start src
  | delete index => exact ⟨_, rfl, rtlDeleteAce_spec h hok⟩

theorem wellFormed_step {s s' : AclState} {op : AclOp} (h : WellFormed s.mem s.aces)
    (hok : op.Ok s) (hst : aclStep s op = .ok s') : WellFormed s'.mem s'.aces := by
  obtain ⟨r, hcall, hdone, hrefused⟩ := op.call_spec h hok
  rw [aclStep, hcall] at hst
  cases hst
  by_cases hp : op.Possible s.mem s.aces
  · obtain ⟨hst, hwf⟩ := hdone hp
    simpa only [hst, if_true] using hwf
  · obtain ⟨hst, hmem⟩ := hrefused hp
    simpa only [if_neg hst, hmem] using h

/-- An ACL of 64 bytes without ACEs. -/
def emptyAcl : Memory := store (fun _ => 0) 0 [2, 0, 64, 0, 0, 0, 0, 0]

theorem wellFormed_emptyAcl : WellFormed emptyAcl [] where
  revision := by decide
  count := by decide
  aces := trivial
  fits := by decide

/-- The SID S-1-1-0. -/
def everyone : Memory := store (fun _ => 0) 0 [1, 1, 0, 0, 0, 0, 0, 1, 0, 0, 0, 0]

end Wine.Ntdll
