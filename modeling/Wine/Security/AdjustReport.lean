import Wine.Security.Privileges

/-!
# What the reply to an adjustment reports

The entries written against the entries announced, and the flags after the returned list is
applied again.
-/

namespace Wine.Security

/-! ## The number of entries written -/

def holdCount (privileges : List HeldPrivilege) (luid : Luid) : ℕ :=
  privileges.countP (·.luid = luid)

/-- The removals of a LUID among the entries already read. -/
def removalCount (before : List LuidAndAttributes) (luid : Luid) : ℕ :=
  before.countP fun req => req.removes && req.luid = luid

/-- The entries that are no removal and whose LUID the removals before them have left. -/
def keptCount (privileges : List HeldPrivilege) (before : List LuidAndAttributes) :
    List LuidAndAttributes → ℕ
  | [] => 0
  | req :: reqs =>
    (if req.removes = false ∧ removalCount before req.luid < holdCount privileges req.luid
      then 1 else 0) + keptCount privileges (before ++ [req]) reqs

theorem findPrivilege_eq_none {ps : List HeldPrivilege} {luid : Luid} :
    findPrivilege ps luid = none ↔ holdCount ps luid = 0 := by
  simp [findPrivilege, holdCount, List.find?_eq_none, List.countP_eq_zero]

theorem holdCount_setEnabled (luid other : Luid) (on : Bool) (ps : List HeldPrivilege) :
    holdCount (setEnabled luid on ps) other = holdCount ps other := by
  induction ps with
  | nil => rfl
  | cons p ps ih =>
    unfold holdCount at ih ⊢
    by_cases h : p.luid = luid
    · rw [setEnabled, if_pos h, List.countP_cons, List.countP_cons]
    · rw [setEnabled, if_neg h, List.countP_cons, List.countP_cons, ih]

theorem holdCount_privilegeRemove (luid other : Luid) (ps : List HeldPrivilege) :
    holdCount (privilegeRemove ps luid) other =
      holdCount ps other - if luid = other then 1 else 0 := by
  induction ps with
  | nil => simp [holdCount, privilegeRemove]
  | cons p ps ih =>
    unfold holdCount privilegeRemove at ih ⊢
    by_cases h : p.luid = luid
    · subst h
      rw [List.eraseP_cons_of_pos (by simp), List.countP_cons]
      by_cases ho : p.luid = other <;> simp [ho]
    · rw [List.eraseP_cons_of_neg (by simpa using h), List.countP_cons, List.countP_cons, ih]
      by_cases ho : luid = other
      · have hpo : p.luid ≠ other := fun he => h (he.trans ho.symm)
        simp [ho, hpo]
      · simp [ho]

theorem removalCount_snoc (before : List LuidAndAttributes) (req : LuidAndAttributes)
    (luid : Luid) :
    removalCount (before ++ [req]) luid =
      removalCount before luid + if req.removes && req.luid = luid then 1 else 0 := by
  simp only [removalCount, List.countP_append, List.countP_cons, List.countP_nil, Nat.zero_add]

/-- The list of privileges after the entries `before`, as far as counting goes. -/
def Left (privileges : List HeldPrivilege) (before : List LuidAndAttributes)
    (now : List HeldPrivilege) : Prop :=
  ∀ luid, holdCount now luid = holdCount privileges luid - removalCount before luid

theorem Left.init (privileges : List HeldPrivilege) : Left privileges [] privileges := by
  intro luid
  rfl

theorem Left.keep {privileges now now' : List HeldPrivilege} {before : List LuidAndAttributes}
    {req : LuidAndAttributes} (h : Left privileges before now) (hr : req.removes = false)
    (hnow : ∀ luid, holdCount now' luid = holdCount now luid) :
    Left privileges (before ++ [req]) now' := by
  intro luid
  rw [hnow, h luid, removalCount_snoc, hr]
  simp

theorem Left.miss {privileges now : List HeldPrivilege} {before : List LuidAndAttributes}
    {req : LuidAndAttributes} (h : Left privileges before now)
    (hnone : holdCount now req.luid = 0) : Left privileges (before ++ [req]) now := by
  intro luid
  rw [h luid, removalCount_snoc]
  by_cases hreq : (req.removes && decide (req.luid = luid)) = true
  · have hl : req.luid = luid := by
      rw [Bool.and_eq_true, decide_eq_true_eq] at hreq
      exact hreq.2
    have := h luid
    rw [← hl] at this ⊢
    omega
  · simp [hreq]

theorem Left.remove {privileges now : List HeldPrivilege} {before : List LuidAndAttributes}
    {req : LuidAndAttributes} (h : Left privileges before now) (hr : req.removes = true) :
    Left privileges (before ++ [req]) (privilegeRemove now req.luid) := by
  intro luid
  rw [holdCount_privilegeRemove, h luid, removalCount_snoc, hr]
  by_cases hl : req.luid = luid <;> simp [hl, Nat.sub_sub]

/-- One turn of the adjusting pass: an entry is written when its LUID is held, it is no removal
and room is left. -/
theorem adjustPrivilege_spec {granted : Bool} {privileges : List HeldPrivilege}
    {before : List LuidAndAttributes} {s : Adjusting} {req : LuidAndAttributes}
    (hg : granted = true ∨ s.modPrivsCount = 0)
    (h : Left privileges before s.privileges) :
    ∃ s', adjustPrivilege granted s req = some s' ∧
      Left privileges (before ++ [req]) s'.privileges ∧
      ∃ n, n = min s.modPrivsCount (if req.removes = false ∧
          removalCount before req.luid < holdCount privileges req.luid then 1 else 0) ∧
        s'.modPrivs.length = s.modPrivs.length + n ∧
        s'.modPrivsCount = s.modPrivsCount - n := by
  have hcount := h req.luid
  unfold adjustPrivilege
  cases hf : findPrivilege s.privileges req.luid with
  | none =>
    have hz := findPrivilege_eq_none.1 hf
    have hle : ¬ removalCount before req.luid < holdCount privileges req.luid := by omega
    exact ⟨_, rfl, h.miss hz, 0, by simp [hle], rfl, rfl⟩
  | some p =>
    have hz : holdCount s.privileges req.luid ≠ 0 := by
      intro h0
      rw [findPrivilege_eq_none.2 h0] at hf
      cases hf
    have hlt : removalCount before req.luid < holdCount privileges req.luid := by omega
    cases hr : req.removes with
    | true => exact ⟨_, rfl, h.remove hr, 0, by simp, rfl, rfl⟩
    | false =>
      have hleft : Left privileges (before ++ [req])
          (setEnabled req.luid req.enables s.privileges) :=
        h.keep hr fun luid => holdCount_setEnabled _ _ _ _
      by_cases hm : s.modPrivsCount = 0
      · simp only [Bool.false_eq_true, if_false, savePrevious, if_pos hm, Option.map_some]
        exact ⟨_, rfl, hleft, 0, by simp [hm], rfl, rfl⟩
      · have hgr : granted = true := hg.resolve_right hm
        simp only [Bool.false_eq_true, if_false, savePrevious, if_neg hm, hgr, if_true,
          Option.map_some]
        refine ⟨_, rfl, hleft, 1, ?_, by simp, rfl⟩
        rw [if_pos ⟨trivial, hlt⟩]
        omega

theorem tokenAdjustPrivileges_spec {granted : Bool} {privileges : List HeldPrivilege}
    (reqs : List LuidAndAttributes) {before : List LuidAndAttributes} {s : Adjusting}
    (hg : granted = true ∨ s.modPrivsCount = 0)
    (h : Left privileges before s.privileges) :
    ∃ s', tokenAdjustPrivileges granted s reqs = some s' ∧
      s'.modPrivs.length =
        s.modPrivs.length + min s.modPrivsCount (keptCount privileges before reqs) := by
  induction reqs generalizing before s with
  | nil => exact ⟨s, rfl, by simp [keptCount]⟩
  | cons req reqs ih =>
    obtain ⟨s₁, hs₁, hleft, n, hn, hlen, hroom⟩ := @adjustPrivilege_spec _ _ _ _ req hg h
    have hg₁ : granted = true ∨ s₁.modPrivsCount = 0 := by
      apply hg.imp_right
      intro h0
      omega
    obtain ⟨s', hs', hlen'⟩ := ih hg₁ hleft
    refine ⟨s', ?_, ?_⟩
    · rw [tokenAdjustPrivileges, hs₁]
      exact hs'
    · rw [hlen', hlen, hroom, keptCount]
      generalize (if req.removes = false ∧
        removalCount before req.luid < holdCount privileges req.luid then 1 else 0) = k at hn ⊢
      omega

/-- Without the reply buffer nothing is written. -/
theorem tokenAdjustPrivileges_denied (reqs : List LuidAndAttributes) {s s' : Adjusting}
    (h : tokenAdjustPrivileges false s reqs = some s') : s'.modPrivs = s.modPrivs := by
  induction reqs generalizing s with
  | nil =>
    cases h
    rfl
  | cons req reqs ih =>
    obtain ⟨s₁, h₁, hs'⟩ := Option.bind_eq_some_iff.1 h
    rw [ih hs']
    unfold adjustPrivilege at h₁
    cases hf : findPrivilege s.privileges req.luid with
    | none =>
      rw [hf] at h₁
      cases h₁
      rfl
    | some p =>
      rw [hf] at h₁
      cases hr : req.removes with
      | true =>
        rw [hr] at h₁
        cases h₁
        rfl
      | false =>
        rw [hr] at h₁
        by_cases hm : s.modPrivsCount = 0
        · simp only [Bool.false_eq_true, if_false, savePrevious, if_pos hm,
            Option.map_some] at h₁
          cases h₁
          rfl
        · simp [savePrevious, hm] at h₁

/-! ## The flags after the returned list is applied again -/

/-- The flags that the entries naming a LUID set, in their order. -/
def flagsFor (luid : Luid) (reqs : List LuidAndAttributes) : List Bool :=
  (reqs.filter (·.luid = luid)).map (·.enables)

/-- The pass over entries that are no removals, as far as the flags go. -/
def setAll : List LuidAndAttributes → List HeldPrivilege → List HeldPrivilege
  | [], ps => ps
  | req :: reqs, ps => setAll reqs (setEnabled req.luid req.enables ps)

/-- The previous states of the entries that name a held LUID. -/
def previousStates : List HeldPrivilege → List LuidAndAttributes → List LuidAndAttributes
  | _, [] => []
  | ps, req :: reqs =>
    ((findPrivilege ps req.luid).map luidAndAttrFromPrivilege).toList ++
      previousStates (setEnabled req.luid req.enables ps) reqs

def heldEntries (ps : List HeldPrivilege) (reqs : List LuidAndAttributes) :
    List LuidAndAttributes :=
  reqs.filter fun req => (findPrivilege ps req.luid).isSome

theorem flagsFor_cons (luid : Luid) (req : LuidAndAttributes) (reqs : List LuidAndAttributes) :
    flagsFor luid (req :: reqs) =
      if req.luid = luid then req.enables :: flagsFor luid reqs else flagsFor luid reqs := by
  by_cases h : req.luid = luid <;> simp [flagsFor, h]

theorem heldEntries_setEnabled (luid : Luid) (on : Bool) (ps : List HeldPrivilege)
    (reqs : List LuidAndAttributes) :
    heldEntries (setEnabled luid on ps) reqs = heldEntries ps reqs := by
  simp only [heldEntries, isSome_findPrivilege_setEnabled]

theorem setAll_append (reqs reqs' : List LuidAndAttributes) (ps : List HeldPrivilege) :
    setAll (reqs ++ reqs') ps = setAll reqs' (setAll reqs ps) := by
  induction reqs generalizing ps with
  | nil => rfl
  | cons req reqs ih => exact ih _

theorem setAll_nil (reqs : List LuidAndAttributes) : setAll reqs [] = [] := by
  induction reqs with
  | nil => rfl
  | cons req reqs ih => exact ih

/-- Each privilege of the list keeps the last flag set for it. -/
theorem setAll_cons (reqs : List LuidAndAttributes) (p : HeldPrivilege)
    (ps : List HeldPrivilege) :
    setAll reqs (p :: ps) =
      { p with enabled := (flagsFor p.luid reqs).getLastD p.enabled } ::
        setAll (reqs.filter (·.luid ≠ p.luid)) ps := by
  induction reqs generalizing p ps with
  | nil => rfl
  | cons req reqs ih =>
    by_cases h : p.luid = req.luid
    · rw [setAll, setEnabled, if_pos h, ih, flagsFor_cons, if_pos h.symm,
        List.filter_cons_of_neg (by simpa using h.symm), List.getLastD_cons]
    · have hne : req.luid ≠ p.luid := fun he => h he.symm
      rw [setAll, setEnabled, if_neg h, ih, flagsFor_cons, if_neg hne,
        List.filter_cons_of_pos (by simpa using hne), setAll]

theorem flagsFor_filter_ne {luid other : Luid} (h : luid ≠ other)
    (reqs : List LuidAndAttributes) :
    flagsFor luid (reqs.filter (·.luid ≠ other)) = flagsFor luid reqs := by
  induction reqs with
  | nil => rfl
  | cons req reqs ih =>
    by_cases ho : req.luid = other
    · have hne : req.luid ≠ luid := fun he => h (he.symm.trans ho)
      rw [List.filter_cons_of_neg (by simpa using ho), flagsFor_cons, if_neg hne, ih]
    · rw [List.filter_cons_of_pos (by simpa using ho), flagsFor_cons, flagsFor_cons, ih]

theorem flagsFor_filter_self (luid : Luid) (reqs : List LuidAndAttributes) :
    flagsFor luid (reqs.filter (·.luid ≠ luid)) = [] := by
  simp [flagsFor, List.filter_filter]

/-- The list is as before exactly when the last flag set for each privilege is the one it
had. -/
theorem setAll_eq_iff (reqs : List LuidAndAttributes) (ps : List HeldPrivilege) :
    setAll reqs ps = ps ↔ ∀ luid p, findPrivilege ps luid = some p →
      (flagsFor luid reqs).getLastD p.enabled = p.enabled := by
  induction ps generalizing reqs with
  | nil => simp [setAll_nil, findPrivilege_nil]
  | cons q qs ih =>
    rw [setAll_cons, List.cons.injEq, ih]
    have hhead : ({ q with enabled := (flagsFor q.luid reqs).getLastD q.enabled } :
        HeldPrivilege) = q ↔ (flagsFor q.luid reqs).getLastD q.enabled = q.enabled :=
      ⟨fun h => congrArg (fun r : HeldPrivilege => r.enabled) h, fun h => by rw [h]⟩
    rw [hhead]
    constructor
    · rintro ⟨hq, hqs⟩ luid p hp
      rw [findPrivilege_cons] at hp
      by_cases hl : q.luid = luid
      · rw [if_pos hl] at hp
        cases hp
        rw [← hl]
        exact hq
      · rw [if_neg hl] at hp
        rw [← flagsFor_filter_ne (fun he => hl he.symm)]
        exact hqs luid p hp
    · intro h
      constructor
      · apply h q.luid q
        rw [findPrivilege_cons, if_pos rfl]
      · intro luid p hp
        by_cases hl : luid = q.luid
        · rw [hl, flagsFor_filter_self]
          rfl
        · rw [flagsFor_filter_ne hl]
          apply h luid p
          rw [findPrivilege_cons, if_neg (fun he => hl he.symm)]
          exact hp

/-- What is saved for a privilege are its own flag and the flags the request sets after it, the
last one left out. -/
theorem flagsFor_previousStates {luid : Luid} (reqs : List LuidAndAttributes) (n : ℕ)
    {ps : List HeldPrivilege} {p : HeldPrivilege} (hp : findPrivilege ps luid = some p) :
    flagsFor luid ((previousStates ps reqs).take n) =
      (p.enabled :: flagsFor luid ((heldEntries ps reqs).take n)).dropLast := by
  induction reqs generalizing n ps p with
  | nil => simp [previousStates, heldEntries, flagsFor]
  | cons req reqs ih =>
    rw [previousStates]
    cases hf : findPrivilege ps req.luid with
    | none =>
      have hheld : heldEntries ps (req :: reqs) = heldEntries ps reqs := by
        simp [heldEntries, hf]
      rw [setEnabled_of_none _ hf, hheld]
      exact ih n hp
    | some q =>
      have hheld : heldEntries ps (req :: reqs) = req :: heldEntries ps reqs := by
        simp [heldEntries, hf]
      rw [hheld]
      cases n with
      | zero => simp [flagsFor]
      | succ n =>
        rw [List.take_succ_cons, flagsFor_cons, Option.map_some, Option.toList_some,
          List.singleton_append, List.take_succ_cons, flagsFor_cons,
          luid_luidAndAttrFromPrivilege, findPrivilege_luid hf,
          enables_luidAndAttrFromPrivilege]
        by_cases hl : req.luid = luid
        · subst hl
          cases hp.symm.trans hf
          rw [if_pos rfl, if_pos rfl, ih n (findPrivilege_setEnabled_self _ hp),
            heldEntries_setEnabled, List.dropLast_cons_cons]
        · have hp' : findPrivilege (setEnabled req.luid req.enables ps) luid = some p := by
            rw [findPrivilege_setEnabled_of_ne hl]
            exact hp
          rw [if_neg hl, if_neg hl, ih n hp', heldEntries_setEnabled]

/-- Without removals the pass sets the flags in their order, and writes the previous states as
far as the room goes. -/
theorem tokenAdjustPrivileges_of_keep {granted : Bool} (reqs : List LuidAndAttributes)
    {s : Adjusting} (hg : granted = true ∨ s.modPrivsCount = 0)
    (hkeep : ∀ req ∈ reqs, req.removes = false) :
    ∃ s', tokenAdjustPrivileges granted s reqs = some s' ∧
      s'.privileges = setAll reqs s.privileges ∧
      s'.modPrivs = s.modPrivs ++ (previousStates s.privileges reqs).take s.modPrivsCount := by
  induction reqs generalizing s with
  | nil => exact ⟨s, rfl, rfl, by simp [previousStates]⟩
  | cons req reqs ih =>
    have hr := hkeep req (List.mem_cons_self ..)
    have hrest : ∀ req ∈ reqs, req.removes = false :=
      fun r h => hkeep r (List.mem_cons_of_mem _ h)
    rw [tokenAdjustPrivileges]
    unfold adjustPrivilege
    cases hf : findPrivilege s.privileges req.luid with
    | none =>
      obtain ⟨s', hs', hp, hm⟩ := ih (s := { s with notAllAssigned := true }) hg hrest
      refine ⟨s', hs', ?_, ?_⟩
      · rw [hp, setAll, setEnabled_of_none _ hf]
      · rw [hm, previousStates, hf, setEnabled_of_none _ hf]
        rfl
    | some p =>
      by_cases hz : s.modPrivsCount = 0
      · obtain ⟨s', hs', hp, hm⟩ := ih (s := { s with
          privileges := setEnabled req.luid req.enables s.privileges }) hg hrest
        refine ⟨s', ?_, hp, ?_⟩
        · simpa [hr, savePrevious, hz] using hs'
        · rw [hm]
          simp [hz]
      · have hgr := hg.resolve_right hz
        obtain ⟨s', hs', hp, hm⟩ := ih (s := { s with
          privileges := setEnabled req.luid req.enables s.privileges
          modPrivs := s.modPrivs ++ [luidAndAttrFromPrivilege p]
          modPrivsCount := s.modPrivsCount - 1 }) (Or.inl hgr) hrest
        refine ⟨s', ?_, hp, ?_⟩
        · simpa [hr, savePrevious, hz, hgr] using hs'
        · obtain ⟨n, hn⟩ := Nat.exists_eq_succ_of_ne_zero hz
          rw [hm, previousStates, hf, hn, List.append_assoc]
          rfl

theorem removes_of_mem_previousStates {req : LuidAndAttributes} (reqs : List LuidAndAttributes)
    {ps : List HeldPrivilege} (h : req ∈ previousStates ps reqs) : req.removes = false := by
  induction reqs generalizing ps with
  | nil => cases h
  | cons r reqs ih =>
    rw [previousStates, List.mem_append] at h
    cases h with
    | inl h =>
      rw [Option.mem_toList, Option.map_eq_some_iff] at h
      obtain ⟨p, -, rfl⟩ := h
      exact removes_luidAndAttrFromPrivilege p
    | inr h => exact ih h

/-- The list applied again, in a request that asks for no report. -/
theorem adjust_again {ps : List HeldPrivilege} {reqs : List LuidAndAttributes}
    (hkeep : ∀ req ∈ reqs, req.removes = false) :
    ∃ again, adjustTokenPrivileges false false 0 true ps reqs = some again ∧
      again.privileges = setAll reqs ps := by
  obtain ⟨s', hs', hp, -⟩ := @tokenAdjustPrivileges_of_keep true reqs
    ⟨ps, [], 0, false⟩ (Or.inl rfl) hkeep
  refine ⟨⟨0, s'.modPrivs, s'.privileges, s'.notAllAssigned⟩, ?_, hp⟩
  simp [adjustTokenPrivileges, hs']

/-- Where nothing is saved for a privilege, the flags set for it end in the one it had; where
more than one state is saved, the last but one of the flags saved over is the one it had. -/
def Restores (count : ℕ) (ps : List HeldPrivilege) (reqs : List LuidAndAttributes) : Prop :=
  ∀ luid p, findPrivilege ps luid = some p →
    (flagsFor luid ((heldEntries ps reqs).take count) = [] →
      (flagsFor luid reqs).getLastD p.enabled = p.enabled) ∧
    (flagsFor luid ((heldEntries ps reqs).take count) ≠ [] →
      (flagsFor luid ((heldEntries ps reqs).take count)).dropLast.getLastD p.enabled =
        p.enabled)

theorem restores_iff (count : ℕ) (ps : List HeldPrivilege) (reqs : List LuidAndAttributes) :
    setAll ((previousStates ps reqs).take count) (setAll reqs ps) = ps ↔
      Restores count ps reqs := by
  rw [← setAll_append, setAll_eq_iff]
  apply forall_congr'
  intro luid
  apply forall_congr'
  intro p
  apply imp_congr_right
  intro hp
  have hsplit : flagsFor luid (reqs ++ (previousStates ps reqs).take count) =
      flagsFor luid reqs ++
        (p.enabled :: flagsFor luid ((heldEntries ps reqs).take count)).dropLast := by
    rw [← flagsFor_previousStates reqs count hp]
    simp [flagsFor]
  rw [hsplit]
  generalize flagsFor luid ((heldEntries ps reqs).take count) = saved
  cases saved with
  | nil => simp
  | cons b saved =>
    rw [List.dropLast_cons_cons]
    have hlast : (flagsFor luid reqs ++ p.enabled :: (b :: saved).dropLast).getLastD p.enabled =
        (b :: saved).dropLast.getLastD p.enabled := by
      generalize (b :: saved).dropLast = l
      cases l <;> simp [List.getLastD_eq_getLast?, List.getLast?_cons]
    rw [hlast]
    simp

/-- The reply announces as many entries as it holds, and its list undoes a request that removes
nothing. -/
def ReportsAdjustment (disableAll : Bool) (replyMax : ℕ) (granted : Bool)
    (ps : List HeldPrivilege) (reqs : List LuidAndAttributes) : Prop :=
  ∃ reply, adjustTokenPrivileges disableAll true replyMax granted ps reqs = some reply ∧
    reply.len = reply.modPrivs.length * luidAndAttributesSize ∧
    ((∀ req ∈ reqs, req.removes = false) →
      ∃ again, adjustTokenPrivileges false false 0 true reply.privileges reply.modPrivs =
        some again ∧ again.privileges = ps)

def Reportable (disableAll : Bool) (replyMax : ℕ) (granted : Bool)
    (ps : List HeldPrivilege) (reqs : List LuidAndAttributes) : Prop :=
  if disableAll then
    (∀ req ∈ reqs, req.removes = false) → ∀ p ∈ ps, p.enabled = false
  else
    (announced replyMax ps reqs = 0 ∨ granted = true) ∧
    announced replyMax ps reqs ≤ keptCount ps [] reqs ∧
    ((∀ req ∈ reqs, req.removes = false) → Restores (announced replyMax ps reqs) ps reqs)

theorem tokenDisablePrivileges_eq_iff (ps : List HeldPrivilege) :
    tokenDisablePrivileges ps = ps ↔ ∀ p ∈ ps, p.enabled = false := by
  induction ps with
  | nil => simp [tokenDisablePrivileges]
  | cons p ps ih =>
    unfold tokenDisablePrivileges at ih ⊢
    rw [List.map_cons, List.cons.injEq, ih, List.forall_mem_cons]
    apply and_congr_left'
    constructor
    · intro h
      exact (congrArg (fun r : HeldPrivilege => r.enabled) h).symm
    · intro h
      rw [← h]

theorem reports_disableAll (replyMax : ℕ) (granted : Bool) (ps : List HeldPrivilege)
    (reqs : List LuidAndAttributes) :
    ReportsAdjustment true replyMax granted ps reqs ↔
      ((∀ req ∈ reqs, req.removes = false) → ∀ p ∈ ps, p.enabled = false) := by
  have hreply : adjustTokenPrivileges true true replyMax granted ps reqs =
      some ⟨0, [], tokenDisablePrivileges ps, false⟩ := by
    simp [adjustTokenPrivileges]
  constructor
  · rintro ⟨reply, h, -, hundo⟩ hkeep
    rw [hreply] at h
    cases h
    obtain ⟨again, h, hps⟩ := hundo hkeep
    cases h
    exact (tokenDisablePrivileges_eq_iff ps).1 hps
  · intro h
    refine ⟨_, hreply, rfl, fun hkeep => ⟨_, rfl, ?_⟩⟩
    exact (tokenDisablePrivileges_eq_iff ps).2 (h hkeep)

theorem reports_adjust (replyMax : ℕ) (granted : Bool) (ps : List HeldPrivilege)
    (reqs : List LuidAndAttributes)
    (hg : granted = true ∨ announced replyMax ps reqs = 0) :
    ReportsAdjustment false replyMax granted ps reqs ↔
      announced replyMax ps reqs ≤ keptCount ps [] reqs ∧
      ((∀ req ∈ reqs, req.removes = false) → Restores (announced replyMax ps reqs) ps reqs) := by
  generalize hn : announced replyMax ps reqs = n at hg ⊢
  obtain ⟨s', hs', hlen⟩ := tokenAdjustPrivileges_spec reqs
    (s := ⟨ps, [], n, false⟩) hg (Left.init ps)
  have hreply : adjustTokenPrivileges false true replyMax granted ps reqs =
      some ⟨n * luidAndAttributesSize, s'.modPrivs, s'.privileges, s'.notAllAssigned⟩ := by
    simp [adjustTokenPrivileges, hn, hs']
  have hcount : n * luidAndAttributesSize = s'.modPrivs.length * luidAndAttributesSize ↔
      n ≤ keptCount ps [] reqs := by
    rw [hlen]
    simp only [List.length_nil, luidAndAttributesSize]
    omega
  have hundo (hkeep : ∀ req ∈ reqs, req.removes = false) :
      (∃ again, adjustTokenPrivileges false false 0 true s'.privileges s'.modPrivs =
        some again ∧ again.privileges = ps) ↔ Restores n ps reqs := by
    obtain ⟨s₁, hs₁, hp, hm⟩ := tokenAdjustPrivileges_of_keep reqs
      (s := ⟨ps, [], n, false⟩) hg hkeep
    cases hs'.symm.trans hs₁
    rw [List.nil_append] at hm
    have hmod : ∀ req ∈ s'.modPrivs, req.removes = false := by
      intro req hreq
      rw [hm] at hreq
      exact removes_of_mem_previousStates reqs (List.mem_of_mem_take hreq)
    obtain ⟨again, hagain, hps⟩ := @adjust_again s'.privileges _ hmod
    rw [hp, hm] at hps
    rw [← restores_iff, ← hps]
    constructor
    · rintro ⟨again', h, heq⟩
      cases hagain.symm.trans h
      exact hps ▸ heq
    · intro h
      exact ⟨again, hagain, hps ▸ h⟩
  constructor
  · rintro ⟨reply, h, hl, hu⟩
    cases hreply.symm.trans h
    exact ⟨hcount.1 hl, fun hkeep => (hundo hkeep).1 (hu hkeep)⟩
  · rintro ⟨hl, hu⟩
    exact ⟨_, hreply, hcount.2 hl, fun hkeep => (hundo hkeep).2 (hu hkeep)⟩

theorem not_reports_denied (replyMax : ℕ) (ps : List HeldPrivilege)
    (reqs : List LuidAndAttributes) (hn : announced replyMax ps reqs ≠ 0) :
    ¬ ReportsAdjustment false replyMax false ps reqs := by
  rintro ⟨reply, h, hlen, -⟩
  simp only [adjustTokenPrivileges, Bool.not_false, Bool.and_self, if_true,
    Bool.false_eq_true, if_false, Option.map_eq_some_iff] at h
  obtain ⟨s', hs', rfl⟩ := h
  rw [tokenAdjustPrivileges_denied reqs hs'] at hlen
  simp only [List.length_nil, luidAndAttributesSize] at hlen
  omega

/-- The reply to an adjustment is a true report exactly when no more entries are announced than
the removals leave, and the flags saved over end where they started. -/
theorem reportsAdjustment_iff (disableAll : Bool) (replyMax : ℕ) (granted : Bool)
    (ps : List HeldPrivilege) (reqs : List LuidAndAttributes) :
    ReportsAdjustment disableAll replyMax granted ps reqs ↔
      Reportable disableAll replyMax granted ps reqs := by
  cases disableAll with
  | true => exact reports_disableAll replyMax granted ps reqs
  | false =>
    simp only [Reportable, Bool.false_eq_true, if_false]
    by_cases hg : granted = true ∨ announced replyMax ps reqs = 0
    · rw [reports_adjust replyMax granted ps reqs hg]
      exact ⟨fun h => ⟨hg.symm, h⟩, fun h => h.2⟩
    · rw [not_or, Bool.not_eq_true] at hg
      obtain ⟨rfl, hn⟩ := hg
      constructor
      · intro h
        exact absurd h (not_reports_denied replyMax ps reqs hn)
      · rintro ⟨h | h, -⟩
        · exact absurd h hn
        · cases h

/-- A token that holds one privilege, and a request that removes it. -/
theorem not_reports_removal : ¬ ReportsAdjustment false 12 true
    [⟨⟨seSecurityPrivilege, false⟩, false⟩] [⟨seSecurityPrivilege, sePrivilegeRemove⟩] := by
  rintro ⟨reply, h, hlen, -⟩
  cases h
  revert hlen
  decide

end Wine.Security
