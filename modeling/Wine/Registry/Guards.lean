import Wine.Registry.LoadSpecs
import Wine.Registry.Deletion

/-!
# What the requests keep

`GuardVolatile` leaves out the requests that create a key below a volatile one without noticing, and
`GuardValues` the loads that insert a value and lose its data. Everything else that the registry
promises holds after every request.
-/

namespace Wine.Registry
open Wine.Lib

variable {cm : CaseMap} {h q : Prop} {r : Tree} {k : ℕ}

/-! ## Files -/

/-- `P` holds at each line that the loop of `load_keys` reaches, in the state it is reached in. -/
def LoadEach (cm : CaseMap) (base : ℕ) (flags : KeyFlags) (modif : ℤ)
    (P : Line → Loader → State → Prop) : ℕ → Loader → State → Prop
  | 0, _, _ => True
  | fuel + 1, ld, s => ∀ l input, readNextLine ld.input = (some l, input) →
      P l { ld with input := input } s ∧
        ∀ ld' s', loadLine cm base flags modif l { ld with input := input } s = .ok (ld', s') →
          LoadEach cm base flags modif P fuel ld' s'

/-- `P` holds at each line of a file that a load into a key reaches. -/
def FileEach (cm : CaseMap) (P : ℕ → KeyFlags → Line → Loader → State → Prop) (k : ℕ)
    (file : List Input) (prefixLen : ℤ) (s : State) : Prop :=
  ∀ key l input, s.keys k = some key → readNextLine file = (some l, input) →
    LoadEach cm k (loadFlags key) s.now (P k (loadFlags key)) input.length ⟨none, prefixLen, input⟩
      { s with allocs := s.allocs + 2 }

def StaysVolatile (cm : CaseMap) (base : ℕ) (flags : KeyFlags) (l : Line) (ld : Loader) (s : State) :
    Prop := ¬ LineBelowVolatile cm base flags l ld s

def KeepsValue (cm : CaseMap) (_ : ℕ) (_ : KeyFlags) (l : Line) (ld : Loader) (s : State) : Prop :=
  ¬ LineLosesValue cm l ld s

theorem wp_loadLoop {s : State} {base : ℕ} {flags : KeyFlags} {modif : ℤ} {fuel : ℕ} {ld : Loader}
    (hk : Keeps cm h q r s.toTree) (hkey : s.keys base ≠ none) (hdel : flags.deleted = false)
    (hf : flags.volatile = true ∨ flags.dirty = true)
    (hh : h → LoadEach cm base flags modif (StaysVolatile cm base flags) fuel ld s)
    (hq : q → LoadEach cm base flags modif (KeepsValue cm base flags) fuel ld s) :
    wp (loadLoop cm base flags modif fuel ld) (fun _ s' => Keeps cm h q r s'.toTree ∧
      s.toTree.Kept (fun _ => True) (flags.volatile = true) s'.toTree) NotEndless s := by
  induction fuel generalizing ld s with
  | zero => exact ⟨hk, .refl _ _ _⟩
  | succ fuel ih =>
    unfold loadLoop
    cases hread : readNextLine ld.input with
    | mk l input =>
      cases l with
      | none => exact ⟨hk, .refl _ _ _⟩
      | some l =>
        simp only [wp_bind]
        obtain ⟨key, hkey'⟩ := Option.ne_none_iff_exists'.mp hkey
        refine wp_mono_ok (wp_loadLine hk hkey' hdel hf (fun hp => (hh hp l input hread).1)
          fun hp => (hq hp l input hread).1) ?_
        rintro ld' s₁ hok ⟨hk₁, hkept⟩
        have hkey₁ : s₁.keys base ≠ none := by
          obtain ⟨key₁, hk₁', -⟩ := hkept.keys base key hkey'
          rw [hk₁']
          exact fun hn => (by cases hn)
        refine wp_mono (ih hk₁ hkey₁ (fun hp => (hh hp l input hread).2 ld' s₁ hok)
          fun hp => (hq hp l input hread).2 ld' s₁ hok) ?_
        rintro _ s₂ ⟨hk₂, hkept₂⟩
        exact ⟨hk₂, hkept.trans hkept₂⟩

theorem loadFlags_live (key : Key) : (loadFlags key).deleted = false := by
  unfold loadFlags
  split <;> rfl

theorem loadFlags_volatile {key : Key} (h : (loadFlags key).volatile = true) :
    key.flags.volatile = true := by
  by_contra hv
  unfold loadFlags at h
  rw [if_neg hv] at h
  cases h

theorem loadFlags_counts (key : Key) :
    (loadFlags key).volatile = true ∨ (loadFlags key).dirty = true := by
  unfold loadFlags
  split
  · exact .inl rfl
  · exact .inr rfl

/-- `wp_memAlloc` with the states after it. -/
theorem wp_memAlloc_cases {Q : Bool → State → Prop} {E : Fault → Prop} {s : State}
    (ht : Q true { s with allocs := s.allocs + 1 })
    (hf : Q false { s with allocs := s.allocs + 1, error := some .noMemory }) :
    wp memAlloc Q E s := by
  unfold memAlloc allocate
  simp only [wp_bind, wp_get, wp_set, wp_pure]
  cases s.grants s.allocs with
  | true => exact ht
  | false => exact hf

theorem wp_loadKeys {s : State} {file : List Input} {prefixLen : ℤ} (hk : Keeps cm h q r s.toTree)
    (hh : h → FileEach cm (StaysVolatile cm) k file prefixLen s)
    (hq : q → FileEach cm (KeepsValue cm) k file prefixLen s) :
    wp (loadKeys cm k file prefixLen) (fun _ s' => Keeps cm h q r s'.toTree ∧
      s.toTree.Kept (fun _ => True) (∃ key, s.keys k = some key ∧ key.flags.volatile = true) s'.toTree)
      NotEndless s := by
  have hsame : Keeps cm h q r s.toTree ∧ s.toTree.Kept (fun _ => True)
      (∃ key, s.keys k = some key ∧ key.flags.volatile = true) s.toTree := ⟨hk, .refl _ _ _⟩
  unfold loadKeys
  simp only [wp_bind, wp_get]
  refine wp_getKey fun key hkey => ?_
  refine wp_memAlloc_cases ?_ hsame
  simp only [if_true, wp_bind]
  refine wp_memAlloc_cases ?_ hsame
  simp only [if_true]
  cases hread : readNextLine file with
  | mk l input =>
    cases l with
    | none => exact hsame
    | some l =>
      simp only [wp_ite, wp_setError]
      refine ⟨fun _ => ?_, fun _ => hsame⟩
      have hne : s.keys k ≠ none := fun hn => (by cases hkey.symm.trans hn)
      refine wp_mono (wp_loadLoop (s := { s with allocs := s.allocs + 2 }) hk hne (loadFlags_live key)
        (loadFlags_counts key) (fun hp => hh hp key l input hkey hread)
        fun hp => hq hp key l input hkey hread) ?_
      rintro _ s' ⟨hk', hkept⟩
      exact ⟨hk', hkept.weaken (fun _ hy => hy) fun hv => ⟨key, hkey, loadFlags_volatile hv⟩⟩

/-! ## Handles -/

/-- The key from which a request starts. -/
def Starts (s : State) : Option ℕ → ℕ → Prop
  | none, p => p = rootKey
  | some k, p => p = k ∧ k ∈ s.handles

theorem Starts.unique {s : State} {parent : Option ℕ} {p p' : ℕ} (hp : Starts s parent p)
    (hp' : Starts s parent p') : p = p' := by
  cases parent with
  | none => exact Eq.trans hp (Eq.symm hp')
  | some k => exact hp.1.trans hp'.1.symm

theorem wp_getHkeyObj {s : State} {Q : Option ℕ → State → Prop} {E : Fault → Prop}
    (hs : k ∈ s.handles → Q (some k) s)
    (hn : k ∉ s.handles → Q none { s with error := some .invalidHandle }) :
    wp (getHkeyObj k) Q E s := by
  unfold getHkeyObj
  simp only [wp_bind, wp_get, wp_ite, wp_pure, wp_setError]
  exact ⟨hs, hn⟩

theorem wp_getParentHkeyObj {s : State} {parent : Option ℕ} {Q : Option ℕ → State → Prop}
    {E : Fault → Prop} (hs : ∀ p, Starts s parent p → Q (some p) s)
    (hn : (∀ p, ¬ Starts s parent p) → Q none { s with error := some .invalidHandle }) :
    wp (getParentHkeyObj parent) Q E s := by
  cases parent with
  | none => exact hs rootKey rfl
  | some k =>
    refine wp_getHkeyObj (fun hm => hs k ⟨rfl, hm⟩) fun hm => hn ?_
    rintro p ⟨-, hm'⟩
    exact hm hm'

theorem Starts.exists {s : State} (hi : Inv cm s.toTree) {parent : Option ℕ} {p : ℕ}
    (hp : Starts s parent p) : s.keys p ≠ none := by
  cases parent with
  | none =>
    obtain ⟨key, hkey, -⟩ := hi.wf.root
    obtain rfl : p = rootKey := hp
    rw [hkey]
    exact fun hn => (by cases hn)
  | some k =>
    obtain ⟨rfl, hm⟩ := hp
    exact hi.wf.held p (.inl hm)

theorem wp_allocHandle {s : State} (hk : Keeps cm h q r s.toTree) (hkey : s.keys k ≠ none) :
    wp (allocHandle k) (fun _ s' => Keeps cm h q r s'.toTree) NotEndless s := by
  unfold allocHandle
  simp only [wp_bind]
  refine wp_memAlloc fun b s₁ h₁ => ?_
  simp only [wp_ite, wp_pure, wp_edit, h₁.tree]
  refine ⟨fun _ => hk.trans (Tree.keeps_handles (h := h) (q := q) hk.inv fun i hi => ?_)
    (fun hp => ⟨hp, hp⟩) fun hp => ⟨hp, hp⟩, fun _ => hk⟩
  rcases List.mem_cons.mp hi with rfl | hi
  · exact hkey
  · exact hk.wf.held i (.inl hi)

/-! ## Opening -/

theorem wp_openKey_same {s : State} {path : List WChar} (hi : Inv cm s.toTree)
    (hlen : path.length < maxPathLen) (hkey : s.keys k ≠ none) :
    wp (openKey cm k path) (fun c s' => s'.toTree = s.toTree ∧ s'.grants = s.grants ∧
      ∀ k', c = some k' → s.keys k' ≠ none) NotEndless s := by
  have htoks : ∀ (toks : List (List WChar)) (i : ℕ), (∀ tok ∈ toks, tok.length < maxPathLen) →
      s.keys i ≠ none → wp (openTokens cm i toks) (fun c s' => s'.toTree = s.toTree ∧
        s'.grants = s.grants ∧ ∀ k', c = some k' → s.keys k' ≠ none) NotEndless s := by
    intro toks
    induction toks with
    | nil =>
      intro i _ hne
      simp only [openTokens, wp_pure]
      exact ⟨trivial, trivial, fun k' hk' => Option.some.inj hk' ▸ hne⟩
    | cons tok toks ih =>
      intro i hshort _
      simp only [openTokens, wp_bind]
      refine wp_getKey fun key hkey' => ?_
      simp only [wp_get]
      cases hf : findSubkey cm s.toTree key tok with
      | missing j =>
        simp only [wp_bind, wp_setError, wp_pure]
        exact ⟨trivial, trivial, fun k' hk' => (by cases hk')⟩
      | found j =>
        obtain ⟨hmem, -⟩ := hi.wf.findSubkey_found (hshort tok List.mem_cons_self) hf
        obtain ⟨ck, hck, -⟩ := hi.wf.child i key hkey' _ hmem
        refine ih _ (fun tok' ht => hshort tok' (List.mem_cons_of_mem _ ht)) ?_
        rw [hck]
        exact fun hn => (by cases hn)
  unfold openKey
  rw [wp_ite]
  refine ⟨fun _ => htoks _ k
    (fun tok ht => Nat.lt_of_le_of_lt (pathTokens_mem ht).2 hlen) hkey, fun _ => ?_⟩
  simp only [wp_bind, wp_setError, wp_pure]
  exact ⟨trivial, trivial, fun k' hk' => (by cases hk')⟩

/-! ## Saving -/

theorem wp_saveBranch {s : State} {written : Bool} (hk : Keeps cm h q r s.toTree) (hq : ¬ q) :
    wp (saveBranch k written) (fun _ s' => Keeps cm h q r s'.toTree) NotEndless s := by
  unfold saveBranch makeClean
  simp only [wp_bind]
  refine wp_getKey fun key hkey => ?_
  simp only [wp_ite, wp_pure, wp_bind, wp_get]
  refine ⟨fun _ => hk, fun _ => ⟨fun _ => ?_, fun _ => hk⟩⟩
  refine wp_mono (wp_cleanDown hk.wf (hk.wf.lt hkey) (Nat.le_add_left _ _)) ?_
  rintro _ s' ⟨hl, -, -⟩
  refine ⟨hl.wf hk.wf, hl.dirtyUp hk.dirtyUp, hk.older.trans hl.toAlike.older,
    fun hp hr => hl.toAlike.hereditary (hk.heredity hp hr), fun hp => absurd hp hq⟩

/-! ## Requests -/

def requestFlags (volatile : Bool) : KeyFlags :=
  if volatile then KeyFlags.keyVolatile else .keyDirty

/-- The path of a request relative to the key it starts from. -/
def requestPath (cm : CaseMap) (parent : Option ℕ) (name more : List WChar) : List WChar :=
  name.drop (rootSkip cm parent.isNone (name ++ more))

/-- The action creates no key below a volatile key that it met on the way. -/
def GuardVolatile (cm : CaseMap) (s : State) : Action → Prop
  | .createKey parent name className volatile _ => ∀ p, Starts s parent p →
      ¬ s.toTree.BelowVolatile cm p (requestPath cm parent name.1 className.1) (requestFlags volatile)
  | .loadRegistry privileged parent name file => privileged = true → ∀ p, Starts s parent p →
      ¬ s.toTree.BelowVolatile cm p (requestPath cm parent name.1 []) .keyDirty ∧
        ∀ input k s', file = some input →
          createKey cm p (requestPath cm parent name.1 []) [] .keyDirty s.now s = .ok (some k, s') →
            FileEach cm (StaysVolatile cm) k input (-1) s'
  | _ => True

/-- The action leaves no value without its data. -/
def GuardValues (cm : CaseMap) (s : State) : Action → Prop
  | .loadRegistry privileged parent name file => privileged = true → ∀ p, Starts s parent p →
      ∀ input k s', file = some input →
        createKey cm p (requestPath cm parent name.1 []) [] .keyDirty s.now s = .ok (some k, s') →
          FileEach cm (KeepsValue cm) k input (-1) s'
  | _ => True

def Action.IsSave : Action → Prop
  | .saveBranch _ _ => True
  | _ => False

theorem wp_reqCreateKey {s : State} {parent : Option ℕ} {name className : ReqString}
    {volatile : Bool} {modif : ℤ} (hk : Keeps cm h q r s.toTree)
    (hh : h → GuardVolatile cm s (.createKey parent name className volatile modif)) :
    wp (reqCreateKey cm parent name.1 className.1 volatile modif)
      (fun _ s' => Keeps cm h q r s'.toTree) NotEndless s := by
  have hlen : (requestPath cm parent name.1 className.1).length < maxPathLen :=
    Nat.lt_of_le_of_lt (List.drop_suffix _ _).length_le name.2
  unfold reqCreateKey
  simp only [wp_ite, wp_setError]
  refine ⟨fun _ => hk, fun _ => ?_⟩
  rw [wp_bind]
  refine wp_getParentHkeyObj (fun p hp => ?_) fun _ => hk
  rw [wp_bind]
  refine wp_mono (wp_createKey hk hlen ?_ (fun hp' => hh hp' p hp)
    fun _ => ?_) ?_
  · cases volatile <;> rfl
  · cases volatile
    · exact .inr rfl
    · exact .inl rfl
  · rintro c s₁ hc
    cases c with
    | none => exact hc.keeps
    | some k => exact wp_allocHandle hc.keeps (hc.found k rfl)

theorem wp_reqOpenKey {s : State} {parent : Option ℕ} {name : ReqString}
    (hk : Keeps cm h q r s.toTree) :
    wp (reqOpenKey cm parent name.1) (fun _ s' => Keeps cm h q r s'.toTree) NotEndless s := by
  have hlen : (name.1.drop (rootSkip cm parent.isNone name.1)).length < maxPathLen :=
    Nat.lt_of_le_of_lt (List.drop_suffix _ _).length_le name.2
  unfold reqOpenKey
  rw [wp_bind]
  refine wp_getParentHkeyObj (fun p hp => ?_) fun _ => hk
  rw [wp_bind]
  refine wp_mono (wp_openKey_same hk.inv hlen (hp.exists hk.inv)) ?_
  rintro c s₁ ⟨ht, -, hc⟩
  cases c with
  | none =>
    rw [wp_pure, ht]
    exact hk
  | some k => exact wp_allocHandle (ht ▸ hk) (ht ▸ hc k rfl)

theorem wp_reqLoadRegistry {s : State} {privileged : Bool} {parent : Option ℕ} {name : ReqString}
    {file : Option (List Input)} (hk : Keeps cm h q r s.toTree)
    (hh : h → GuardVolatile cm s (.loadRegistry privileged parent name file))
    (hq : q → GuardValues cm s (.loadRegistry privileged parent name file)) :
    wp (reqLoadRegistry cm privileged parent name.1 file) (fun _ s' => Keeps cm h q r s'.toTree)
      NotEndless s := by
  have hlen : (requestPath cm parent name.1 []).length < maxPathLen :=
    Nat.lt_of_le_of_lt (List.drop_suffix _ _).length_le name.2
  have hpath : name.1.drop (rootSkip cm parent.isNone name.1) = requestPath cm parent name.1 [] := by
    rw [requestPath, List.append_nil]
  unfold reqLoadRegistry
  simp only [wp_ite, wp_setError]
  refine ⟨fun hpriv => ?_, fun _ => hk⟩
  rw [wp_bind]
  refine wp_getParentHkeyObj (fun p hp => ?_) fun _ => hk
  simp only [wp_bind, wp_get, hpath]
  refine wp_mono_ok (wp_createKey hk hlen rfl (fun hp' => (hh hp' hpriv p hp).1)
    fun _ => .inr rfl) ?_
  rintro c s₁ hok hc
  cases c with
  | none => exact hc.keeps
  | some k =>
    cases file with
    | none => exact hc.keeps
    | some input =>
      refine wp_mono (wp_loadKeys hc.keeps (fun hp' => (hh hp' hpriv p hp).2 input k s₁ rfl hok)
        fun hp' => hq hp' hpriv p hp input k s₁ rfl hok) ?_
      rintro _ s₂ ⟨hk₂, -⟩
      exact hk₂

/-- Every action keeps the invariant, and within its guards all else. -/
theorem wp_perform {s : State} {a : Action} (hk : Keeps cm h q r s.toTree)
    (hh : h → GuardVolatile cm s a) (hq : q → GuardValues cm s a ∧ ¬ a.IsSave) :
    wp (perform cm a) (fun _ s' => Keeps cm h q r s'.toTree) NotEndless s := by
  cases a with
  | clock now => exact hk
  | createKey parent name className volatile modif => exact wp_reqCreateKey hk hh
  | openKey parent name => exact wp_reqOpenKey hk
  | closeHandle hkey => exact wp_closeHandle hk
  | deleteKey hkey =>
    simp only [perform, reqDeleteKey, wp_bind]
    refine wp_getHkeyObj (fun hm => ?_) fun _ => hk
    obtain ⟨key, hkey'⟩ := Option.ne_none_iff_exists'.mp (hk.wf.held hkey (.inl hm))
    simp only [wp_bind, wp_pure]
    exact wp_deleteKey hk hkey'
  | setValue hkey name type data =>
    simp only [perform, reqSetValue, wp_bind]
    exact wp_getHkeyObj (fun _ => wp_setValue hk) fun _ => hk
  | deleteValue hkey name =>
    simp only [perform, reqDeleteValue, wp_bind]
    exact wp_getHkeyObj (fun _ => wp_deleteValue hk) fun _ => hk
  | loadRegistry privileged parent name file =>
    exact wp_reqLoadRegistry hk hh fun hp => (hq hp).1
  | unloadRegistry privileged hkey =>
    simp only [perform, reqUnloadRegistry, wp_ite, wp_bind, wp_setError]
    refine ⟨fun _ => wp_getHkeyObj (fun hm => ?_) fun _ => hk, fun _ => hk⟩
    obtain ⟨key, hkey'⟩ := Option.ne_none_iff_exists'.mp (hk.wf.held hkey (.inl hm))
    simp only [wp_bind, wp_pure]
    exact wp_deleteKey hk hkey'
  | saveBranch i written =>
    simp only [perform, wp_bind, wp_get]
    cases s.branches[i]? with
    | none => exact hk
    | some k =>
      simp only [wp_bind, wp_pure]
      exact wp_saveBranch hk fun hp => (hq hp).2 trivial

end Wine.Registry
