import Wine.Registry.SortedMap
import Wine.Registry.LastWrite

/-!
# Creating keys and failing

When a call of `create_key` that returns no key leaves the tree below the root as it was. The
allocations of a call are counted from the state it starts in: an array of subkeys that is full, an
object and its name for each new key.
-/

namespace Wine.Registry
open Wine.Lib

variable {cm : CaseMap} {flags : KeyFlags} {modif : ℤ}

/-! ## The allocations of one key -/

/-- The allocations of `alloc_subkey`. -/
def allocsFor (key : Key) : ℕ := if key.lastSubkey + 1 = key.nbSubkeys then 3 else 2

/-- The next `count` allocations from the `start`-th on succeed. -/
def State.GrantsFrom (s : State) (start count : ℕ) : Prop :=
  ∀ i < count, s.grants (start + i) = true

/-- `alloc_subkey` can make a subkey with the name. -/
def Makes (s : State) (key : Key) (name : List WChar) : Prop :=
  name.length ≤ maxNameLen ∧ s.GrantsFrom s.allocs (allocsFor key)

theorem State.GrantsFrom.congr {s s' : State} {start count : ℕ} (hg : s'.grants = s.grants) :
    s'.GrantsFrom start count ↔ s.GrantsFrom start count := by
  unfold GrantsFrom
  rw [hg]

theorem grantsFrom_add (s : State) (start m n : ℕ) :
    s.GrantsFrom start (m + n) ↔ s.GrantsFrom start m ∧ s.GrantsFrom (start + m) n := by
  constructor
  · intro h
    refine ⟨fun i hi => h i (by omega), fun i hi => ?_⟩
    rw [Nat.add_assoc]
    exact h (m + i) (by omega)
  · rintro ⟨h1, h2⟩ i hi
    by_cases hlt : i < m
    · exact h1 i hlt
    · have := h2 (i - m) (by omega)
      rwa [Nat.add_assoc, Nat.add_sub_cancel' (by omega)] at this

theorem grantsFrom_one (s : State) (start : ℕ) :
    s.GrantsFrom start 1 ↔ s.grants start = true := by
  constructor
  · intro h
    exact h 0 (by omega)
  · intro h i hi
    rw [Nat.lt_one_iff.1 hi]
    exact h

theorem grantsFrom_succ (s : State) (start n : ℕ) :
    s.GrantsFrom start (n + 1) ↔ s.grants start = true ∧ s.GrantsFrom (start + 1) n := by
  rw [Nat.add_comm, grantsFrom_add, grantsFrom_one]

/-- What an allocation takes. -/
structure Takes (s : State) (b : Bool) (s' : State) : Prop where
  outcome : b = s.grants s.allocs
  grants : s'.grants = s.grants
  allocs : s'.allocs = s.allocs + 1

theorem wp_memAlloc_takes {Q : Bool → State → Prop} {E : Fault → Prop} {s : State}
    (h : ∀ b s', Takes s b s' → Q b s') : wp memAlloc Q E s := by
  unfold memAlloc allocate
  simp only [wp_bind, wp_get, wp_set, wp_pure]
  cases hb : s.grants s.allocs with
  | true => exact h true _ ⟨hb.symm, rfl, rfl⟩
  | false => exact h false _ ⟨hb.symm, rfl, rfl⟩

/-- `alloc_key` takes two allocations, if the first succeeds. -/
theorem wp_allocKey_takes {E : Fault → Prop} {s : State} {name : List WChar} (hn : name ≠ []) :
    wp (allocKey name modif) (fun c s' => s'.grants = s.grants ∧
      (c.isSome = true ↔ s.GrantsFrom s.allocs 2) ∧
        (c.isSome = true → s'.allocs = s.allocs + 2)) E s := by
  unfold allocKey
  simp only [wp_bind]
  refine wp_memAlloc_takes fun b s₁ h₁ => ?_
  rw [grantsFrom_succ, grantsFrom_one, ← h₁.outcome]
  cases b with
  | false => exact ⟨h₁.grants, by simp, by simp⟩
  | true =>
    rw [if_pos rfl]
    cases name with
    | nil => exact absurd rfl hn
    | cons w name =>
      simp only [memdup, wp_bind]
      refine wp_memAlloc_takes fun b s₂ h₂ => ?_
      have hb : b = s.grants (s.allocs + 1) := by rw [h₂.outcome, h₁.grants, h₁.allocs]
      rw [← hb]
      cases b with
      | false => exact ⟨h₂.grants.trans h₁.grants, by simp, by simp⟩
      | true =>
        refine ⟨h₂.grants.trans h₁.grants, by simp, fun _ => ?_⟩
        show s₂.allocs = _
        rw [h₂.allocs, h₁.allocs]

theorem wp_linkSubkey_takes {E : Fault → Prop} {s : State} {p index : ℕ} {name : List WChar}
    (hn : name ≠ []) :
    wp (linkSubkey p name index modif) (fun c s' => s'.grants = s.grants ∧
      (c.isSome = true ↔ s.GrantsFrom s.allocs 2) ∧
        (c.isSome = true → s'.allocs = s.allocs + 2)) E s := by
  unfold linkSubkey
  simp only [wp_bind]
  refine wp_mono (wp_allocKey_takes hn) ?_
  rintro c s₁ h
  cases c with
  | none => exact h
  | some c => exact h

theorem wp_growSubkeys_takes {E : Fault → Prop} {s : State} {p : ℕ} {key : Key}
    (hkey : s.keys p = some key) :
    wp (growSubkeys p) (fun b s' => Takes s b s') E s := by
  unfold growSubkeys
  simp only [wp_bind]
  refine wp_getKey_some hkey (wp_memAlloc_takes fun b s₁ h₁ => ?_)
  cases b with
  | false => exact h₁
  | true => exact ⟨h₁.outcome, h₁.grants, h₁.allocs⟩

theorem wp_allocSubkey_takes {E : Fault → Prop} {s : State} {p index : ℕ} {key : Key}
    {name : List WChar} (hkey : s.keys p = some key) (hn : name ≠ []) :
    wp (allocSubkey p name index modif) (fun c s' => s'.grants = s.grants ∧
      (c.isSome = true ↔ Makes s key name) ∧
        (c.isSome = true → s'.allocs = s.allocs + allocsFor key)) E s := by
  unfold allocSubkey Makes
  by_cases hlong : maxNameLen * 2 < byteLen name
  · have hname : ¬ name.length ≤ maxNameLen := by
      unfold byteLen at hlong
      omega
    simp only [hlong, if_true, wp_bind, wp_setError, wp_pure, hname]
    exact ⟨trivial, by simp, by simp⟩
  · have hname : name.length ≤ maxNameLen := by
      unfold byteLen at hlong
      omega
    simp only [hlong, if_false, wp_bind, hname, true_and]
    refine wp_getKey_some hkey ?_
    unfold allocsFor
    by_cases hfull : key.lastSubkey + 1 = key.nbSubkeys
    · simp only [hfull, if_true, wp_bind]
      refine wp_mono (wp_growSubkeys_takes hkey) ?_
      rintro b s₁ h₁
      rw [grantsFrom_succ, ← h₁.outcome]
      cases b with
      | false => exact ⟨h₁.grants, by simp, by simp⟩
      | true =>
        rw [if_pos rfl]
        refine wp_mono (wp_linkSubkey_takes hn) ?_
        rintro c s₂ ⟨hg, hc, ha⟩
        refine ⟨hg.trans h₁.grants, ?_, fun hs => ?_⟩
        · rw [hc, h₁.allocs, State.GrantsFrom.congr h₁.grants]
          simp
        · rw [ha hs, h₁.allocs]
    · simp only [hfull, if_false]
      exact wp_linkSubkey_takes hn

/-! ## The allocations of the keys below the first -/

/-- The loop of `create_key` can make a key for each of the names: the arrays of new keys are all
empty. -/
def RestMakes (s : State) (start : ℕ) (tokens : List (List WChar)) : Prop :=
  (∀ tok ∈ tokens, tok.length ≤ maxNameLen) ∧ s.GrantsFrom start (3 * tokens.length)

theorem restMakes_cons {s s' : State} {start : ℕ} {tok : List WChar}
    {tokens : List (List WChar)} (hg : s'.grants = s.grants) :
    RestMakes s start (tok :: tokens) ↔
      (tok.length ≤ maxNameLen ∧ s.GrantsFrom start 3) ∧ RestMakes s' (start + 3) tokens := by
  unfold RestMakes
  rw [List.forall_mem_cons, List.length_cons, Nat.mul_succ, Nat.add_comm (3 * tokens.length) 3,
    grantsFrom_add, State.GrantsFrom.congr hg]
  exact and_and_and_comm

theorem sound_new {p : ℕ} {tok : List WChar} (hshort : tok.length ≤ maxNameLen) :
    Key.Sound cm { Key.new tok modif with parent := some p } where
  short := hshort
  subkeysFit := Nat.le_refl _
  subkeysRoom := .inl rfl
  valuesFit := Nat.le_refl _
  valuesRoom := .inl rfl
  valuesSorted := List.Pairwise.nil
  valuesShort v hv := (by cases hv)
  detached hd := (by cases hd)

theorem wp_createRest_takes {E : Fault → Prop} (hdel : flags.deleted = false)
    {tokens : List (List WChar)} {k : ℕ} {key : Key} {s : State} (hkey : s.keys k = some key)
    (hs : key.Sound cm) (hlt : k < s.nextKey) (hnew : allocsFor key = 3)
    (hn : ∀ tok ∈ tokens, tok ≠ []) :
    wp (createRest flags modif k tokens) (fun c _ => c.isSome = true ↔
      RestMakes s s.allocs tokens) E s := by
  induction tokens generalizing k key s with
  | nil =>
    simp only [createRest, wp_bind, wp_modifyKey, wp_pure]
    refine iff_of_true rfl ⟨fun tok h => (by cases h), fun i hi => ?_⟩
    rw [List.length_nil] at hi
    omega
  | cons tok tokens ih =>
    simp only [createRest, wp_bind, wp_modifyKey]
    have hkey₀ := Tree.updateKey_self (f := fun key => { key with flags := key.flags.or flags })
      hkey
    have hs₀ := hs.flags (f := key.flags.or flags) (by
      unfold KeyFlags.or
      simp [hdel])
    refine wp_mono (wp_and (wp_allocSubkey (s := { s with toTree := _ }) hkey₀ hs₀)
      (@wp_allocSubkey_takes _ E { s with toTree := _ } _ _ _ _ hkey₀
        (hn tok List.mem_cons_self))) ?_
    rintro c s₁ ⟨⟨m, hall⟩, hg, hc, ha⟩
    have hthree : allocsFor { key with flags := key.flags.or flags } = 3 := hnew
    unfold Makes at hc
    rw [hthree] at hc ha
    have hgrants : s₁.grants = s.grants := hg
    rw [restMakes_cons hgrants]
    cases c with
    | none =>
      simp only [wp_pure]
      refine iff_of_false (by simp) fun h => ?_
      cases hc.2 h.1
    | some c =>
      obtain ⟨rfl, hshort, -, ht⟩ := hall.done c rfl
      have hget : s₁.keys s.nextKey = some { Key.new tok modif with parent := some k } := by
        rw [ht]
        exact Tree.attach_new (r := (s.toTree.updateKey k _).room k m) hlt
      have hlt₁ : s.nextKey < s₁.nextKey := by
        rw [ht]
        exact Nat.lt_succ_self _
      refine wp_mono (ih hget (sound_new hshort) hlt₁ rfl fun tok' h' =>
        hn tok' (List.mem_cons_of_mem _ h')) ?_
      intro c' _ hiff
      rw [hiff, ha rfl]
      exact (and_iff_right (hc.1 rfl)).symm

/-! ## Keys below the root -/

/-- The keys below the root are the same. -/
def SameKeys (r r' : Tree) : Prop := ∀ i, r'.Beneath rootKey i ↔ r.Beneath rootKey i

theorem SameLinks.sameKeys {r r' : Tree} (h : SameLinks r r') : SameKeys r r' := by
  intro i
  constructor
  · exact h.beneath
  · intro hb
    induction hb with
    | refl => exact .refl
    | sub _ hk hc ih =>
      obtain ⟨key', hk', hl⟩ := h.after hk
      exact .sub ih hk' ((links_iff.mp hl).2.2.1.symm ▸ hc)

/-- A key that is not deleted is below the root. -/
theorem Tree.Wf.beneath_root {r : Tree} (h : r.Wf cm) (k : ℕ) {key : Key}
    (hk : r.keys k = some key) (hlive : key.flags.deleted = false) : r.Beneath rootKey k := by
  induction k using Nat.strong_induction_on generalizing key with
  | _ k ih =>
    by_cases h0 : k = rootKey
    · rw [h0]
      exact .refl
    · cases hp : key.parent with
      | none => exact absurd hp (h.attached k key hk hlive h0)
      | some p =>
        obtain ⟨hlt, pk, hpk, hmem⟩ := h.parent k key p hk hp
        have hplive : pk.flags.deleted = false := by
          cases hd : pk.flags.deleted with
          | false => rfl
          | true =>
            rw [((h.sound p pk hpk).detached hd).2] at hmem
            cases hmem
        exact .sub (ih p hlt hpk hplive) hpk hmem

/-- Only keys that exist are below the root. -/
theorem Tree.Linked.exists_of_beneath {r : Tree} (h : r.Linked cm) {i : ℕ}
    (hb : r.Beneath rootKey i) : r.keys i ≠ none := by
  cases hb with
  | refl =>
    obtain ⟨key, hk, -⟩ := h.root
    rw [hk]
    exact Option.some_ne_none key
  | sub _ hk hc =>
    obtain ⟨ck, hck, -⟩ := h.child _ _ hk _ hc
    rw [hck]
    exact Option.some_ne_none ck

/-! ## The part of the function that creates -/

/-- Marks take no allocations and leave the arrays alone. -/
theorem wp_dirtyUp_takes {fuel k : ℕ} {s : State} :
    wp (dirtyUp fuel k) (fun _ s' => s'.allocs = s.allocs ∧ ∀ i key', s'.keys i = some key' →
      ∃ key, s.keys i = some key ∧ allocsFor key' = allocsFor key) AnyFault s := by
  induction fuel generalizing k s with
  | zero => trivial
  | succ fuel ih =>
    unfold dirtyUp
    simp only [wp_bind]
    refine wp_getKey_any fun key hk => ?_
    have hmark : ∀ i key', (s.toTree.updateKey k Key.mark).keys i = some key' →
        ∃ key, s.keys i = some key ∧ allocsFor key' = allocsFor key := by
      intro i key' hi
      by_cases hik : i = k
      · subst hik
        rw [Tree.updateKey_self hk] at hi
        cases hi
        exact ⟨key, hk, rfl⟩
      · rw [Tree.updateKey_other hik] at hi
        exact ⟨key', hi, rfl⟩
    rw [wp_ite]
    refine ⟨fun _ => ⟨rfl, fun i key' hi => ⟨key', hi, rfl⟩⟩, fun _ => ?_⟩
    simp only [wp_bind, wp_modifyKey]
    cases key.parent with
    | none => exact ⟨rfl, hmark⟩
    | some p =>
      refine wp_mono ih ?_
      rintro _ s' ⟨ha, hkeys⟩
      refine ⟨ha, fun i key' hi => ?_⟩
      obtain ⟨key₁, hk₁, h₁⟩ := hkeys i key' hi
      obtain ⟨key₂, hk₂, h₂⟩ := hmark i key₁ hk₁
      exact ⟨key₂, hk₂, h₁.trans h₂⟩

/-- The state in which the allocations start: nothing has changed but marks. -/
structure MarkedFrom (cm : CaseMap) (s s₁ : State) : Prop where
  raised : Raised cm s.toTree s₁.toTree
  dirtyUp : s₁.toTree.DirtyUp
  grants : s₁.grants = s.grants
  allocs : s₁.allocs = s.allocs
  arrays : ∀ i key', s₁.keys i = some key' →
    ∃ key, s.keys i = some key ∧ allocsFor key' = allocsFor key

theorem MarkedFrom.makes {s s₁ : State} (h : MarkedFrom cm s s₁) {key key' : Key}
    (hk : allocsFor key' = allocsFor key) {tok : List WChar} :
    Makes s₁ key' tok ↔ Makes s key tok := by
  unfold Makes State.GrantsFrom
  rw [h.grants, h.allocs, hk]

/-- `create_missing` marks, and then allocates. -/
theorem wp_createMissing_from {E : Fault → Prop} {Q : Option ℕ → State → Prop} {s : State}
    {k index : ℕ} {key : Key} {tok : List WChar} {tokens : List (List WChar)}
    (hi : Inv cm s.toTree) (hk : s.keys k = some key)
    (h : ∀ s₁, MarkedFrom cm s s₁ → (flags.dirty = true → s₁.toTree.Marked k) → wp (do
      match (← allocSubkey k tok index modif) with
      | none => pure none
      | some base =>
        match (← createRest flags modif base tokens) with
        | none =>
          freeSubkey base index
          pure none
        | some k' => pure (some k')) Q E s₁) :
    wp (createMissing k tok tokens index flags modif) Q E s := by
  unfold createMissing
  by_cases hd : flags.dirty = true
  · simp only [hd, if_true]
    rw [wp_bind]
    have htakes : wp (makeDirty k) (fun _ s' => s'.allocs = s.allocs ∧
        ∀ i key', s'.keys i = some key' →
          ∃ key, s.keys i = some key ∧ allocsFor key' = allocsFor key) AnyFault s := by
      unfold makeDirty
      simp only [wp_bind, wp_get]
      exact wp_dirtyUp_takes
    refine wp_mono (wp_and (wp_makeDirty hi hk) htakes) ?_
    rintro _ s₁ ⟨⟨hr, hdu, hm, hg⟩, ha, harr⟩
    exact h s₁ ⟨hr, hdu, hg, ha, harr⟩ fun _ => hm
  · simp only [hd]
    exact h s ⟨.refl _, hi.dirtyUp, rfl, rfl, fun i key' hk' => ⟨key', hk', rfl⟩⟩
      fun hd' => absurd hd' hd

/-- If the first key cannot be made, or all the others can, a failure leaves the links alone. -/
theorem wp_createMissing_good {E : Fault → Prop} {s : State} {k index : ℕ} {key : Key}
    {tok : List WChar} {tokens : List (List WChar)} (hi : Inv cm s.toTree)
    (hk : s.keys k = some key) (hdel : flags.deleted = false)
    (hvalid : ∀ tok' ∈ tok :: tokens, ValidName tok')
    (hgood : ¬ Makes s key tok ∨ RestMakes s (s.allocs + allocsFor key) tokens) :
    wp (createMissing k tok tokens index flags modif)
      (fun c s' => c = none → SameKeys s.toTree s'.toTree) E s := by
  refine wp_createMissing_from hi hk fun s₁ h₁ _ => ?_
  obtain ⟨key₁, hk₁, -⟩ := h₁.raised.after hk
  obtain ⟨key', hk', harr⟩ := h₁.arrays k key₁ hk₁
  obtain rfl := Option.some.inj (hk.symm.trans hk')
  have hwf₁ := h₁.raised.wf hi.wf
  simp only [wp_bind]
  refine wp_mono (wp_and (wp_allocSubkey hk₁ (hwf₁.sound k key₁ hk₁))
    (@wp_allocSubkey_takes _ E _ _ _ _ _ hk₁ (hvalid tok List.mem_cons_self).1)) ?_
  rintro c s₂ ⟨⟨m, hall⟩, hg, hc, ha⟩
  rw [h₁.makes harr] at hc
  cases c with
  | none =>
    simp only [wp_pure]
    intro _
    rw [hall.failed rfl]
    exact (h₁.raised.toSameLinks.trans (Tree.updateKey_same hk₁ rfl)).sameKeys
  | some base =>
    obtain ⟨rfl, hshort, -, ht⟩ := hall.done base rfl
    have hrest := hgood.resolve_left (not_not.2 (hc.1 rfl))
    have hget : s₂.keys s₁.nextKey = some { Key.new tok modif with parent := some k } := by
      rw [ht]
      exact Tree.attach_new (r := s₁.toTree.room k m) (hwf₁.lt hk₁)
    have hlt : s₁.nextKey < s₂.nextKey := by
      rw [ht]
      exact Nat.lt_succ_self _
    simp only [wp_bind]
    refine wp_mono (@wp_createRest_takes cm _ _ E hdel _ _ _ _ hget (sound_new hshort) hlt rfl
      fun tok' h' => (hvalid tok' (List.mem_cons_of_mem _ h')).1) ?_
    intro c s₃ hiff
    rw [ha rfl, h₁.allocs, harr] at hiff
    unfold RestMakes at hiff hrest
    rw [State.GrantsFrom.congr (hg.trans h₁.grants)] at hiff
    cases c with
    | none => cases hiff.2 hrest
    | some k' => exact fun h => by cases h

/-- Otherwise it frees a subkey of the first new key, or runs into an assertion. -/
theorem wp_createMissing_bad {s : State} {k index : ℕ} {key : Key} {tok : List WChar}
    {tokens : List (List WChar)} (hi : Inv cm s.toTree) (hk : s.keys k = some key)
    (hlive : key.flags.deleted = false) (hdel : flags.deleted = false)
    (hvalid : ∀ tok' ∈ tok :: tokens, ValidName tok')
    (hf : findSubkey cm s.toTree key tok = .missing index) (hmakes : Makes s key tok)
    (hrest : ¬ RestMakes s (s.allocs + allocsFor key) tokens) :
    wp (createMissing k tok tokens index flags modif)
      (fun c s' => c = none ∧ ¬ SameKeys s.toTree s'.toTree) NotEndless s := by
  refine wp_createMissing_from hi hk fun s₁ h₁ hmarked => ?_
  obtain ⟨key₁, hk₁, hl₁⟩ := h₁.raised.after hk
  obtain ⟨key', hk', harr⟩ := h₁.arrays k key₁ hk₁
  obtain rfl := Option.some.inj (hk.symm.trans hk')
  obtain ⟨-, -, hsub, hdel₁⟩ := links_iff.mp hl₁
  have hi₁ : Inv cm s₁.toTree := ⟨h₁.raised.wf hi.wf, h₁.dirtyUp⟩
  simp only [wp_bind]
  refine wp_mono (wp_and (wp_allocSubkey hk₁ (hi₁.wf.sound k key₁ hk₁))
    (@wp_allocSubkey_takes _ NotEndless _ _ _ _ _ hk₁ (hvalid tok List.mem_cons_self).1)) ?_
  rintro c s₂ ⟨⟨m, hall⟩, hg, hc, ha⟩
  rw [h₁.makes harr] at hc
  obtain ⟨base, rfl⟩ := Option.isSome_iff_exists.1 (hc.2 hmakes)
  obtain ⟨hbase, hshort, hltm, ht⟩ := hall.done base rfl
  have hir : Inv cm (s₁.toTree.room k m) := hi₁.room hk₁ hall.room
  have hself : (s₁.toTree.room k m).keys k = some { key₁ with nbSubkeys := m } :=
    Tree.updateKey_self hk₁
  have hpl : Tree.Place cm (s₁.toTree.room k m) { key₁ with nbSubkeys := m } tok index := by
    obtain ⟨hlow, hhigh⟩ := hi.wf.findSubkey_missing hk hshort hf
    exact Tree.Place.same ⟨Tree.findSubkey_missing_le hf, hlow, hhigh⟩
      (h₁.raised.toSameLinks.trans (Tree.updateKey_same hk₁ rfl)) hsub
  have hnew : (s₁.toTree.room k m).nextKey = s₁.nextKey := rfl
  have hlink : SameLinks s.toTree (s₁.toTree.room k m) :=
    h₁.raised.toSameLinks.trans (Tree.updateKey_same hk₁ rfl)
  have hmr : flags.dirty = true → (s₁.toTree.room k m).Marked k := by
    intro hd key' hk'
    rw [hself, Option.some.injEq] at hk'
    rw [← hk']
    exact hmarked hd key₁ hk₁
  generalize s₁.toTree.room k m = r₁ at hir hself hpl ht hnew hmr hlink
  have hkn := hir.wf.lt hself
  have hc₁ : Tree.Chain cm flags .none k r₁.nextKey [tok] (r₁.attach k tok index modif)
      s₂.toTree := by
    rw [ht]
    exact .start hir hself (hdel₁.trans hlive) hltm (hvalid tok List.mem_cons_self) hshort hpl
  have hup : flags.volatile = false → flags.dirty = true →
      (r₁.attach k tok index modif).Marked k := by
    intro _ hd key' hk'
    rw [Tree.attach_parent hself hkn, Option.some.injEq] at hk'
    rw [← hk']
    exact hmr hd { key₁ with nbSubkeys := m } hself
  have hs₂next : s₂.nextKey = r₁.nextKey + [tok].length := by
    rw [ht]
    rfl
  have hget : s₂.keys base = some { Key.new tok modif with parent := some k } := by
    rw [ht, hbase, ← hnew]
    exact Tree.attach_new hkn
  have hlt : base < s₂.nextKey := by
    rw [hs₂next, hbase, hnew]
    exact Nat.lt_succ_self _
  simp only [wp_bind]
  refine wp_mono (wp_and (wp_createRest hkn hdel hup
    (fun tok' ht' => hvalid tok' (List.mem_cons_of_mem _ ht')) hc₁ hs₂next
    (by rw [hbase, hnew]; rfl) (by omega)) (@wp_createRest_takes cm _ _ NotEndless hdel _ _ _ _
      hget (sound_new hshort) hlt rfl
      fun tok' h' => (hvalid tok' (List.mem_cons_of_mem _ h')).1)) ?_
  rintro c s₃ ⟨⟨-, -, hnone, -⟩, hiff⟩
  rw [ha rfl, h₁.allocs, harr] at hiff
  unfold RestMakes at hiff hrest
  rw [State.GrantsFrom.congr (hg.trans h₁.grants)] at hiff
  cases c with
  | some k' => exact absurd (hiff.1 rfl) hrest
  | none =>
    obtain ⟨more, hmore, hnext₃⟩ := hnone rfl
    simp only [wp_bind, wp_pure]
    have hset := hc₁.setLast (k := r₁.nextKey) rfl (Nat.le_refl _) hkn hdel hup
    have hheld : ∀ i, i ∈ (r₁.attach k tok index modif).handles ∨
        i ∈ (r₁.attach k tok index modif).branches → i < r₁.nextKey := by
      intro i hi'
      cases hki : r₁.keys i with
      | none => exact absurd hki (hir.wf.held i hi')
      | some ki => exact hir.wf.lt hki
    rw [hbase, ← hnew]
    refine wp_mono (wp_freeChain hkn hdel hset hmore hnext₃ ?_ hheld) ?_
    · rw [hnext₃, Tree.updateKey_nextKey, hs₂next]
      simp only [List.length_append]
      omega
    · rintro _ s₄ ⟨hc₄, -⟩
      refine ⟨trivial, fun hsame => ?_⟩
      obtain ⟨base₄, hbase₄, -, -, hfl, -, -⟩ := hc₄.new 0 (Nat.succ_pos _)
      have hlive₄ : base₄.flags.deleted = false := by
        rw [hfl]
        exact hdel
      have hreach := hc₄.inv.wf.beneath_root _ hbase₄ hlive₄
      have hold := (hsame _).1 hreach
      exact hi.wf.toLinked.exists_of_beneath hold (hi.wf.fresh _ (by
        have := hlink.nextKey
        omega))

/-! ## The whole function -/

/-- No subkey has the name. -/
def Tree.Lacks (cm : CaseMap) (r : Tree) (d : ℕ) (tok : List WChar) : Prop :=
  ∀ key, r.keys d = some key → ∀ c ∈ key.subkeys, fold cm (r.nameOf c) ≠ fold cm tok

/-- The last key of a path that exists, the first name below it that is missing, and the names after
that. -/
def Tree.LeavesAt (cm : CaseMap) (r : Tree) (k : ℕ) (toks : List (List WChar)) (d : ℕ)
    (tok : List WChar) (rest : List (List WChar)) : Prop :=
  ∃ done, toks = done ++ tok :: rest ∧ r.Leads cm k done d ∧ r.Lacks cm d tok

theorem Tree.Leads.step {r : Tree} {k c d : ℕ} {key : Key} {tok : List WChar}
    {toks : List (List WChar)} (hr : r.Linked cm) (hk : r.keys k = some key)
    (hc : c ∈ key.subkeys) (hf : fold cm (r.nameOf c) = fold cm tok)
    (h : r.Leads cm k (tok :: toks) d) : r.Leads cm c toks d := by
  obtain ⟨key', c', hk', hc', hf', h'⟩ := h
  have hone : r.Leads cm k [tok] c := ⟨key, c, hk, hc, hf, rfl⟩
  have htwo : r.Leads cm k [tok] c' := ⟨key', c', hk', hc', hf', rfl⟩
  rw [hone.unique hr htwo]
  exact h'

/-- A path leaves the keys that exist in one place. -/
theorem Tree.Leads.stop {r : Tree} (hr : r.Linked cm) {tok : List WChar}
    {done done' rest rest' : List (List WChar)} {k d d' : ℕ} (h : r.Leads cm k done d)
    (h' : r.Leads cm k done' d') (heq : done ++ rest = done' ++ tok :: rest')
    (hend : r.Lacks cm d' tok) (hstop : ∀ t ts, rest = t :: ts → r.Lacks cm d t) :
    done = done' := by
  induction done generalizing done' k with
  | nil =>
    cases done' with
    | nil => rfl
    | cons t done' =>
      obtain rfl : k = d := h
      obtain ⟨key, c, hk, hc, hf, -⟩ := h'
      exact absurd hf (hstop t _ heq key hk c hc)
  | cons t done ih =>
    obtain ⟨key, c, hk, hc, hf, hrest⟩ := h
    cases done' with
    | nil =>
      obtain rfl : k = d' := h'
      obtain ⟨rfl, -⟩ := List.cons.inj heq
      exact absurd hf (hend key hk c hc)
    | cons t' done' =>
      obtain ⟨rfl, htail⟩ := List.cons.inj heq
      rw [ih hrest (Leads.step hr hk hc hf h') htail]

theorem Tree.LeavesAt.unique {r : Tree} (hr : r.Linked cm) {toks rest rest' : List (List WChar)}
    {tok tok' : List WChar} {k d d' : ℕ} (h : r.LeavesAt cm k toks d tok rest)
    (h' : r.LeavesAt cm k toks d' tok' rest') : d = d' ∧ tok :: rest = tok' :: rest' := by
  obtain ⟨done, hdone, hleads, hend⟩ := h
  obtain ⟨done', hdone', hleads', hend'⟩ := h'
  have heq := hdone.symm.trans hdone'
  have hstop : ∀ t ts, tok :: rest = t :: ts → r.Lacks cm d t := by
    intro t ts hcons
    rw [← (List.cons.inj hcons).1]
    exact hend
  obtain rfl := hleads.stop hr hleads' heq hend' hstop
  exact ⟨hleads.unique hr hleads', List.append_cancel_left heq⟩

/-- The function returns, and if it returns no key, then the keys below the root are the same. -/
def FailsCleanly (cm : CaseMap) (s : State) (k : ℕ) (path className : List WChar)
    (flags : KeyFlags) (modif : ℤ) : Prop :=
  ∃ c s', createKey cm k path className flags modif s = .ok (c, s') ∧
    (c = none → SameKeys s.toTree s'.toTree)

/-- The call is refused, or no key is missing, or the first missing key cannot be made, or all the
keys below it can. -/
def FailsEarly (cm : CaseMap) (s : State) (k : ℕ) (path : List WChar) (flags : KeyFlags) : Prop :=
  ∀ key d dk tok tokens, s.keys k = some key → key.flags.deleted = false →
    (flags.volatile = true ∨ key.flags.volatile = false) → pathValid path = true →
      s.toTree.LeavesAt cm k (pathTokens path) d tok tokens → s.keys d = some dk →
        Makes s dk tok → RestMakes s (s.allocs + allocsFor dk) tokens

/-- What `descend` finds for `create_key`. -/
structure Descended (cm : CaseMap) (r : Tree) (k : ℕ) (toks : List (List WChar))
    (res : ℕ × List (List WChar) × ℕ) (dk : Key) : Prop where
  key : r.keys res.1 = some dk
  live : dk.flags.deleted = false
  leaves : ∀ tok rest, res.2.1 = tok :: rest → r.LeavesAt cm k toks res.1 tok rest
  missing : ∀ tok rest, res.2.1 = tok :: rest → findSubkey cm r dk tok = .missing res.2.2
  only : ∀ d tok rest, r.LeavesAt cm k toks d tok rest → res.1 = d ∧ res.2.1 = tok :: rest

theorem wp_descend_only {E : Fault → Prop} {s : State} {k : ℕ} {key : Key} {path : List WChar}
    (hi : Inv cm s.toTree) (hk : s.keys k = some key) (hlive : key.flags.deleted = false)
    (hlen : path.length < maxPathLen) :
    wp (descend cm k (pathTokens path)) (fun res s' => s' = s ∧
      ∃ dk, Descended cm s.toTree k (pathTokens path) res dk) E s := by
  have hshort : ∀ tok ∈ pathTokens path, tok.length < maxPathLen := fun tok ht =>
    Nat.lt_of_le_of_lt (pathTokens_mem ht).2 hlen
  refine wp_mono (wp_descend hi.wf hk hlive hshort) ?_
  rintro ⟨d, rest, index⟩ s' ⟨hs, done, dk, hdone, hleads, hdk, hdlive, hmiss⟩
  simp only at hdone hleads hdk hmiss
  have hlacks : ∀ tok ts, rest = tok :: ts → s.toTree.Lacks cm d tok := by
    intro tok ts hrest dk' hdk' c hc he
    obtain rfl := Option.some.inj (hdk.symm.trans hdk')
    have hmem : tok ∈ pathTokens path := by
      rw [hdone, hrest]
      exact List.mem_append_right _ List.mem_cons_self
    obtain ⟨i, hfound⟩ := (hi.wf.findSubkey_iff hdk (hshort tok hmem)).mpr ⟨c, hc, he⟩
    rw [hmiss tok ts hrest] at hfound
    cases hfound
  refine ⟨hs, dk, hdk, hdlive, fun tok ts hrest => ?_, hmiss, ?_⟩
  · exact ⟨done, hrest ▸ hdone, hleads, hlacks tok ts hrest⟩
  · rintro d' tok' rest' ⟨done', hdone', hleads', hend⟩
    have heq := hdone.symm.trans hdone'
    obtain rfl := hleads.stop hi.wf.toLinked hleads' heq hend hlacks
    exact ⟨hleads.unique hi.wf.toLinked hleads', List.append_cancel_left heq⟩

/-- The checks that `create_key` makes before it looks for the path. -/
def Refused (key : Key) (path : List WChar) (flags : KeyFlags) : Prop :=
  key.flags.deleted = true ∨ (flags.volatile = false ∧ key.flags.volatile = true) ∨
    ¬ pathValid path = true

/-- The three ways through `create_key`. -/
theorem wp_createKey_ways {Q : Option ℕ → State → Prop} {E : Fault → Prop} {s : State} {k : ℕ}
    {key : Key} {path className : List WChar} (hi : Inv cm s.toTree) (hk : s.keys k = some key)
    (hlen : path.length < maxPathLen)
    (hrefused : Refused key path flags → ∀ e, Q none { s with error := e })
    (hfound : ¬ Refused key path flags →
      (∀ d tok rest, ¬ s.toTree.LeavesAt cm k (pathTokens path) d tok rest) →
        ∀ k' s', Q (some k') s')
    (hmissing : ¬ Refused key path flags → ∀ d dk tok tokens index m,
      s.toTree.LeavesAt cm k (pathTokens path) d tok tokens → s.keys d = some dk →
        dk.flags.deleted = false → findSubkey cm s.toTree dk tok = .missing index →
          (∀ tok' ∈ tok :: tokens, ValidName tok') →
            wp (createMissing d tok tokens index flags m) (fun c s' => (c = none → Q none s') ∧
              ∀ k', c = some k' → (Inv cm s'.toTree ∧ ∃ key', s'.keys k' = some key') ∧
                ∀ s'', Q (some k') s'') E s) :
    wp (createKey cm k path className flags modif) Q E s := by
  unfold createKey
  simp only [wp_bind]
  refine wp_getKey_some hk ?_
  rw [wp_ite]
  refine ⟨fun hd => ?_, fun hlive => ?_⟩
  · simp only [wp_bind, wp_setError, wp_pure]
    exact hrefused (.inl hd) _
  rw [wp_ite]
  refine ⟨fun hv => ?_, fun hvol => ?_⟩
  · simp only [wp_bind, wp_setError, wp_pure]
    exact hrefused (.inr (.inl (by simpa using hv))) _
  simp only [wp_bind, wp_get]
  rw [wp_ite]
  refine ⟨fun hpv => ?_, fun hpv => ?_⟩
  swap
  · simp only [wp_bind, wp_setError, wp_pure]
    exact hrefused (.inr (.inr hpv)) _
  have hpass : ¬ Refused key path flags := by
    rintro (hd | hv | hv)
    · exact hlive hd
    · exact hvol (by simpa using hv)
    · exact hv hpv
  rw [wp_bind]
  refine wp_mono (wp_descend_only hi hk (by simpa using hlive) hlen) ?_
  rintro ⟨d, rest, index⟩ s' ⟨rfl, dk, hd⟩
  cases rest with
  | nil =>
    simp only [wp_bind, wp_pure]
    refine wp_mono (wp_setClass (h := False) (q := False) (.refl hi) hd.key) fun _ s₂ _ => ?_
    refine hfound hpass (fun d' tok rest hl => ?_) _ _
    cases (hd.only d' tok rest hl).2
  | cons tok tokens =>
    have hleaves := hd.leaves tok tokens rfl
    have hvalid : ∀ tok' ∈ tok :: tokens, ValidName tok' := by
      obtain ⟨done, hdone, -⟩ := hleaves
      intro tok' ht
      refine (@pathTokens_mem path _ ?_).1
      rw [hdone]
      exact List.mem_append_right _ ht
    simp only [wp_bind]
    refine wp_mono (hmissing hpass d dk tok tokens index _ hleaves hd.key hd.live
      (hd.missing tok tokens rfl) hvalid) ?_
    rintro c s₂ ⟨hnone, hsome⟩
    cases c with
    | none => exact hnone rfl
    | some k' =>
      obtain ⟨⟨hi₂, key', hkey'⟩, hq⟩ := hsome k' rfl
      simp only [wp_bind, wp_pure]
      exact wp_mono (wp_setClass (h := False) (q := False) (.refl hi₂) hkey') fun _ s₃ _ => hq s₃

theorem not_refused {key : Key} {path : List WChar} (h : ¬ Refused key path flags) :
    key.flags.deleted = false ∧ (flags.volatile = true ∨ key.flags.volatile = false) ∧
      pathValid path = true := by
  unfold Refused at h
  simp only [not_or, not_and, Bool.not_eq_true, Bool.not_eq_false] at h
  refine ⟨h.1, ?_, h.2.2⟩
  cases hv : flags.volatile with
  | true => exact .inl rfl
  | false => exact .inr (by simpa using h.2.1 hv)

theorem failsCleanly_of_early {s : State} {k : ℕ} {key : Key} {path className : List WChar}
    (hi : Inv cm s.toTree) (hk : s.keys k = some key) (hlen : path.length < maxPathLen)
    (hdel : flags.deleted = false) (hearly : FailsEarly cm s k path flags) :
    FailsCleanly cm s k path className flags modif := by
  have h : wp (createKey cm k path className flags modif)
      (fun c s' => c = none → SameKeys s.toTree s'.toTree) (fun _ => False) s := by
    refine wp_createKey_ways hi hk hlen ?_ ?_ ?_
    · intro _ e _ i
      exact Iff.rfl
    · intro _ _ k' s' h
      cases h
    · intro hpass d dk tok tokens index m hleaves hdk hdlive hf hvalid
      obtain ⟨hlive, hvol, hpv⟩ := not_refused hpass
      have hgood : ¬ Makes s dk tok ∨ RestMakes s (s.allocs + allocsFor dk) tokens := by
        by_cases hm : Makes s dk tok
        · exact .inr (hearly key d dk tok tokens hk hlive hvol hpv hleaves hdk hm)
        · exact .inl hm
      refine wp_mono (wp_and (wp_createMissing_good hi hdk hdel hvalid hgood)
        (wp_createMissing (h := False) (q := False) (.refl hi) hdk hdlive hvalid hf hdel
          (fun hh => hh.elim) (fun hh => hh.elim))) ?_
      rintro c s' ⟨hsame, hc⟩
      refine ⟨fun hn _ => hsame hn, fun k' hk' => ⟨⟨⟨hc.keeps.wf, hc.keeps.dirtyUp⟩, ?_⟩,
        fun s'' hn => by cases hn⟩⟩
      obtain ⟨-, key', hkey', -⟩ := hc.path k' hk'
      exact ⟨key', hkey'⟩
  unfold FailsCleanly
  cases hrun : createKey cm k path className flags modif s with
  | ok res => exact ⟨res.1, res.2, rfl, wp_of_ok h hrun⟩
  | error e => exact (wp_of_error h hrun).elim

theorem not_failsCleanly {s : State} {k : ℕ} {key : Key} {path className : List WChar}
    (hi : Inv cm s.toTree) (hk : s.keys k = some key) (hlen : path.length < maxPathLen)
    (hdel : flags.deleted = false) (hlate : ¬ FailsEarly cm s k path flags) :
    ¬ FailsCleanly cm s k path className flags modif := by
  unfold FailsEarly at hlate
  push Not at hlate
  obtain ⟨key', d, dk, tok, tokens, hk', hlive, hvol, hpv, hleaves, hdk, hm, hrest⟩ := hlate
  obtain rfl := Option.some.inj (hk.symm.trans hk')
  have h : wp (createKey cm k path className flags modif)
      (fun c s' => c = none ∧ ¬ SameKeys s.toTree s'.toTree) AnyFault s := by
    refine wp_createKey_ways hi hk hlen ?_ ?_ ?_
    · rintro (hd | ⟨hv, hv'⟩ | hn)
      · rw [hlive] at hd
        cases hd
      · rw [hv, hv'] at hvol
        rcases hvol with h | h <;> cases h
      · exact absurd hpv hn
    · intro _ hnone
      exact absurd hleaves (hnone d tok tokens)
    · intro hpass d' dk' tok' tokens' index m hleaves' hdk' hdlive hf hvalid
      obtain ⟨rfl, heq⟩ := hleaves'.unique hi.wf.toLinked hleaves
      obtain ⟨rfl, rfl⟩ := List.cons.inj heq
      obtain rfl := Option.some.inj (hdk.symm.trans hdk')
      refine wp_mono (wp_mono_error (E := NotEndless) (wp_createMissing_bad hi hdk hdlive hdel hvalid
        hf hm hrest) fun _ _ => trivial) ?_
      rintro c s' ⟨rfl, hne⟩
      exact ⟨fun _ => ⟨rfl, hne⟩, fun k' hn => by cases hn⟩
  rintro ⟨c, s', hrun, hsame⟩
  obtain ⟨hn, hne⟩ := wp_of_ok h hrun
  exact hne (hsame hn)

/-- A path with a name of 261 characters below a missing key. -/
def longBelowMissing : ReqString :=
  ⟨wide "a\\" ++ List.replicate 261 0x62, by
    have hlen : (wide "a\\").length = 2 := by decide
    rw [maxPathLen_eq, List.length_append, List.length_replicate, hlen]
    omega⟩

end Wine.Registry
