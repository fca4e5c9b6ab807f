import Wine.Registry.Keeps

/-!
# Dirty marks

`make_dirty` restores `DirtyUp` where it fails just above one key, and marks that key; `make_clean`
lowers a set of marks that is closed under the subkeys that are not volatile.
-/

namespace Wine.Registry
open Wine.Lib

/-- Nothing has changed but marks that were raised. -/
structure Raised (cm : CaseMap) (r r' : Tree) : Prop extends Alike r r' where
  wf : r.Wf cm → r'.Wf cm
  values : ∀ i key key', r.keys i = some key → r'.keys i = some key' → key'.values = key.values
  dirty : ∀ i key key', r.keys i = some key → r'.keys i = some key' →
    key.flags.dirty = true → key'.flags.dirty = true

/-- A key below which a change will not go unnoticed, or does not matter. -/
def Tree.Marked (r : Tree) (k : ℕ) : Prop :=
  ∀ key, r.keys k = some key → key.flags.volatile = true ∨ key.flags.dirty = true

variable {cm : CaseMap}

def Key.mark (key : Key) : Key := { key with flags := { key.flags with dirty := true } }

namespace Raised
variable {r r' r'' : Tree}

theorem refl (r : Tree) : Raised cm r r where
  toAlike := .refl r
  wf h := h
  values i key key' h h' := by rw [h] at h'; rw [Option.some.inj h']
  dirty i key key' h h' hd := by rw [h] at h'; rw [← Option.some.inj h', hd]

theorem trans (h : Raised cm r r') (h' : Raised cm r' r'') : Raised cm r r'' where
  toAlike := h.toAlike.trans h'.toAlike
  wf hr := h'.wf (h.wf hr)
  values i key key'' hk hk'' := by
    obtain ⟨key', hk', -⟩ := h.after hk
    exact (h'.values i key' key'' hk' hk'').trans (h.values i key key' hk hk')
  dirty i key key'' hk hk'' hd := by
    obtain ⟨key', hk', -⟩ := h.after hk
    exact h'.dirty i key' key'' hk' hk'' (h.dirty i key key' hk hk' hd)

theorem mark {k : ℕ} {key : Key} (hk : r.keys k = some key) :
    Raised cm r (r.updateKey k Key.mark) where
  toAlike := .updateKey hk rfl rfl
  wf h := h.updateKey hk rfl ((h.sound k key hk).flags fun hd => hd)
  values i key₁ key₂ h₁ h₂ := by
    by_cases hi : i = k
    · subst hi
      simp only [Tree.updateKey_keys, if_true, h₁, Option.map_some, Option.some.injEq] at h₂
      rw [← h₂]
      rfl
    · simp only [Tree.updateKey_keys, hi, if_false, h₁, Option.some.injEq] at h₂
      rw [h₂]
  dirty i key₁ key₂ h₁ h₂ hd := by
    by_cases hi : i = k
    · subst hi
      simp only [Tree.updateKey_keys, if_true, h₁, Option.map_some, Option.some.injEq] at h₂
      rw [← h₂]
      rfl
    · simp only [Tree.updateKey_keys, hi, if_false, h₁, Option.some.injEq] at h₂
      rw [← h₂, hd]

theorem keepsBut (h : Raised cm r r') {x : ℕ → Prop} {p q : Prop} (hr : r.Wf cm)
    (hd : r'.DirtyUp) : KeepsBut cm x p q r r' where
  wf := h.wf hr
  dirtyUp := hd
  older := h.toAlike.older
  heredity _ := h.toAlike.hereditary
  quiet _ := h.toAlike.quietBut h.dirty (fun i key key' _ => h.values i key key')

theorem kept (h : Raised cm r r') (y : ℕ → Prop) (v : Prop) : r.Kept y v r' where
  keys i key hk := by
    obtain ⟨key', hk', hl⟩ := h.after hk
    obtain ⟨hn, hp, -, -⟩ := links_iff.mp hl
    exact ⟨key', hk', hn, hp, h.volatile i key key' hk hk', fun _ => h.values i key key' hk hk'⟩
  fresh i key' hk' hn := (by cases hk'.symm.trans ((h.none_iff i).mpr hn))

end Raised

theorem Tree.Marked.dirtyUp {r : Tree} {k : ℕ} (hm : r.Marked k) (hd : r.DirtyUpBut k) :
    r.DirtyUp := by
  intro c ck p pk hc hp hpk hv hcd
  by_cases hpk' : p = k
  · subst hpk'
    exact hm pk hpk
  · exact hd c ck p pk hpk' hc hp hpk hv hcd

/-- Marking a key leaves only the key above it in doubt. -/
theorem Tree.DirtyUpBut.mark {r : Tree} {k : ℕ} {key : Key} (hk : r.keys k = some key)
    (hd : r.DirtyUpBut k) : ∀ c ck p pk, key.parent ≠ some p ∨ c ≠ k →
      (r.updateKey k Key.mark).keys c = some ck → ck.parent = some p →
        (r.updateKey k Key.mark).keys p = some pk → ck.flags.volatile = false →
          ck.flags.dirty = true → pk.flags.volatile = true ∨ pk.flags.dirty = true := by
  intro c ck p pk hor hc hp hpk hv hcd
  by_cases hpk' : p = k
  · subst hpk'
    simp only [Tree.updateKey_keys, if_true, hk, Option.map_some, Option.some.injEq] at hpk
    rw [← hpk]
    exact .inr rfl
  · simp only [Tree.updateKey_keys, hpk', if_false] at hpk
    by_cases hck : c = k
    · subst hck
      simp only [Tree.updateKey_keys, if_true, hk, Option.map_some, Option.some.injEq] at hc
      subst hc
      exact absurd hp (hor.resolve_right (fun h => h rfl))
    · simp only [Tree.updateKey_keys, hck, if_false] at hc
      exact hd c ck p pk hpk' hc hp hpk hv hcd

theorem wp_dirtyUp {E : Fault → Prop} {fuel k : ℕ} {s : State} {key : Key}
    (hwf : s.toTree.Wf cm) (hk : s.keys k = some key) (hfuel : k < fuel)
    (hd : s.toTree.DirtyUpBut k) :
    wp (dirtyUp fuel k) (fun _ s' => Raised cm s.toTree s'.toTree ∧ s'.toTree.DirtyUp ∧
      s'.toTree.Marked k ∧ s'.grants = s.grants) E s := by
  induction fuel generalizing s k key with
  | zero => exact absurd hfuel (Nat.not_lt_zero _)
  | succ fuel ih =>
    unfold dirtyUp
    simp only [wp_bind]
    refine wp_getKey_some hk ?_
    by_cases hflags : (key.flags.dirty || key.flags.volatile) = true
    · simp only [hflags, if_true, wp_pure]
      have hm : s.toTree.Marked k := fun key' hk' => by
        obtain rfl := Option.some.inj (hk.symm.trans hk')
        simpa only [Bool.or_eq_true, Or.comm] using hflags
      exact ⟨.refl _, hm.dirtyUp hd, hm, trivial⟩
    · simp only [hflags, Bool.false_eq_true, if_false, wp_bind, wp_modifyKey]
      have hr : Raised cm s.toTree (s.toTree.updateKey k Key.mark) := .mark hk
      have hmk : (s.toTree.updateKey k Key.mark).Marked k := fun key' hk' => by
        simp only [Tree.updateKey_keys, if_true, hk, Option.map_some, Option.some.injEq] at hk'
        rw [← hk']
        exact .inr rfl
      cases hp : key.parent with
      | none =>
        simp only [wp_pure]
        refine ⟨hr, ?_, hmk, trivial⟩
        exact fun c ck p pk => hd.mark hk c ck p pk (.inl (by rw [hp]; exact fun h => (by cases h)))
      | some p =>
        obtain ⟨hlt, pk, hpk, -⟩ := hwf.parent k key p hk hp
        obtain ⟨pk', hpk', -⟩ := hr.after hpk
        refine wp_mono (ih (hr.wf hwf) hpk' (Nat.lt_of_lt_of_le hlt (Nat.le_of_lt_succ hfuel)) ?_) ?_
        · intro c ck p' pk hne
          exact hd.mark hk c ck p' pk (.inl (by rw [hp]; exact fun h => hne (Option.some.inj h).symm))
        · rintro _ s' ⟨hr', hd', -, hg⟩
          refine ⟨hr.trans hr', hd', fun key' hk' => ?_, hg⟩
          obtain ⟨key₁, hk₁, -⟩ := hr'.before hk'
          rcases hmk key₁ hk₁ with hv | hv
          · exact .inl ((hr'.volatile k key₁ key' hk₁ hk').trans hv)
          · exact .inr (hr'.dirty k key₁ key' hk₁ hk' hv)

theorem wp_makeDirty {E : Fault → Prop} {k : ℕ} {key : Key} {s : State} (hi : Inv cm s.toTree)
    (hk : s.keys k = some key) :
    wp (makeDirty k) (fun _ s' => Raised cm s.toTree s'.toTree ∧ s'.toTree.DirtyUp ∧
      s'.toTree.Marked k ∧ s'.grants = s.grants) E s := by
  unfold makeDirty
  simp only [wp_bind, wp_get]
  exact wp_dirtyUp hi.wf hk (hi.wf.lt hk) (hi.dirtyUp.but k)

/-- A mark makes up for a change that was left unmarked. -/
theorem KeepsBut.marked {k : ℕ} {h q : Prop} {r r' r'' : Tree}
    (hk : KeepsBut cm (· = k) h q r r') (hr : Raised cm r' r'') (hd : r''.DirtyUp)
    (hm : r''.Marked k) : Keeps cm h q r r'' where
  wf := hr.wf hk.wf
  dirtyUp := hd
  older := hk.older.trans hr.toAlike.older
  heredity hc hh := hr.toAlike.hereditary (hk.heredity hc hh)
  quiet hc := by
    have hq := (hk.quiet hc).trans (hr.toAlike.quietBut hr.dirty
      (fun i key key' _ => hr.values i key key'))
    refine ⟨fun i key' _ hi hv hdk => hq.same i key' (fun he => ?_) hi hv hdk⟩
    subst he
    rcases hm key' hi with h' | h'
    · rw [h'] at hv; cases hv
    · rw [h'] at hdk; cases hdk

theorem wp_touchKey {k : ℕ} {s : State} {h q : Prop} {r : Tree}
    (hk : KeepsBut cm (· = k) h q r s.toTree) :
    wp (touchKey k) (fun _ s' => Keeps cm h q r s'.toTree ∧ SameLinks s.toTree s'.toTree)
      NotEndless s := by
  unfold touchKey
  simp only [wp_bind, wp_get, wp_modifyKey]
  have hi := hk.inv
  cases hkey : s.keys k with
  | none =>
    unfold makeDirty
    simp only [wp_bind, wp_get]
    obtain ⟨n, hn⟩ : ∃ n, s.nextKey = n + 1 := ⟨s.nextKey - 1, by have := hi.wf.nextKey_pos; omega⟩
    simp only [Tree.updateKey_nextKey, hn, dirtyUp, wp_bind]
    refine wp_getKey fun key' hk' => ?_
    simp only [Tree.updateKey_keys, if_true, hkey, Option.map_none] at hk'
    cases hk'
  | some key =>
    have hs := hi.wf.sound k key hkey
    have hu := (KeepsBut.updateKey (x := fun i => i = k) (h := h) (q := q)
      (f := fun key : Key => { key with modif := s.now }) hi hkey rfl rfl
      ⟨hs.short, hs.subkeysFit, hs.subkeysRoom, hs.valuesFit, hs.valuesRoom, hs.valuesSorted,
        hs.valuesShort, hs.detached⟩ (.inr rfl))
    have hl : SameLinks s.toTree (s.toTree.updateKey k fun key : Key => { key with modif := s.now }) :=
      Tree.updateKey_same hkey rfl
    have hmd := @wp_makeDirty cm NotEndless k { key with modif := s.now }
      { s with toTree := s.toTree.updateKey k fun key : Key => { key with modif := s.now } } hu.inv
      (by simp only [Tree.updateKey_keys, if_true, hkey, Option.map_some])
    refine wp_mono hmd ?_
    rintro _ s' ⟨hr, hd, hm, -⟩
    exact ⟨(hk.trans hu (fun hh => ⟨hh, hh⟩) (fun hq => ⟨hq, hq⟩)).marked hr hd hm,
      hl.trans hr.toSameLinks⟩

/-! ## Cleaning -/

/-- The keys of the subtree of a key. -/
inductive Tree.Beneath (r : Tree) (k : ℕ) : ℕ → Prop
  | refl : Beneath r k k
  | sub {i c : ℕ} {key : Key} : Beneath r k i → r.keys i = some key → c ∈ key.subkeys →
      Beneath r k c

theorem SameLinks.beneath {r r' : Tree} (h : SameLinks r r') {k i : ℕ} (hb : r'.Beneath k i) :
    r.Beneath k i := by
  induction hb with
  | refl => exact .refl
  | sub _ hk hc ih =>
    obtain ⟨key, hr, hl⟩ := h.before hk
    exact .sub ih hr ((links_iff.mp hl).2.2.1 ▸ hc)

theorem Tree.Beneath.trans {r : Tree} {k i j : ℕ} (h : r.Beneath k i) (h' : r.Beneath i j) :
    r.Beneath k j := by
  induction h' with
  | refl => exact h
  | sub _ hk hc ih => exact .sub ih hk hc

/-- Nothing has changed but marks that were lowered, together with those of the subkeys. -/
structure Lowered (cm : CaseMap) (r r' : Tree) : Prop extends Alike r r' where
  last : r'.nextKey = r.nextKey
  wf : r.Wf cm → r'.Wf cm
  values : ∀ i key key', r.keys i = some key → r'.keys i = some key' → key'.values = key.values
  dirty : ∀ i key key', r.keys i = some key → r'.keys i = some key' →
    key'.flags.dirty = true → key.flags.dirty = true
  closed : ∀ c ck' p pk pk', r'.keys c = some ck' → ck'.parent = some p → r.keys p = some pk →
    r'.keys p = some pk' → pk.flags.dirty = true → pk'.flags.dirty = false →
      ck'.flags.volatile = true ∨ ck'.flags.dirty = false

def Tree.Clean (r : Tree) (k : ℕ) : Prop :=
  ∀ key, r.keys k = some key → key.flags.volatile = true ∨ key.flags.dirty = false

def Key.unmark (key : Key) : Key := { key with flags := { key.flags with dirty := false } }

namespace Lowered
variable {r r' r'' : Tree}

theorem refl (r : Tree) : Lowered cm r r where
  toAlike := .refl r
  last := rfl
  wf h := h
  values i key key' h h' := by rw [h] at h'; rw [Option.some.inj h']
  dirty i key key' h h' hd := by rw [h] at h'; rw [Option.some.inj h', hd]
  closed c ck' p pk pk' _ _ h h' hd hd' := by
    rw [h] at h'
    rw [Option.some.inj h', hd'] at hd
    cases hd

theorem clean (h : Lowered cm r r') {k : ℕ} (hc : r.Clean k) : r'.Clean k := by
  intro key' hk'
  obtain ⟨key, hk, -⟩ := h.before hk'
  rcases hc key hk with hv | hd
  · exact .inl ((h.volatile k key key' hk hk').trans hv)
  · right
    by_contra hne
    rw [h.dirty k key key' hk hk' (by simpa using hne)] at hd
    cases hd

theorem trans (h : Lowered cm r r') (h' : Lowered cm r' r'') : Lowered cm r r'' where
  toAlike := h.toAlike.trans h'.toAlike
  last := h'.last.trans h.last
  wf hr := h'.wf (h.wf hr)
  values i key key'' hk hk'' := by
    obtain ⟨key', hk', -⟩ := h.after hk
    exact (h'.values i key' key'' hk' hk'').trans (h.values i key key' hk hk')
  dirty i key key'' hk hk'' hd := by
    obtain ⟨key', hk', -⟩ := h.after hk
    exact h.dirty i key key' hk hk' (h'.dirty i key' key'' hk' hk'' hd)
  closed c ck'' p pk pk'' hc hp hpk hpk'' hd hd'' := by
    obtain ⟨pk', hpk', -⟩ := h.after hpk
    obtain ⟨ck', hck', hl⟩ := h'.before hc
    by_cases hd' : pk'.flags.dirty = true
    · exact h'.closed c ck'' p pk' pk'' hc hp hpk' hpk'' hd' hd''
    · have hcl : r'.Clean c := fun ck hck => by
        obtain rfl := Option.some.inj (hck'.symm.trans hck)
        exact h.closed c ck' p pk pk' hck' ((links_iff.mp hl).2.1 ▸ hp) hpk hpk' hd
          (by simpa using hd')
      exact h'.clean hcl ck'' hc

theorem dirtyUp (h : Lowered cm r r') (hd : r.DirtyUp) : r'.DirtyUp := by
  intro c ck' p pk' hc hp hpk' hv hcd
  obtain ⟨ck, hck, hl⟩ := h.before hc
  obtain ⟨pk, hpk, -⟩ := h.before hpk'
  rcases hd c ck p pk hck ((links_iff.mp hl).2.1 ▸ hp) hpk (h.volatile c ck ck' hck hc ▸ hv)
    (h.dirty c ck ck' hck hc hcd) with hpv | hpd
  · exact .inl ((h.volatile p pk pk' hpk hpk').trans hpv)
  · right
    by_contra hne
    rcases h.closed c ck' p pk pk' hc hp hpk hpk' hpd (by simpa using hne) with h' | h'
    · rw [h'] at hv; cases hv
    · rw [h'] at hcd; cases hcd

/-- A key whose subkeys have all been cleaned may be cleaned itself. -/
theorem after_unmark {k : ℕ} {key : Key} (h : Lowered cm (r.updateKey k Key.unmark) r')
    (hk : r.keys k = some key) (hwf : r.Wf cm) (hc : ∀ c ∈ key.subkeys, r'.Clean c) :
    Lowered cm r r' := by
  have ha : Alike r (r.updateKey k Key.unmark) := .updateKey hk rfl rfl
  have hs := hwf.sound k key hk
  have hkeys : ∀ i key₁, r.keys i = some key₁ → ∃ key₂,
      (r.updateKey k Key.unmark).keys i = some key₂ ∧ key₂.values = key₁.values ∧
        (key₂.flags.dirty = true → key₁.flags.dirty = true) ∧
          (i ≠ k → key₂ = key₁) := by
    intro i key₁ h₁
    by_cases hi : i = k
    · subst hi
      obtain rfl := Option.some.inj (hk.symm.trans h₁)
      refine ⟨key.unmark, by simp only [Tree.updateKey_keys, if_true, hk, Option.map_some], rfl,
        fun hd => ?_, fun hn => absurd rfl hn⟩
      cases hd
    · exact ⟨key₁, by simp only [Tree.updateKey_keys, hi, if_false, h₁], rfl, fun hd => hd,
        fun _ => rfl⟩
  refine ⟨ha.trans h.toAlike, h.last, fun hr => h.wf (hr.updateKey hk rfl (hs.flags fun hd => hd)),
    ?_, ?_, ?_⟩
  · intro i key₁ key₃ h₁ h₃
    obtain ⟨key₂, h₂, hv, -, -⟩ := hkeys i key₁ h₁
    exact (h.values i key₂ key₃ h₂ h₃).trans hv
  · intro i key₁ key₃ h₁ h₃ hd
    obtain ⟨key₂, h₂, -, hd', -⟩ := hkeys i key₁ h₁
    exact hd' (h.dirty i key₂ key₃ h₂ h₃ hd)
  · intro c ck' p pk pk' hck hp hpk hpk' hd hd'
    obtain ⟨pk₂, hpk₂, -, -, heq⟩ := hkeys p pk hpk
    by_cases hpk : p = k
    · subst hpk
      obtain rfl := Option.some.inj (hk.symm.trans hpk)
      obtain ⟨ck, hck₀, hl⟩ := (ha.trans h.toAlike).before hck
      obtain ⟨-, pk₀, hpk₀, hmem⟩ := hwf.parent c ck p hck₀ ((links_iff.mp hl).2.1 ▸ hp)
      obtain rfl := Option.some.inj (hk.symm.trans hpk₀)
      exact hc c hmem ck' hck
    · obtain rfl := heq hpk
      exact h.closed c ck' p pk₂ pk' hck hp hpk₂ hpk' hd hd'

theorem clean_unmarked {k : ℕ} {key : Key} (h : Lowered cm (r.updateKey k Key.unmark) r')
    (hk : r.keys k = some key) : r'.Clean k :=
  h.clean fun key' hk' => by
    simp only [Tree.updateKey_keys, if_true, hk, Option.map_some, Option.some.injEq] at hk'
    rw [← hk']
    exact .inr rfl

end Lowered

theorem wp_cleanList {fuel : ℕ}
    (ih : ∀ {c : ℕ} {s : State}, s.toTree.Wf cm → c < s.nextKey → s.nextKey ≤ c + fuel →
      wp (cleanDown fuel c) (fun _ s' => Lowered cm s.toTree s'.toTree ∧ s'.toTree.Clean c ∧
        ∀ i, ¬ s.toTree.Beneath c i → s'.keys i = s.keys i) NotEndless s)
    {l : List ℕ} {s : State} (hwf : s.toTree.Wf cm) (hl : ∀ c ∈ l, c < s.nextKey ∧ s.nextKey ≤ c + fuel) :
    wp (forM l (cleanDown fuel)) (fun _ s' => Lowered cm s.toTree s'.toTree ∧
      (∀ c ∈ l, s'.toTree.Clean c) ∧
        ∀ i, (∀ c ∈ l, ¬ s.toTree.Beneath c i) → s'.keys i = s.keys i) NotEndless s := by
  induction l generalizing s with
  | nil =>
    simp only [List.forM_nil, wp_pure]
    exact ⟨.refl _, by simp only [List.not_mem_nil, false_implies, implies_true], fun i _ => trivial⟩
  | cons c l ihl =>
    simp only [List.forM_cons, wp_bind]
    refine wp_mono (ih hwf (hl c List.mem_cons_self).1 (hl c List.mem_cons_self).2) ?_
    rintro _ s₁ ⟨hlow, hclean, hout⟩
    refine wp_mono (ihl (hlow.wf hwf) (fun d hd => ?_)) ?_
    · rw [hlow.last]
      exact hl d (List.mem_cons_of_mem _ hd)
    · rintro _ s₂ ⟨hlow', hclean', hout'⟩
      refine ⟨hlow.trans hlow', fun d hd => ?_, fun i hi => ?_⟩
      · rcases List.mem_cons.mp hd with rfl | hd
        · exact hlow'.clean hclean
        · exact hclean' d hd
      · rw [hout' i fun d hd hb => hi d (List.mem_cons_of_mem _ hd) (hlow.toSameLinks.beneath hb)]
        exact hout i (hi c List.mem_cons_self)

theorem wp_cleanDown {fuel k : ℕ} {s : State} (hwf : s.toTree.Wf cm) (hlt : k < s.nextKey)
    (hfuel : s.nextKey ≤ k + fuel) :
    wp (cleanDown fuel k) (fun _ s' => Lowered cm s.toTree s'.toTree ∧ s'.toTree.Clean k ∧
      ∀ i, ¬ s.toTree.Beneath k i → s'.keys i = s.keys i) NotEndless s := by
  induction fuel generalizing s k with
  | zero => exact absurd hfuel (Nat.not_le_of_lt hlt)
  | succ fuel ih =>
    unfold cleanDown
    simp only [wp_bind]
    refine wp_getKey fun key hk => ?_
    by_cases hflags : (key.flags.volatile || !key.flags.dirty) = true
    · simp only [hflags, if_true, wp_pure]
      refine ⟨.refl _, fun key' hk' => ?_, fun i _ => trivial⟩
      obtain rfl := Option.some.inj (hk.symm.trans hk')
      simpa using hflags
    · simp only [hflags, Bool.false_eq_true, if_false, wp_bind, wp_modifyKey]
      have hs := hwf.sound k key hk
      have hwf' : (s.toTree.updateKey k Key.unmark).Wf cm :=
        hwf.updateKey hk rfl (hs.flags fun h => h)
      refine wp_mono (wp_cleanList (fun h h' h'' => ih h h' h'') hwf' (l := key.subkeys)
        fun c hc => ?_) ?_
      · have hkc := hwf.child_gt hk hc
        obtain ⟨ck, hck, -⟩ := hwf.child k key hk c hc
        have hcl := hwf.lt hck
        exact ⟨hcl, show s.nextKey ≤ c + fuel by omega⟩
      · rintro _ s' ⟨hlow, hclean, hout⟩
        exact ⟨hlow.after_unmark hk hwf hclean, hlow.clean_unmarked hk, fun i hi => by
          rw [hout i fun c hc hb => hi (Tree.Beneath.sub .refl hk hc |>.trans
            ((Tree.updateKey_same (f := Key.unmark) hk rfl).beneath hb))]
          have hne : i ≠ k := fun he => hi (he ▸ .refl)
          simp only [Tree.updateKey_keys, hne, if_false]⟩

end Wine.Registry
