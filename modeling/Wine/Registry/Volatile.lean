import Wine.Registry.SortedMap

/-!
# Volatile keys

`create_key` looks only at the key that a request starts from. As long as no path leads from a key
that is not volatile to a volatile one and on to a key that is missing, all that lies below a volatile
key is volatile.
-/

namespace Wine.Registry
open Wine.Lib

variable {cm : CaseMap}

/-- The state in which a request is carried out. -/
def State.cleared (s : State) : State := { s with error := none }

theorem step_ok {s s' : State} {a : Action} (hst : step cm s a = .ok s') :
    ∃ u, perform cm a s.cleared = .ok (u, s') := by
  unfold step at hst
  cases hp : perform cm a { s with error := none } with
  | error e =>
    rw [hp] at hst
    cases hst
  | ok res =>
    rw [hp] at hst
    exact ⟨res.1, by rw [← Except.ok.inj hst]; exact hp⟩

/-- What one guarded step keeps. -/
theorem step_keeps {h q : Prop} {s s' : State} {a : Action} (hi : Inv cm s.toTree)
    (hst : step cm s a = .ok s') (hh : h → GuardVolatile cm s.cleared a)
    (hq : q → GuardValues cm s.cleared a ∧ ¬ a.IsSave) : Keeps cm h q s.toTree s'.toTree := by
  obtain ⟨u, hp⟩ := step_ok hst
  have hw := wp_perform (s := s.cleared) (r := s.toTree) (.refl hi) hh hq
  have hk := wp_of_ok hw hp
  exact hk

theorem run_hereditary {s₀ s : State} {as : List Action} {ok : State → Action → Prop}
    (hr : Run (step cm) ok s₀ as s) (hok : ∀ t a, ok t a → GuardVolatile cm t.cleared a)
    (hi : Inv cm s₀.toTree) (hh : s₀.toTree.Hereditary) :
    Inv cm s.toTree ∧ s.toTree.Hereditary := by
  refine Run.invariant (I := fun s => Inv cm s.toTree ∧ s.toTree.Hereditary) hr ⟨hi, hh⟩ ?_
  rintro t a t' ⟨hit, hht⟩ hg hst
  have hk : Keeps cm True False t.toTree t'.toTree :=
    step_keeps hit hst (fun _ => hok t a hg) False.elim
  exact ⟨hk.inv, hk.heredity trivial hht⟩

/-- A request for a key that is not volatile, from a volatile key, is refused. -/
theorem createKey_refused {s : State} {p : ℕ} {key : Key} {path className : List WChar}
    {flags : KeyFlags} {modif : ℤ} (hkey : s.keys p = some key) (hlive : key.flags.deleted = false)
    (hv : key.flags.volatile = true) (hf : flags.volatile = false) :
    createKey cm p path className flags modif s =
      .ok (none, { s with error := some .childMustBeVolatile }) := by
  refine eq_of_wp ?_
  unfold createKey getKey
  simp only [wp_bind, wp_get, hkey, wp_pure, hlive, hv, hf, Bool.false_eq_true, if_false,
    Bool.not_false, Bool.and_self, if_true, wp_setError, and_self]

/-- Under the guard, volatility is inherited in every state, and a request that would create a key
that is not volatile below a volatile one fails and changes nothing. -/
theorem volatile_inherited {system userdef user : Option (List Input)} {grants : ℕ → Bool}
    {stale : ℕ → BitVec 16} {now : ℤ} {u : PUnit} {s₀ s : State} {as : List Action}
    (hinit : initRegistry cm system userdef user (State.blank grants stale now) = .ok (u, s₀))
    (hr : Run (step cm) (fun t a => GuardVolatile cm t.cleared a) s₀ as s) :
    s.toTree.Hereditary ∧
      ∀ parent (name className : ReqString) modif p key d dk,
        GuardVolatile cm s.cleared (.createKey parent name className false modif) →
          Starts s parent p → s.keys p = some key → key.flags.deleted = false →
            pathValid (requestPath cm parent name.1 className.1) = true →
              s.toTree.Leaves cm p (pathTokens (requestPath cm parent name.1 className.1)) d →
                s.keys d = some dk → dk.flags.volatile = true →
                  step cm s (.createKey parent name className false modif) =
                    .ok { s with error := some .childMustBeVolatile } := by
  have hs := init_starting hinit
  obtain ⟨-, hh⟩ := run_hereditary hr (fun _ _ h => h) hs.inv hs.flat.hereditary
  refine ⟨hh, ?_⟩
  intro parent name className modif p key d dk hg hp hkey hlive hvalid hleaves hdk hv
  have hpv : key.flags.volatile = true := by
    by_contra hn
    exact hg p hp ⟨rfl, hvalid, ⟨key, hkey, hlive, by simpa using hn⟩, d, dk, hleaves, hdk, hv⟩
  have hskip : ¬ name.1.length < rootSkip cm parent.isNone (name.1 ++ className.1) := by
    intro hlt
    obtain ⟨done, tok, rest, htoks, -⟩ := hleaves
    rw [requestPath, List.drop_eq_nil_of_le (Nat.le_of_lt hlt)] at htoks
    exact List.append_ne_nil_of_right_ne_nil done (List.cons_ne_nil tok rest) htoks.symm
  have hreq : perform cm (.createKey parent name className false modif) s.cleared =
      .ok (⟨⟩, { s with error := some .childMustBeVolatile }) := by
    refine eq_of_wp ?_
    simp only [perform, reqCreateKey, if_neg hskip, wp_bind]
    refine wp_getParentHkeyObj (fun p' hp' => ?_) fun hn => absurd hp (hn p)
    obtain rfl : p' = p := hp'.unique hp
    simp only [wp_bind]
    refine wp_iff.mpr ⟨fun c s' hok => ?_, fun e herr => ?_⟩
    · rw [createKey_refused (s := s.cleared) hkey hlive hpv rfl] at hok
      obtain ⟨rfl, rfl⟩ := Prod.mk.inj (Except.ok.inj hok)
      exact ⟨trivial, rfl⟩
    · rw [createKey_refused (s := s.cleared) hkey hlive hpv rfl] at herr
      cases herr
  show (perform cm (.createKey parent name className false modif) s.cleared).map Prod.snd = _
  rw [hreq]
  rfl

/-- `Machine\V` and an attempt to create a lasting key below it. -/
theorem volatile_inherited_sample : ∃ s : State, s.toTree.Hereditary ∧
    step asciiCaseMap s (.createKey (some 5) (sampleString (wide "N")) (sampleString []) false 0) =
      .ok { s with error := some .childMustBeVolatile } := by
  obtain ⟨u, s₀, s, hinit, hr, hp⟩ := boot_run asciiCaseMap (fun _ => true) (fun _ => 0) 1
    (q := fun t a => GuardVolatile asciiCaseMap t.cleared a)
    (g := fun _ a => match a with
      | .createKey _ _ _ volatile _ => volatile
      | _ => false)
    (p := fun s => (s.keys 5).any fun key => key.flags.volatile && !key.flags.deleted &&
      key.subkeys.isEmpty && s.handles.contains 5)
    (l := [.createKey none (sampleString (wide "Machine\\V")) (sampleString []) true 0])
    (fun t a hg => by
      cases a with
      | createKey parent name className volatile modif =>
        obtain rfl : volatile = true := hg
        rintro p - ⟨hv, -⟩
        cases hv
      | _ => cases hg)
    (by decide +kernel)
  cases hkey : s.keys 5 with
  | none =>
    rw [hkey] at hp
    cases hp
  | some key =>
    rw [hkey, Option.any_some] at hp
    simp only [Bool.and_eq_true, Bool.not_eq_true', List.isEmpty_iff, List.contains_eq_mem,
      decide_eq_true_eq] at hp
    obtain ⟨⟨⟨hv, hlive⟩, hleaf⟩, hm⟩ := hp
    obtain ⟨hh, hrefuse⟩ := volatile_inherited hinit hr
    refine ⟨s, hh, hrefuse (some 5) _ _ 0 5 key 5 key ?_ ⟨rfl, hm⟩ hkey hlive (by decide) ?_ hkey hv⟩
    · rintro p ⟨rfl, -⟩ ⟨-, -, ⟨key', hkey', -, hv'⟩, -⟩
      obtain rfl := Option.some.inj (hkey.symm.trans hkey')
      rw [hv] at hv'
      cases hv'
    · refine ⟨[], wide "N", [], by decide, rfl, fun key' hkey' c hc => ?_⟩
      obtain rfl := Option.some.inj (hkey.symm.trans hkey')
      rw [hleaf] at hc
      cases hc

/-- A lasting key below a volatile one: `Machine\V` is volatile, and `Machine\V\N`, created from the
root, is not. -/
theorem lasting_below_volatile : ∃ u s₀ s,
    initRegistry asciiCaseMap none none none (State.blank (fun _ => true) (fun _ => 0) 1) =
      .ok (u, s₀) ∧
        Run (step asciiCaseMap) (fun _ _ => True) s₀
          [.createKey none (sampleString (wide "Machine\\V")) (sampleString []) true 0,
            .createKey none (sampleString (wide "Machine\\V\\N")) (sampleString []) false 0] s ∧
          s.error = none ∧ ∃ ck pk, s.keys 6 = some ck ∧ ck.parent = some 5 ∧ s.keys 5 = some pk ∧
            pk.flags.volatile = true ∧ ck.flags.volatile = false := by
  obtain ⟨u, s₀, s, hinit, hr, hp⟩ := boot_run asciiCaseMap (fun _ => true) (fun _ => 0) 1
    (q := fun _ _ => True) (g := fun _ _ => true)
    (p := fun s => s.error = none ∧ (s.keys 6).any (fun ck => ck.parent = some 5 ∧
      ck.flags.volatile = false) ∧ (s.keys 5).any fun pk => pk.flags.volatile)
    (l := [.createKey none (sampleString (wide "Machine\\V")) (sampleString []) true 0,
      .createKey none (sampleString (wide "Machine\\V\\N")) (sampleString []) false 0])
    (fun _ _ _ => trivial) (by decide +kernel)
  simp only [decide_eq_true_eq, Option.any_eq_true] at hp
  obtain ⟨herr, ⟨ck, hck, hcp, hcv⟩, pk, hpk, hpv⟩ := hp
  exact ⟨u, s₀, s, hinit, hr, herr, ck, pk, hck, hcp, hpk, hpv, hcv⟩

/-! ## Clean branches -/

/-- The keys that are saved with `k`: no volatile key is on the way to them. -/
inductive Tree.Lasting (r : Tree) (k : ℕ) : ℕ → Prop
  | root : Lasting r k k
  | sub {i c : ℕ} {key : Key} : Lasting r k i → r.keys i = some key → c ∈ key.subkeys →
      r.Persists c → Lasting r k c

/-- What is saved of a key is the same in both trees. -/
def Tree.SavesSame (r r' : Tree) (k : ℕ) : Prop :=
  ∃ key key', r.keys k = some key ∧ r'.keys k = some key' ∧ key.name = key'.name ∧
    key.values = key'.values ∧
      ∀ c, (c ∈ key.subkeys ∧ r.Persists c) ↔ c ∈ key'.subkeys ∧ r'.Persists c

/-- No branch is written, and no load leaves a value without its data. -/
def Unsaved (cm : CaseMap) (s : State) (a : Action) : Prop :=
  GuardValues cm s.cleared a ∧ ∀ i, a ≠ .saveBranch i true

theorem step_quiet {s s' : State} {a : Action} (hi : Inv cm s.toTree) (hg : Unsaved cm s a)
    (hst : step cm s a = .ok s') : s.toTree.Quiet s'.toTree := by
  have hkeeps : ¬a.IsSave → s.toTree.Quiet s'.toTree := fun hsave =>
    (step_keeps (h := False) (q := True) hi hst False.elim fun _ => ⟨hg.1, hsave⟩).quiet trivial
  cases a with
  | saveBranch j written =>
    cases written with
    | true => exact absurd rfl (hg.2 j)
    | false =>
      -- a save that fails leaves every mark
      obtain ⟨u, hp⟩ := step_ok hst
      have htree : s'.toTree = s.toTree := by
        refine wp_of_ok (Q := fun _ t => t.toTree = s.toTree) (E := NotEndless) ?_ hp
        simp only [perform, wp_bind, wp_get]
        cases s.cleared.branches[j]? with
        | none => exact rfl
        | some k =>
          unfold saveBranch
          simp only [wp_bind]
          refine wp_getKey fun key _ => ?_
          simp only [wp_ite, wp_pure, Bool.false_eq_true]
          exact ⟨fun _ => rfl, fun _ => ⟨False.elim, fun _ => rfl⟩⟩
      exact htree ▸ Tree.QuietBut.refl ..
  | _ => exact hkeeps id

theorem run_quiet {s s' : State} {as : List Action} (hr : Run (step cm) (Unsaved cm) s as s')
    (hi : Inv cm s.toTree) : Inv cm s'.toTree ∧ s.toTree.Quiet s'.toTree := by
  have hrefl : s.toTree.Quiet s.toTree := .refl _ _
  refine Run.invariant (I := fun t => Inv cm t.toTree ∧ s.toTree.Quiet t.toTree) hr ⟨hi, hrefl⟩ ?_
  rintro t a t' ⟨hit, hqt⟩ hg hst
  exact ⟨step_inv hit hst, hqt.trans (step_quiet hit hg hst)⟩

/-- A key that is saved with a clean one is clean. -/
theorem Tree.Lasting.clean {r : Tree} {k i : ℕ} (h : r.Lasting k i) (hr : Inv cm r) {key : Key}
    (hk : r.keys k = some key) (hv : key.flags.volatile = false) (hd : key.flags.dirty = false) :
    ∃ key, r.keys i = some key ∧ key.flags.volatile = false ∧ key.flags.dirty = false := by
  induction h with
  | root => exact ⟨key, hk, hv, hd⟩
  | @sub i c pk _ hpk hc hp ih =>
    obtain ⟨pk', hpk', hpv, hpd⟩ := ih
    obtain rfl := Option.some.inj (hpk.symm.trans hpk')
    obtain ⟨ck, hck, hcv⟩ := hp
    obtain ⟨ck', hck', hparent⟩ := hr.wf.child i pk hpk c hc
    obtain rfl := Option.some.inj (hck.symm.trans hck')
    refine ⟨ck, hck, hcv, Bool.eq_false_iff.mpr fun hdirty => ?_⟩
    have hup := hr.dirtyUp c ck i pk hck hparent hpk hcv hdirty
    rw [hpv, hpd] at hup
    exact hup.elim Bool.false_ne_true Bool.false_ne_true

/-- Whatever was done since it was saved, a branch that is clean has the contents it had then. -/
theorem clean_branch_kept {system userdef user : Option (List Input)} {grants : ℕ → Bool}
    {stale : ℕ → BitVec 16} {now : ℤ} {u : PUnit} {s₀ s s' : State} {as bs : List Action} {k i : ℕ}
    {root : Key} (hinit : initRegistry cm system userdef user (.blank grants stale now) = .ok (u, s₀))
    (hr₀ : Run (step cm) (fun _ _ => True) s₀ as s) (hr : Run (step cm) (Unsaved cm) s bs s')
    (hk : s'.keys k = some root) (hv : root.flags.volatile = false)
    (hd : root.flags.dirty = false) (hi : s'.toTree.Lasting k i) :
    s.toTree.SavesSame s'.toTree i := by
  obtain ⟨hinv, hquiet⟩ := run_quiet hr (run_inv hr₀ (init_starting hinit).inv)
  obtain ⟨key', hk', hv', hd'⟩ := hi.clean hinv hk hv hd
  obtain ⟨key, hkey, -, -, hn, hval, hsub⟩ := hquiet.same i key' not_false hk' hv' hd'
  exact ⟨key, key', hkey, hk', hn, hval, hsub⟩

/-- `Machine` is as clean with the volatile key `Machine\V` as without it. -/
theorem clean_branch_kept_sample : ∃ s s' : State, s.toTree.SavesSame s'.toTree 1 := by
  obtain ⟨u, s₀, s, hinit, hr, hp⟩ := boot_run asciiCaseMap (fun _ => true) (fun _ => 0) 1
    (q := Unsaved asciiCaseMap) (g := fun _ a => a matches .createKey ..)
    (p := fun s => (s.keys 1).any fun key => !key.flags.volatile && !key.flags.dirty)
    (l := [.createKey none (sampleString (wide "Machine\\V")) (sampleString []) true 0])
    (fun t a hg => by
      cases a with
      | createKey => exact ⟨trivial, fun i h => by cases h⟩
      | _ => cases hg)
    (by decide +kernel)
  cases hk : s.keys 1 with
  | none =>
    rw [hk] at hp
    cases hp
  | some root =>
    rw [hk] at hp
    simp only [Option.any_some, Bool.and_eq_true, Bool.not_eq_true'] at hp
    exact ⟨s₀, s, clean_branch_kept hinit .nil hr hk hp.1 hp.2 .root⟩

end Wine.Registry
