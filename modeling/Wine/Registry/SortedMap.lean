import Wine.Registry.Init

/-!
# The registry as a sorted map

In every registry that the server can reach, the subkeys and the values of a key are sorted by name
without regard to case, so that a binary search finds a name exactly when it is there, and a path
leads back to the key that was created with it.
-/

namespace Wine.Registry
open Wine.Lib

variable {cm : CaseMap}

/-! ## Paths up to backslashes -/

/-- The names in a path, however many backslashes stand between and after them. -/
def components (path : List WChar) : List (List WChar) :=
  (path.splitOn backslash).filter (· ≠ [])

theorem components_dropWhile (path : List WChar) :
    components (path.dropWhile (· = backslash)) = components path := by
  induction path with
  | nil => rfl
  | cons c path ih =>
    by_cases hc : c = backslash
    · subst hc
      rw [List.dropWhile_cons_of_pos (by simp), ih]
      have hs := List.splitOn_append_cons_self (a := backslash) [] path
      rw [List.nil_append, List.splitOn_nil] at hs
      simp only [components, hs, List.singleton_append, ne_eq, not_true_eq_false, decide_false,
        Bool.false_eq_true, not_false_eq_true, List.filter_cons_of_neg]
    · rw [List.dropWhile_cons_of_neg (by simpa using hc)]

/-- A name with what follows it. -/
theorem components_append {tok rest : List WChar} (ht : tok ≠ []) (hn : backslash ∉ tok)
    (hr : rest.head? = none ∨ rest.head? = some backslash) :
    components (tok ++ rest) = tok :: components rest := by
  cases rest with
  | nil =>
    rw [List.append_nil, components, List.splitOn_eq_singleton hn, List.filter_cons_of_pos (by simpa using ht)]
    rfl
  | cons c rest =>
    obtain rfl : c = backslash := by simpa using hr
    have hs := List.splitOn_append_cons_self (a := backslash) tok rest
    rw [List.splitOn_eq_singleton hn] at hs
    rw [components, hs, List.singleton_append, List.filter_cons_of_pos (by simpa using ht)]
    have hd := components_dropWhile (backslash :: rest)
    rw [List.dropWhile_cons_of_pos (by simp), components_dropWhile] at hd
    rw [← hd]
    rfl

theorem tokensFrom_eq {n : ℕ} {rest : List WChar} (hn : rest.length ≤ n) :
    tokensFrom n rest = components rest := by
  induction n generalizing rest with
  | zero =>
    rw [List.length_eq_zero_iff.mp (Nat.le_zero.mp hn)]
    rfl
  | succ n ih =>
    unfold tokensFrom
    rw [getPathToken_eq, ← components_dropWhile rest]
    have hdrop := (@List.dropWhile_suffix _ rest fun c : WChar => decide (c = backslash)).length_le
    have hhead : ∀ c, (rest.dropWhile (· = backslash)).head? = some c → c ≠ backslash := by
      intro c hc he
      have hh := List.head?_dropWhile_not (fun c : WChar => decide (c = backslash)) rest
      rw [hc] at hh
      simp [he] at hh
    generalize rest.dropWhile (· = backslash) = d at hdrop hhead ⊢
    have hsplit := List.takeWhile_append_dropWhile (p := fun c : WChar => decide (c ≠ backslash)) (l := d)
    by_cases ht : d.takeWhile (· ≠ backslash) = []
    · rw [if_pos ht]
      cases d with
      | nil => rfl
      | cons c d =>
        rw [List.takeWhile_cons_of_pos (by simpa using hhead c rfl)] at ht
        cases ht
    · rw [if_neg ht]
      have hlen : 0 < (d.takeWhile (· ≠ backslash)).length := List.length_pos_iff.mpr ht
      have hsum := congrArg List.length hsplit
      rw [List.length_append] at hsum
      have hle : (d.dropWhile (· ≠ backslash)).length ≤ n := by omega
      rw [ih hle]
      conv_rhs => rw [← hsplit]
      refine (components_append ht (fun hm => ?_) ?_).symm
      · have := List.mem_takeWhile_imp hm
        simp at this
      · cases hd : (d.dropWhile (· ≠ backslash)).head? with
        | none => exact .inl rfl
        | some c =>
          have hh := List.head?_dropWhile_not (fun c : WChar => decide (c ≠ backslash)) d
          rw [hd] at hh
          right
          simpa using hh

theorem pathTokens_eq (path : List WChar) : pathTokens path = components path :=
  tokensFrom_eq (Nat.le_refl _)

/-! ## Runs -/

/-- What holds of every registry that the server can reach. -/
theorem step_inv {s s' : State} {a : Action} (hi : Inv cm s.toTree) (hst : step cm s a = .ok s') :
    Inv cm s'.toTree := by
  unfold step at hst
  cases hp : perform cm a { s with error := none } with
  | error e =>
    rw [hp] at hst
    cases hst
  | ok res =>
    rw [hp] at hst
    obtain rfl := Except.ok.inj hst
    have hw := wp_perform (h := False) (q := False) (s := { s with error := none }) (a := a)
      (r := s.toTree) (.refl hi) False.elim False.elim
    exact (wp_of_ok hw hp).inv

theorem run_inv {s₀ s : State} {as : List Action} {ok : State → Action → Prop}
    (hr : Run (step cm) ok s₀ as s) (hi : Inv cm s₀.toTree) : Inv cm s.toTree :=
  Run.invariant (I := fun s => Inv cm s.toTree) hr hi fun _ _ _ ht _ hst => step_inv ht hst

theorem init_starting {system userdef user : Option (List Input)} {grants : ℕ → Bool}
    {stale : ℕ → BitVec 16} {now : ℤ} {u : PUnit} {s₀ : State}
    (h : initRegistry cm system userdef user (State.blank grants stale now) = .ok (u, s₀)) :
    Starting cm s₀.toTree := by
  exact wp_of_ok (Q := fun _ s => Starting cm s.toTree)
    (wp_initRegistry system userdef user grants stale now) h

/-! ## The map -/

/-- Two names that differ in case only. -/
def EqualCase (cm : CaseMap) (name name' : List WChar) : Prop :=
  name.map cm.tolowerW = name'.map cm.tolowerW

theorem fold_eq_iff {name name' : List WChar} : fold cm name = fold cm name' ↔
    EqualCase cm name name' := by
  have hf : ∀ l : List WChar, fold cm l = (l.map cm.tolowerW).map BitVec.toNat := by
    intro l
    rw [List.map_map]
    rfl
  rw [hf, hf]
  exact (List.map_injective_iff.mpr fun _ _ => BitVec.eq_of_toNat_eq).eq_iff

/-- What a key of a sorted tree satisfies. -/
structure SortedKey (cm : CaseMap) (r : Tree) (k : ℕ) (key : Key) : Prop where
  subkeysSorted : (key.subkeys.map r.nameOf).Pairwise fun a b => nameOrder cm a b < 0
  subkeysFit : key.subkeys.length ≤ key.nbSubkeys
  valuesSorted : (key.values.map KeyValue.name).Pairwise fun a b => nameOrder cm a b < 0
  valuesFit : key.values.length ≤ key.nbValues
  container : ∀ c ∈ key.subkeys, ∃ ck, r.keys c = some ck ∧ ck.parent = some k
  detached : key.flags.deleted = true → key.parent = none ∧ key.subkeys = []
  findSubkey : ∀ name : ReqString, (∃ i, findSubkey cm r key name.1 = .found i) ↔
    ∃ c ∈ key.subkeys, EqualCase cm (r.nameOf c) name.1
  subkeyFound : ∀ (name : ReqString) i, Registry.findSubkey cm r key name.1 = .found i →
    ∃ c, key.subkeys[i]? = some c ∧ EqualCase cm (r.nameOf c) name.1
  findValue : ∀ name : ReqString, (∃ i, findValue cm key name.1 = .found i) ↔
    ∃ v ∈ key.values, EqualCase cm v.name name.1
  valueFound : ∀ (name : ReqString) i, Registry.findValue cm key name.1 = .found i →
    ∃ v, key.values[i]? = some v ∧ EqualCase cm v.name name.1

theorem sorted_order {names : List (List WChar)} (hs : (names.map (fold cm)).Pairwise (· < ·))
    (hshort : ∀ a ∈ names, a.length ≤ maxNameLen) :
    names.Pairwise fun a b => nameOrder cm a b < 0 := by
  refine (List.pairwise_map.mp hs).imp_of_mem ?_
  intro a b ha hb hlt
  exact (nameOrder_neg_iff (hshort a ha) (hshort b hb)).mpr hlt

theorem Tree.Wf.sortedKey {r : Tree} (h : r.Wf cm) {k : ℕ} {key : Key} (hk : r.keys k = some key) :
    SortedKey cm r k key where
  subkeysSorted := sorted_order (h.names_sorted hk) h.names_short
  subkeysFit := (h.sound k key hk).subkeysFit
  valuesSorted := sorted_order (h.sound k key hk).names_sorted (h.sound k key hk).names_short
  valuesFit := (h.sound k key hk).valuesFit
  container := h.child k key hk
  detached := (h.sound k key hk).detached
  findSubkey name := by
    simp only [← fold_eq_iff]
    exact h.findSubkey_iff hk name.2
  subkeyFound name i hf := by
    rw [Tree.findSubkey_eq] at hf
    obtain ⟨hi, he⟩ := (Tree.compares_subkeys r key name.1).found h.names_short name.2 hf
    rw [List.length_map] at hi
    rw [List.getElem_map] at he
    exact ⟨_, List.getElem?_eq_getElem hi, fold_eq_iff.mp he⟩
  findValue name := by
    simp only [← fold_eq_iff]
    exact (h.sound k key hk).findValue_iff name.2
  valueFound name i hf := by
    obtain ⟨hi, he⟩ := (h.sound k key hk).findValue_found name.2 hf
    exact ⟨_, List.getElem?_eq_getElem hi, fold_eq_iff.mp he⟩

/-- A path leads to the key that was created with it. -/
theorem openKey_created {s s' : State} (hi : Inv cm s.toTree) {k k' : ℕ} {path path' : ReqString}
    {className : List WChar} {flags : KeyFlags} {modif : ℤ} (hdel : flags.deleted = false)
    (hc : createKey cm k path.1 className flags modif s = .ok (some k', s'))
    (hvalid : pathValid path'.1 = true) (hsame : components path'.1 = components path.1) :
    openKey cm k path'.1 s' = .ok (some k', s') := by
  have hw := wp_of_ok (wp_createKey (h := False) (q := False) (r := s.toTree) (.refl hi)
    path.2 hdel False.elim False.elim) hc
  obtain ⟨done, rest, d, hsplit, hdone, hrest, -⟩ := hw.path k' rfl
  have hl : s'.toTree.Leads cm k (pathTokens path'.1) k' := by
    rw [pathTokens_eq, hsame, ← pathTokens_eq, hsplit]
    exact (hdone.kept hw.kept hi.wf.toLinked hw.keeps.wf.toLinked).append hrest.leads
  have ho := wp_openTokens hw.keeps.wf
    (fun tok ht => Nat.lt_of_le_of_lt (pathTokens_mem ht).2 path'.2) hl
  unfold openKey
  rw [if_pos hvalid]
  exact eq_of_wp ho

/-- Every registry that the server can reach is sorted, and paths lead back to the keys that were
created with them. -/
theorem registry_sorted {system userdef user : Option (List Input)} {grants : ℕ → Bool}
    {stale : ℕ → BitVec 16} {now : ℤ} {u : PUnit} {s₀ s : State} {as : List Action}
    (hinit : initRegistry cm system userdef user (State.blank grants stale now) = .ok (u, s₀))
    (hr : Run (step cm) (fun _ _ => True) s₀ as s) :
    (∀ k key, s.keys k = some key → SortedKey cm s.toTree k key) ∧
      ∀ k (path className : ReqString) flags modif k' s', flags.deleted = false →
        createKey cm k path.1 className.1 flags modif s = .ok (some k', s') →
          ∀ path' : ReqString, pathValid path'.1 = true → components path'.1 = components path.1 →
            openKey cm k path'.1 s' = .ok (some k', s') := by
  have hi := run_inv hr (init_starting hinit).inv
  refine ⟨fun k key hk => hi.wf.sortedKey hk, ?_⟩
  intro k path className flags modif k' s' hdel hc path' hvalid hsame
  exact openKey_created hi hdel hc hvalid hsame

/-- The initialisation without files, followed by a run. -/
theorem boot_run (cm : CaseMap) (grants : ℕ → Bool) (stale : ℕ → BitVec 16) (now : ℤ)
    {q : State → Action → Prop} {g : State → Action → Bool} {p : State → Bool} {l : List Action}
    (hg : ∀ t a, g t a = true → q t a)
    (h : (match initRegistry cm none none none (State.blank grants stale now) with
      | .ok (_, s₀) => execTo (step cm) g p s₀ l
      | .error _ => false) = true) :
    ∃ u s₀ s, initRegistry cm none none none (State.blank grants stale now) = .ok (u, s₀) ∧
      Run (step cm) q s₀ l s ∧ p s = true := by
  cases hi : initRegistry cm none none none (State.blank grants stale now) with
  | error e =>
    rw [hi] at h
    cases h
  | ok res =>
    rw [hi] at h
    obtain ⟨s, hr, hp⟩ := run_of_execTo hg h
    exact ⟨res.1, res.2, s, rfl, hr, hp⟩

def sampleString (l : List WChar) (h : l.length ≤ 100 := by decide) : ReqString :=
  ⟨l, by rw [maxPathLen_eq]; omega⟩

/-- `a\\b\` leads to the key that was created as `a\b`. -/
theorem registry_sorted_sample : ∃ s k' s',
    createKey asciiCaseMap rootKey (wide "a\\b") [] .keyDirty 0 s = .ok (some k', s') ∧
      openKey asciiCaseMap rootKey (wide "a\\\\b\\") s' = .ok (some k', s') := by
  obtain ⟨u, s₀, s, hinit, hr, hp⟩ := boot_run asciiCaseMap (fun _ => true) (fun _ => 0) 1
    (q := fun _ _ => True) (g := fun _ _ => true)
    (p := fun s => ((createKey asciiCaseMap rootKey (wide "a\\b") [] .keyDirty 0 s).toOption.bind
      (·.1)).isSome)
    (l := [.createKey none (sampleString (wide "User\\new")) (sampleString []) true 0])
    (fun _ _ _ => trivial) (by decide +kernel)
  cases hc : createKey asciiCaseMap rootKey (wide "a\\b") [] .keyDirty 0 s with
  | error e =>
    rw [hc] at hp
    cases hp
  | ok res =>
    obtain ⟨c, s'⟩ := res
    cases c with
    | none =>
      rw [hc] at hp
      cases hp
    | some k' =>
      exact ⟨s, k', s', hc, (registry_sorted hinit hr).2 rootKey (sampleString (wide "a\\b"))
        (sampleString []) .keyDirty 0 k' s' rfl hc (sampleString (wide "a\\\\b\\")) (by decide)
        (by decide)⟩

/-- The loops and recursions over the keys end in every registry that the server can reach. -/
theorem never_endless {system userdef user : Option (List Input)} {grants : ℕ → Bool}
    {stale : ℕ → BitVec 16} {now : ℤ} {u : PUnit} {s₀ s : State} {as : List Action}
    (hinit : initRegistry cm system userdef user (State.blank grants stale now) = .ok (u, s₀))
    (hr : Run (step cm) (fun _ _ => True) s₀ as s) (a : Action) : step cm s a ≠ .error .endless := by
  have hi := run_inv hr (init_starting hinit).inv
  have hw := wp_perform (h := False) (q := False) (s := { s with error := none }) (a := a)
    (r := s.toTree) (.refl hi) False.elim False.elim
  intro hst
  unfold step Except.map at hst
  split at hst
  · next e hp =>
    cases hst
    exact wp_of_error hw hp rfl
  · cases hst

def newKeyRun : List Action :=
  [.createKey none (sampleString (wide "User\\new")) (sampleString []) true 0]

theorem never_endless_sample : ∃ s₀ s, Run (step asciiCaseMap) (fun _ _ => True) s₀ newKeyRun s ∧
    ∀ a, step asciiCaseMap s a ≠ .error .endless := by
  obtain ⟨u, s₀, s, hinit, hr, -⟩ := boot_run asciiCaseMap (fun _ => true) (fun _ => 0) 1
    (q := fun _ _ => True) (g := fun _ _ => true) (p := fun _ => true) (l := newKeyRun)
    (fun _ _ _ => trivial) (by decide +kernel)
  exact ⟨s₀, s, hr, never_endless hinit hr⟩

end Wine.Registry
