import Wine.Registry.Attach

/-!
# The keys that one request creates

`Chain` describes the keys that `create_key` has created so far: the first one below an existing key
`p`, each further one as the only subkey of the one before. `last` are the flags of the last key,
which gets its own only in the round of the loop after its allocation.
-/

namespace Wine.Registry
open Wine.Lib

variable {cm : CaseMap}

namespace Tree

/-- The first key has the number `n`; `b` is the tree that holds nothing but the first key. -/
structure Chain (cm : CaseMap) (flags last : KeyFlags) (p n : ℕ) (toks : List (List WChar))
    (b t : Tree) : Prop where
  inv : Inv cm t
  next : n + toks.length ≤ t.nextKey
  handles : t.handles = b.handles
  branches : t.branches = b.branches
  old : ∀ i, i < n → t.keys i = b.keys i
  new : ∀ j (hj : j < toks.length), ∃ key, t.keys (n + j) = some key ∧ key.name = toks[j] ∧
    key.values = [] ∧ key.flags = (if j + 1 = toks.length then last else flags) ∧
      key.parent = some (if j = 0 then p else n + j - 1) ∧
        key.subkeys = if j + 1 = toks.length then [] else [n + j + 1]
  beyond : ∀ i, n + toks.length ≤ i → t.keys i = none

variable {flags last : KeyFlags} {p n : ℕ} {toks : List (List WChar)} {b t : Tree}

end Tree

theorem Inv.updateFlags {t : Tree} (hi : Inv cm t) {k : ℕ} {key : Key} (hk : t.keys k = some key)
    (hleaf : key.subkeys = []) {f : Key → Key} (hl : (f key).links = key.links)
    (hs : (f key).Sound cm)
    (hup : (f key).flags.volatile = false → (f key).flags.dirty = true →
      ∀ p, key.parent = some p → t.Marked p) : Inv cm (t.updateKey k f) where
  wf := hi.wf.updateKey hk hl hs
  dirtyUp := by
    intro c ck q qk hc hq hqk hv hd
    have hpar := (links_iff.mp hl).2.1
    have hqne : q ≠ k := by
      rintro rfl
      have hw := hi.wf.updateKey hk hl hs
      obtain ⟨-, qk', hqk', hmem⟩ := hw.parent c ck q hc hq
      rw [Tree.updateKey_self hk] at hqk'
      rw [← Option.some.inj hqk', (links_iff.mp hl).2.2.1, hleaf] at hmem
      cases hmem
    rw [Tree.updateKey_other hqne] at hqk
    by_cases hck : c = k
    · subst hck
      rw [Tree.updateKey_self hk, Option.some.injEq] at hc
      subst hc
      exact hup hv hd q (hpar ▸ hq) qk hqk
    · rw [Tree.updateKey_other hck] at hc
      exact hi.dirtyUp c ck q qk hc hq hqk hv hd

theorem Inv.room {t : Tree} (hi : Inv cm t) {k m : ℕ} {key : Key} (hk : t.keys k = some key)
    (hm : key.Room m) : Inv cm (t.room k m) :=
  ((KeepsBut.refl (x := fun _ => False) (h := True) (q := True) hi).room hk hm).inv

theorem KeyFlags.none_or (f : KeyFlags) : KeyFlags.none.or f = f := by
  simp only [KeyFlags.or, KeyFlags.none, Bool.false_or]

namespace Tree.Chain
variable {flags last : KeyFlags} {p n k m : ℕ} {toks : List (List WChar)} {b t : Tree}

/-- The last key of a chain. -/
theorem lastKey (hc : Chain cm flags last p n toks b t) (hk : k + 1 = n + toks.length) (hn : n ≤ k) :
    ∃ key, t.keys k = some key ∧ key.values = [] ∧ key.flags = last ∧ key.subkeys = [] ∧
      key.parent = some (if k = n then p else k - 1) := by
  have hj : k - n < toks.length := by omega
  obtain ⟨key, hkey, -, hval, hfl, hpar, hsub⟩ := hc.new (k - n) hj
  have he : n + (k - n) = k := by omega
  have hl : k - n + 1 = toks.length := by omega
  rw [he] at hkey hpar
  rw [if_pos hl] at hfl hsub
  refine ⟨key, hkey, hval, hfl, hsub, hpar.trans ?_⟩
  by_cases h0 : k = n
  · rw [if_pos h0, if_pos (by omega)]
  · rw [if_neg h0, if_neg (by omega)]

/-- The key above the last one makes up for its dirty mark. -/
theorem marked (hc : Chain cm flags last p n toks b t) (hk : k + 1 = n + toks.length) (hn : n ≤ k)
    (hp : p < n) (hd : flags.dirty = true) (hm : b.Marked p) :
    t.Marked (if k = n then p else k - 1) := by
  intro key hkey
  by_cases h0 : k = n
  · rw [if_pos h0, hc.old p hp] at hkey
    exact hm key hkey
  · rw [if_neg h0] at hkey
    obtain ⟨key', hkey', -, -, hfl, -, -⟩ := hc.new (k - 1 - n) (by omega)
    have he : n + (k - 1 - n) = k - 1 := by omega
    rw [he, hkey, Option.some.injEq] at hkey'
    rw [if_neg (by omega)] at hfl
    rw [hkey', hfl]
    exact .inr hd

theorem setLast (hc : Chain cm flags .none p n toks b t) (hk : k + 1 = n + toks.length) (hn : n ≤ k)
    (hp : p < n) (hdel : flags.deleted = false)
    (hup : flags.volatile = false → flags.dirty = true → b.Marked p) :
    Chain cm flags flags p n toks b
      (t.updateKey k fun key => { key with flags := key.flags.or flags }) := by
  obtain ⟨key, hkey, -, hfl, hsub, hpar⟩ := hc.lastKey hk hn
  have hs := hc.inv.wf.sound k key hkey
  have hor : key.flags.or flags = flags := by rw [hfl, KeyFlags.none_or]
  have hdel' : (key.flags.or flags).deleted = true → key.flags.deleted = true := by
    rw [hor, hdel]
    exact fun h => (by cases h)
  refine ⟨hc.inv.updateFlags hkey hsub ?_ (hs.flags hdel') ?_, hc.next, hc.handles, hc.branches,
    ?_, ?_, ?_⟩
  · refine links_iff.mpr ⟨rfl, rfl, rfl, ?_⟩
    show (key.flags.or flags).deleted = key.flags.deleted
    rw [hor, hfl, hdel]
    rfl
  · simp only [hor]
    intro hv hd q hq
    rw [hpar, Option.some.injEq] at hq
    exact hq ▸ hc.marked hk hn hp hd (hup hv hd)
  · intro i hi
    rw [Tree.updateKey_other (by omega)]
    exact hc.old i hi
  · intro j hj
    obtain ⟨key', hkey', hname, hval, hfl', hpar', hsub'⟩ := hc.new j hj
    by_cases hjk : n + j = k
    · rw [hjk] at hkey' ⊢
      obtain rfl := Option.some.inj (hkey.symm.trans hkey')
      refine ⟨_, Tree.updateKey_self hkey, hname, hval, ?_, by rw [← hjk]; exact hpar', ?_⟩
      · rw [if_pos (by omega)]
        exact hor
      · rw [← hjk]
        exact hsub'
    · refine ⟨key', by rw [Tree.updateKey_other hjk, hkey'], hname, hval, ?_, hpar', hsub'⟩
      rw [if_neg (by omega)] at hfl' ⊢
      exact hfl'
  · intro i hi
    rw [Tree.updateKey_other (by omega)]
    exact hc.beyond i hi

theorem room (hc : Chain cm flags last p n toks b t) (hn : n ≤ k) {key : Key}
    (hkey : t.keys k = some key) (hm : key.Room m) :
    Chain cm flags last p n toks b (t.room k m) := by
  refine ⟨hc.inv.room hkey hm, hc.next, hc.handles, hc.branches, ?_, ?_, ?_⟩
  · intro i hi
    rw [Tree.room, Tree.updateKey_other (by omega)]
    exact hc.old i hi
  · intro j hj
    obtain ⟨key', hkey', h⟩ := hc.new j hj
    by_cases hjk : n + j = k
    · rw [hjk] at hkey' ⊢
      obtain rfl := Option.some.inj (hkey.symm.trans hkey')
      subst hjk
      exact ⟨_, Tree.updateKey_self hkey, h⟩
    · exact ⟨key', by rw [Tree.room, Tree.updateKey_other hjk, hkey'], h⟩
  · intro i hi
    have hne : i ≠ k := fun he => by
      rw [he] at hi
      rw [hc.beyond k hi] at hkey
      cases hkey
    rw [Tree.room, Tree.updateKey_other hne]
    exact hc.beyond i hi

theorem extend (hc : Chain cm flags flags p n toks b t) (hnext : t.nextKey = n + toks.length)
    (hk : k + 1 = n + toks.length) (hn : n ≤ k) {key : Key} (hkey : t.keys k = some key)
    (hfit : key.subkeys.length < key.nbSubkeys) (hdel : flags.deleted = false) {tok : List WChar}
    (hvalid : ValidName tok) (hshort : tok.length ≤ maxNameLen) {modif : ℤ} :
    Chain cm flags .none p n (toks ++ [tok]) b (t.attach k tok 0 modif) := by
  obtain ⟨key₀, hkey₀, hval₀, hfl₀, hsub₀, hpar₀⟩ := hc.lastKey hk hn
  obtain rfl := Option.some.inj (hkey.symm.trans hkey₀)
  have hlt := hc.inv.wf.lt hkey
  have hpl : Place cm t key tok 0 := by
    refine ⟨Nat.zero_le _, ?_, ?_⟩ <;> simp only [hsub₀, List.map_nil, List.take_nil, List.drop_nil,
      List.not_mem_nil, false_implies, implies_true]
  refine ⟨⟨hc.inv.wf.attach hkey (by rw [hfl₀, hdel]) hfit hvalid hshort hpl,
    hc.inv.dirtyUp.attach hkey hlt hc.inv.wf.toLinked⟩, ?_, hc.handles, hc.branches, ?_, ?_, ?_⟩
  · rw [List.length_append]
    show _ ≤ t.nextKey + 1
    rw [hnext]
    simp only [List.length_cons, List.length_nil]
    omega
  · intro i hi
    rw [attach_other (by omega) (by omega)]
    exact hc.old i hi
  · intro j hj
    rw [List.length_append, List.length_singleton] at hj ⊢
    by_cases hjl : j = toks.length
    · subst hjl
      rw [← hnext]
      refine ⟨_, attach_new hlt, ?_, rfl, by rw [if_pos rfl]; rfl, ?_, by rw [if_pos rfl]; rfl⟩
      · simp only [Key.new, List.getElem_concat_length]
      · rw [if_neg (by omega), hnext]
        exact congrArg some (by omega)
    · have hj' : j < toks.length := by omega
      obtain ⟨key', hkey', hname, hval, hfl, hpar, hsub⟩ := hc.new j hj'
      have hlen' : j < (toks ++ [tok]).length := by
        rw [List.length_append]
        exact Nat.lt_add_right _ hj'
      have hnew : (toks ++ [tok]).get ⟨j, hlen'⟩ = toks[j] :=
        List.getElem_append_left hj'
      by_cases hjk : n + j = k
      · rw [hjk] at hkey' ⊢
        obtain rfl := Option.some.inj (hkey.symm.trans hkey')
        refine ⟨_, attach_parent hkey hlt, hname.trans hnew.symm, hval, ?_, by rw [← hjk]; exact hpar,
          ?_⟩
        · rw [if_neg (by omega)]
          exact hfl₀
        · rw [if_neg (by omega), hsub₀, hnext, ← hk]
          rfl
      · refine ⟨key', ?_, hname.trans hnew.symm, hval, ?_, hpar, ?_⟩
        · rw [attach_other hjk (by omega), hkey']
        · rw [if_neg (by omega)] at hfl ⊢
          exact hfl
        · rw [if_neg (by omega)] at hsub ⊢
          exact hsub
  · intro i hi
    rw [List.length_append, List.length_singleton] at hi
    rw [attach_other (by omega) (by omega)]
    exact hc.beyond i (by omega)

end Tree.Chain

/-- The loop of `create_key` extends the chain by one key for each token, or ends early. -/
theorem wp_createRest {E : Fault → Prop} {flags : KeyFlags} {modif : ℤ} {p n : ℕ} {b : Tree} (hp : p < n)
    (hdel : flags.deleted = false)
    (hup : flags.volatile = false → flags.dirty = true → b.Marked p)
    {tokens : List (List WChar)} {toks : List (List WChar)} {k : ℕ} {s : State}
    (hvalid : ∀ tok ∈ tokens, ValidName tok) (hc : Tree.Chain cm flags .none p n toks b s.toTree)
    (hnext : s.nextKey = n + toks.length) (hk : k + 1 = n + toks.length) (hn : n ≤ k) :
    wp (createRest flags modif k tokens) (fun c s' => s'.grants = s.grants ∧
      (s.Granted → (∀ tok ∈ tokens, tok.length ≤ maxNameLen) → c.isSome) ∧
        (c = none → ∃ more, Tree.Chain cm flags flags p n (toks ++ more) b s'.toTree ∧
          s'.nextKey = n + (toks ++ more).length) ∧
        ∀ k', c = some k' → Tree.Chain cm flags flags p n (toks ++ tokens) b s'.toTree ∧
          k' + 1 = n + (toks ++ tokens).length) E s := by
  induction tokens generalizing toks k s with
  | nil =>
    simp only [createRest, wp_bind, wp_modifyKey, wp_pure, List.append_nil]
    refine ⟨trivial, fun _ _ => rfl, fun hc' => (by cases hc'), fun k' hk' => ?_⟩
    rw [← Option.some.inj hk']
    exact ⟨hc.setLast hk hn hp hdel hup, hk⟩
  | cons tok tokens ih =>
    simp only [createRest, wp_bind, wp_modifyKey]
    have hc₁ := hc.setLast hk hn hp hdel hup
    obtain ⟨key, hkey, -, hfl, hsub, -⟩ := hc₁.lastKey hk hn
    have hs := hc₁.inv.wf.sound k key hkey
    refine wp_mono (wp_allocSubkey hkey hs) ?_
    rintro c s₂ ⟨m, ha⟩
    cases c with
    | none =>
      simp only [wp_pure]
      refine ⟨ha.grants, fun hg hshort => ?_, fun _ => ⟨[], ?_⟩, fun k' hk' => (by cases hk')⟩
      · cases ha.granted hg (hshort tok List.mem_cons_self)
      · rw [List.append_nil, ha.failed rfl]
        exact ⟨hc₁.room hn hkey ha.room, hnext⟩
    | some c =>
      obtain ⟨hce, hshort, hlt, ht⟩ := ha.done c rfl
      have hc₂ : Tree.Chain cm flags .none p n (toks ++ [tok]) b s₂.toTree := by
        rw [ht]
        exact (hc₁.room hn hkey ha.room).extend hnext hk hn (Tree.updateKey_self hkey) hlt hdel
          (hvalid tok List.mem_cons_self) hshort
      have hnext₂ : s₂.nextKey = n + (toks ++ [tok]).length := by
        rw [ht, List.length_append, List.length_singleton]
        show s.nextKey + 1 = _
        omega
      have hce' : c = n + toks.length := hce.trans hnext
      have hck : c + 1 = n + (toks ++ [tok]).length := by
        rw [List.length_append, List.length_singleton]
        omega
      refine wp_mono (ih (fun tok' h' => hvalid tok' (List.mem_cons_of_mem _ h')) hc₂ hnext₂ hck
        (by omega)) ?_
      rintro c' s₃ ⟨hg, hgr, hnone, hsome⟩
      refine ⟨hg.trans ha.grants, fun hgs hsh => ?_, fun hc' => ?_, fun k' hk' => ?_⟩
      · exact hgr (fun i => by rw [ha.grants]; exact hgs i)
          fun tok' h' => hsh tok' (List.mem_cons_of_mem _ h')
      · obtain ⟨more, hmore, hnx⟩ := hnone hc'
        rw [List.append_assoc] at hmore hnx
        exact ⟨[tok] ++ more, hmore, hnx⟩
      · have h := hsome k' hk'
        rw [List.append_assoc] at h
        exact h

/-! ## The keys of a chain and the tree before it -/

/-- Trees with the same links and flags satisfy the same invariant. -/
theorem Inv.same {b t : Tree} (hi : Inv cm b) (hl : SameLinks b t)
    (hs : ∀ k key, t.keys k = some key → key.Sound cm)
    (hf : ∀ i key key', b.keys i = some key → t.keys i = some key' → key'.flags = key.flags) :
    Inv cm t where
  wf := ⟨hi.wf.toLinked.same hl, hs⟩
  dirtyUp := by
    intro c ck' p pk' hc hp hpk hv hd
    obtain ⟨ck, hck, hlc⟩ := hl.before hc
    obtain ⟨pk, hpk', -⟩ := hl.before hpk
    have hcf := hf c ck ck' hck hc
    rw [hf p pk pk' hpk' hpk]
    exact hi.dirtyUp c ck p pk hck ((links_iff.mp hlc).2.1 ▸ hp) hpk' (hcf ▸ hv) (hcf ▸ hd)

namespace Tree.Chain
variable {flags : KeyFlags} {p index : ℕ} {toks : List (List WChar)} {r t : Tree} {key : Key}
  {tok : List WChar} {modif : ℤ} {h q : Prop}

theorem keys_cases (hc : Chain cm flags flags p r.nextKey toks (r.attach p tok index modif) t)
    (hk : r.keys p = some key) (hp : p < r.nextKey) {i : ℕ} {key' : Key}
    (hi : t.keys i = some key') :
    (i = p ∧ key' = { key with subkeys := key.subkeys.insertIdx index r.nextKey }) ∨
      (i ≠ p ∧ i < r.nextKey ∧ r.keys i = some key') ∨
        (r.nextKey ≤ i ∧ i < r.nextKey + toks.length ∧ key'.values = [] ∧ key'.flags = flags ∧
          key'.parent = some (if i = r.nextKey then p else i - 1) ∧
            key'.subkeys = (if i + 1 = r.nextKey + toks.length then [] else [i + 1]) ∧
              ∃ h : i - r.nextKey < toks.length, key'.name = toks[i - r.nextKey]) := by
  by_cases hlt : i < r.nextKey
  · rw [hc.old i hlt] at hi
    rcases attach_cases hk hp hi with ⟨rfl, -⟩ | ⟨rfl, rfl⟩ | ⟨hne, -, hr⟩
    · exact absurd hlt (Nat.lt_irrefl _)
    · exact .inl ⟨rfl, rfl⟩
    · exact .inr (.inl ⟨hne, hlt, hr⟩)
  · by_cases hbe : r.nextKey + toks.length ≤ i
    · rw [hc.beyond i hbe] at hi
      cases hi
    · have hj : i - r.nextKey < toks.length := by omega
      have he : r.nextKey + (i - r.nextKey) = i := by omega
      obtain ⟨key₁, hkey₁, hname, hval, hfl, hpar, hsub⟩ := hc.new (i - r.nextKey) hj
      rw [he, hi, Option.some.injEq] at hkey₁
      subst hkey₁
      rw [he] at hpar
      have hfl' : key'.flags = flags := by
        rw [hfl]
        split <;> rfl
      refine .inr (.inr ⟨by omega, by omega, hval, hfl', ?_, ?_, hj, hname⟩)
      · rw [hpar]
        by_cases h0 : i = r.nextKey
        · rw [if_pos (by omega), if_pos h0]
        · rw [if_neg (by omega), if_neg h0]
      · rw [hsub, he]
        by_cases hlast : i + 1 = r.nextKey + toks.length
        · rw [if_pos (by omega), if_pos hlast]
        · rw [if_neg (by omega), if_neg hlast]

theorem older (hc : Chain cm flags flags p r.nextKey toks (r.attach p tok index modif) t)
    (hk : r.keys p = some key) (hp : p < r.nextKey) : r.Older t where
  nextKey := by
    have := hc.next
    omega
  branches := hc.branches
  keys i key' hi hlt := by
    rcases hc.keys_cases hk hp hi with ⟨rfl, rfl⟩ | ⟨-, -, hr⟩ | ⟨hge, -⟩
    · exact ⟨key, hk, rfl, rfl, .inl rfl⟩
    · exact ⟨key', hr, rfl, rfl, .inl rfl⟩
    · omega

theorem kept (hc : Chain cm flags flags p r.nextKey toks (r.attach p tok index modif) t)
    (hk : r.keys p = some key) (hp : p < r.nextKey) (hr : r.Linked cm) (y : ℕ → Prop) :
    r.Kept y (flags.volatile = true) t where
  keys i key' hi := by
    by_cases hip : i = p
    · subst hip
      obtain rfl := Option.some.inj (hk.symm.trans hi)
      exact ⟨_, (hc.old i hp).trans (attach_parent hk hp), rfl, rfl, rfl, fun _ => rfl⟩
    · have hlt := hr.lt hi
      exact ⟨key', by rw [hc.old i hlt, attach_other hip (Nat.ne_of_lt hlt), hi], rfl, rfl, rfl,
        fun _ => rfl⟩
  fresh i key' hi hn hv := by
    rcases hc.keys_cases hk hp hi with ⟨rfl, -⟩ | ⟨-, -, hri⟩ | ⟨-, -, -, hfl, -⟩
    · cases hk.symm.trans hn
    · cases hri.symm.trans hn
    · exact hfl ▸ hv

theorem hereditary (hc : Chain cm flags flags p r.nextKey toks (r.attach p tok index modif) t)
    (hk : r.keys p = some key) (hp : p < r.nextKey) (hl : r.Linked cm) (hr : r.Hereditary)
    (hf : flags.volatile = true ∨ key.flags.volatile = false) : t.Hereditary := by
  intro c ck' d dk' hck hpar hdk hv
  rcases hc.keys_cases hk hp hck with ⟨rfl, rfl⟩ | ⟨hne, hlt, hrc⟩ | ⟨hge, hlt, -, hfl, hpar', -⟩
  · obtain ⟨hdc, dk, hdk₀, -⟩ := hl.parent c key d hk hpar
    rcases hc.keys_cases hk hp hdk with ⟨rfl, -⟩ | ⟨-, -, hrd⟩ | ⟨hge, -⟩
    · exact absurd hdc (Nat.lt_irrefl _)
    · exact hr c key d dk' hk hpar hrd hv
    · omega
  · obtain ⟨hdc, dk, hdk₀, -⟩ := hl.parent c ck' d hrc hpar
    rcases hc.keys_cases hk hp hdk with ⟨rfl, rfl⟩ | ⟨-, -, hrd⟩ | ⟨hge, -⟩
    · exact hr c ck' d key hrc hpar hk hv
    · exact hr c ck' d dk' hrc hpar hrd hv
    · omega
  · rw [hfl]
    rcases hf with hf | hf
    · exact hf
    · rw [hpar', Option.some.injEq] at hpar
      rcases hc.keys_cases hk hp hdk with ⟨rfl, rfl⟩ | ⟨hne, hlt', -⟩ | ⟨-, -, -, hfl', -⟩
      · rw [hf] at hv
        cases hv
      · by_cases h0 : c = r.nextKey
        · rw [if_pos h0] at hpar
          exact absurd hpar.symm hne
        · rw [if_neg h0] at hpar
          omega
      · rw [hfl'] at hv
        exact hv

theorem quiet (hc : Chain cm flags flags p r.nextKey toks (r.attach p tok index modif) t)
    (hk : r.keys p = some key) (hp : p < r.nextKey) (hl : r.Linked cm) (hle : index ≤ key.subkeys.length)
    (hf : flags.volatile = true ∨ flags.dirty = true ∧ r.Marked p) : r.Quiet t where
  same i key' _ hi hv hd := by
    have hpersist : ∀ c, c < r.nextKey → (r.Persists c ↔ t.Persists c) := by
      intro c hcl
      constructor
      · rintro ⟨ck, hck, hcv⟩
        obtain ⟨ck', hck', -, -, hvv, -⟩ := (hc.kept hk hp hl (fun _ => False)).keys c ck hck
        exact ⟨ck', hck', hvv.trans hcv⟩
      · rintro ⟨ck', hck', hcv⟩
        obtain ⟨ck, hck, -, hvv, -⟩ := (hc.older hk hp).keys c ck' hck' hcl
        exact ⟨ck, hck, hvv.symm.trans hcv⟩
    have hmem : ∀ k key₁, r.keys k = some key₁ → ∀ c, c ∈ key₁.subkeys → c < r.nextKey := by
      intro k key₁ hk₁ c hcm
      obtain ⟨ck, hck, -⟩ := hl.child k key₁ hk₁ c hcm
      exact hl.lt hck
    rcases hc.keys_cases hk hp hi with ⟨rfl, rfl⟩ | ⟨hnp, hlt, hr⟩ | ⟨hge, -, -, hfl, -⟩
    · refine ⟨key, hk, hv, hd, rfl, rfl, fun c => ?_⟩
      have hvol : flags.volatile = true := by
        rcases hf with hf | ⟨-, hm⟩
        · exact hf
        · rcases hm key hk with h' | h'
          · rw [h'] at hv
            cases hv
          · rw [h'] at hd
            cases hd
      constructor
      · rintro ⟨hcm, hcp⟩
        exact ⟨(List.mem_insertIdx hle).mpr (.inr hcm), (hpersist c (hmem i key hk c hcm)).mp hcp⟩
      · rintro ⟨hcm, hcp⟩
        rcases (List.mem_insertIdx hle).mp hcm with rfl | hcm
        · obtain ⟨ck, hck, hcv⟩ := hcp
          rcases hc.keys_cases hk hp hck with ⟨rfl, -⟩ | ⟨-, hlt, -⟩ | ⟨-, -, -, hfl, -⟩
          · exact absurd hp (Nat.lt_irrefl _)
          · exact absurd hlt (Nat.lt_irrefl _)
          · rw [hfl, hvol] at hcv
            cases hcv
        · exact ⟨hcm, (hpersist c (hmem i key hk c hcm)).mpr hcp⟩
    · refine ⟨key', hr, hv, hd, rfl, rfl, fun c => ?_⟩
      exact and_congr_right fun hcm => hpersist c (hmem i key' hr c hcm)
    · rw [hfl] at hv hd
      rcases hf with hf | ⟨hf, -⟩
      · rw [hf] at hv
        cases hv
      · rw [hf] at hd
        cases hd

theorem keeps (hc : Chain cm flags flags p r.nextKey toks (r.attach p tok index modif) t)
    (hk : r.keys p = some key) (hl : r.Linked cm) (hle : index ≤ key.subkeys.length)
    (hh : h → flags.volatile = true ∨ key.flags.volatile = false)
    (hq : q → flags.volatile = true ∨ flags.dirty = true ∧ r.Marked p) : Keeps cm h q r t where
  wf := hc.inv.wf
  dirtyUp := hc.inv.dirtyUp
  older := hc.older hk (hl.lt hk)
  heredity hhh hr := hc.hereditary hk (hl.lt hk) hl hr (hh hhh)
  quiet hqq := hc.quiet hk (hl.lt hk) hl hle (hq hqq)

/-- The names along a chain. -/
theorem names (hc : Chain cm flags flags p r.nextKey toks (r.attach p tok index modif) t)
    {j : ℕ} (hj : j < toks.length) : ∃ key', t.keys (r.nextKey + j) = some key' ∧ key'.name = toks[j] ∧
      key'.values = [] ∧ key'.flags = flags ∧
        ∃ pk, t.keys (if j = 0 then p else r.nextKey + j - 1) = some pk ∧
          r.nextKey + j ∈ pk.subkeys := by
  obtain ⟨key', hkey', hname, hval, hfl, hpar, -⟩ := hc.new j hj
  refine ⟨key', hkey', hname, hval, by rw [hfl]; split <;> rfl, ?_⟩
  obtain ⟨-, pk, hpk, hmem⟩ := hc.inv.wf.parent _ key' _ hkey' hpar
  exact ⟨pk, hpk, hmem⟩

end Tree.Chain

end Wine.Registry
