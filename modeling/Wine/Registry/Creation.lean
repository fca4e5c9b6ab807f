import Mathlib.Data.List.TakeDrop
import Mathlib.Data.List.TakeWhile
import Wine.Registry.Removal

/-!
# Specifications of opening and creating keys
-/

namespace Wine.Registry
open Wine.Lib

variable {cm : CaseMap}

/-! ## Paths -/

namespace Tree

/-- Following a path by the names of the keys, up to case. -/
def Leads (cm : CaseMap) (r : Tree) : ℕ → List (List WChar) → ℕ → Prop
  | k, [], k' => k = k'
  | k, tok :: toks, k' => ∃ key c, r.keys k = some key ∧ c ∈ key.subkeys ∧
      fold cm (r.nameOf c) = fold cm tok ∧ Leads cm r c toks k'

/-- Following a path by the names of the keys as they are. -/
def Names (r : Tree) : ℕ → List (List WChar) → ℕ → Prop
  | k, [], k' => k = k'
  | k, tok :: toks, k' => ∃ key c, r.keys k = some key ∧ c ∈ key.subkeys ∧
      r.nameOf c = tok ∧ Names r c toks k'

variable {r r' : Tree} {k k' k'' : ℕ} {toks toks' : List (List WChar)}

theorem Names.leads (h : r.Names k toks k') : r.Leads cm k toks k' := by
  induction toks generalizing k with
  | nil => exact h
  | cons tok toks ih =>
    obtain ⟨key, c, hk, hc, hn, hrest⟩ := h
    exact ⟨key, c, hk, hc, by rw [hn], ih hrest⟩

theorem Leads.append (h : r.Leads cm k toks k') (h' : r.Leads cm k' toks' k'') :
    r.Leads cm k (toks ++ toks') k'' := by
  induction toks generalizing k with
  | nil =>
    obtain rfl : k = k' := h
    exact h'
  | cons tok toks ih =>
    obtain ⟨key, c, hk, hc, hn, hrest⟩ := h
    exact ⟨key, c, hk, hc, hn, ih hrest⟩

theorem Kept.child {y : ℕ → Prop} {v : Prop} (h : r.Kept y v r') (hr : r.Linked cm)
    (hr' : r'.Linked cm) {c : ℕ} {key : Key} (hk : r.keys k = some key) (hc : c ∈ key.subkeys) :
    ∃ key', r'.keys k = some key' ∧ c ∈ key'.subkeys ∧ r'.nameOf c = r.nameOf c := by
  obtain ⟨ck, hck, hpar⟩ := hr.child k key hk c hc
  obtain ⟨ck', hck', hn, hp, -, -⟩ := h.keys c ck hck
  obtain ⟨-, key', hk', hmem⟩ := hr'.parent c ck' k hck' (hp.trans hpar)
  exact ⟨key', hk', hmem, by rw [nameOf_eq hck', nameOf_eq hck, hn]⟩

theorem Leads.kept {y : ℕ → Prop} {v : Prop} (h : r.Leads cm k toks k') (hkept : r.Kept y v r')
    (hr : r.Linked cm) (hr' : r'.Linked cm) : r'.Leads cm k toks k' := by
  induction toks generalizing k with
  | nil => exact h
  | cons tok toks ih =>
    obtain ⟨key, c, hk, hc, hn, hrest⟩ := h
    obtain ⟨key', hk', hc', hn'⟩ := hkept.child hr hr' hk hc
    exact ⟨key', c, hk', hc', hn'.symm ▸ hn, ih hrest⟩

theorem Names.kept {y : ℕ → Prop} {v : Prop} (h : r.Names k toks k') (hkept : r.Kept y v r')
    (hr : r.Linked cm) (hr' : r'.Linked cm) : r'.Names k toks k' := by
  induction toks generalizing k with
  | nil => exact h
  | cons tok toks ih =>
    obtain ⟨key, c, hk, hc, hn, hrest⟩ := h
    obtain ⟨key', hk', hc', hn'⟩ := hkept.child hr hr' hk hc
    exact ⟨key', c, hk', hc', hn'.trans hn, ih hrest⟩

/-- A path leads to one key at most. -/
theorem Leads.unique (hr : r.Linked cm) (h : r.Leads cm k toks k') (h' : r.Leads cm k toks k'') :
    k' = k'' := by
  induction toks generalizing k with
  | nil => exact h.symm.trans h'
  | cons tok toks ih =>
    obtain ⟨key, c, hk, hc, hn, hrest⟩ := h
    obtain ⟨key₁, c', hk₁, hc', hn', hrest'⟩ := h'
    obtain rfl := Option.some.inj (hk.symm.trans hk₁)
    obtain ⟨i, hi, rfl⟩ := List.mem_iff_getElem.mp hc
    obtain ⟨j, hj, rfl⟩ := List.mem_iff_getElem.mp hc'
    have hs := List.pairwise_map.mp (hr.sorted k key hk)
    rcases Nat.lt_trichotomy i j with hij | hij | hij
    · exact absurd (hn.trans hn'.symm) (List.pairwise_iff_getElem.mp hs i j hi hj hij).ne
    · subst hij
      exact ih hrest hrest'
    · exact absurd (hn'.trans hn.symm) (List.pairwise_iff_getElem.mp hs j i hj hi hij).ne

end Tree

/-! ## Tokens -/

theorem getPathToken_eq (rest : List WChar) : getPathToken rest =
    ((rest.dropWhile (· = backslash)).takeWhile (· ≠ backslash),
      (rest.dropWhile (· = backslash)).dropWhile (· ≠ backslash)) :=
  List.span_eq_takeWhile_dropWhile _ _

theorem tokensFrom_mem {n : ℕ} {rest tok : List WChar} (h : tok ∈ tokensFrom n rest) :
    ValidName tok ∧ tok.length ≤ rest.length := by
  induction n generalizing rest with
  | zero => exact absurd h List.not_mem_nil
  | succ n ih =>
    unfold tokensFrom at h
    have hdrop := (@List.dropWhile_suffix _ rest fun c : WChar => decide (c = backslash)).length_le
    by_cases he : (getPathToken rest).1 = []
    · rw [if_pos he] at h
      exact absurd h List.not_mem_nil
    · rw [if_neg he] at h
      rcases List.mem_cons.mp h with rfl | h
      · rw [getPathToken_eq] at he ⊢
        refine ⟨⟨he, fun hm => ?_⟩, Nat.le_trans (List.takeWhile_prefix _).length_le hdrop⟩
        have := List.mem_takeWhile_imp hm
        simp at this
      · obtain ⟨hv, hl⟩ := ih h
        rw [getPathToken_eq] at hl
        exact ⟨hv, Nat.le_trans hl (Nat.le_trans (List.dropWhile_suffix _).length_le hdrop)⟩

theorem pathTokens_mem {path tok : List WChar} (h : tok ∈ pathTokens path) :
    ValidName tok ∧ tok.length ≤ path.length := tokensFrom_mem h

/-! ## Opening -/

theorem Tree.Linked.child_live {r : Tree} (h : r.Wf cm) {k c : ℕ} {key : Key}
    (hk : r.keys k = some key) (hc : c ∈ key.subkeys) :
    ∃ ck, r.keys c = some ck ∧ ck.flags.deleted = false := by
  obtain ⟨ck, hck, hp⟩ := h.child k key hk c hc
  refine ⟨ck, hck, ?_⟩
  by_contra hd
  rw [((h.sound c ck hck).detached (by simpa using hd)).1] at hp
  cases hp

theorem wp_descend {E : Fault → Prop} {s : State} {tokens : List (List WChar)} {k : ℕ} {key : Key}
    (hwf : s.toTree.Wf cm) (hk : s.keys k = some key) (hdel : key.flags.deleted = false)
    (hshort : ∀ tok ∈ tokens, tok.length < maxPathLen) :
    wp (descend cm k tokens) (fun res s' => s' = s ∧ ∃ done key', tokens = done ++ res.2.1 ∧
      s.toTree.Leads cm k done res.1 ∧ s.keys res.1 = some key' ∧ key'.flags.deleted = false ∧
        ∀ tok rest, res.2.1 = tok :: rest → findSubkey cm s.toTree key' tok = .missing res.2.2)
      E s := by
  induction tokens generalizing k key with
  | nil =>
    simp only [descend, wp_pure]
    exact ⟨trivial, [], key, rfl, rfl, hk, hdel, fun tok rest h => (by cases h)⟩
  | cons tok tokens ih =>
    simp only [descend, wp_bind]
    refine wp_getKey_some hk ?_
    simp only [wp_get]
    cases hf : findSubkey cm s.toTree key tok with
    | missing i =>
      simp only [wp_pure]
      refine ⟨trivial, [], key, rfl, rfl, hk, hdel, fun tok' rest h => ?_⟩
      obtain ⟨rfl, -⟩ := List.cons.inj h
      exact hf
    | found i =>
      simp only
      obtain ⟨hmem, hfold⟩ := hwf.findSubkey_found (hshort tok List.mem_cons_self) hf
      obtain ⟨ck, hck, hcd⟩ := Tree.Linked.child_live hwf hk hmem
      refine wp_mono (ih hck hcd fun tok' h => hshort tok' (List.mem_cons_of_mem _ h)) ?_
      rintro res s' ⟨rfl, done, key', hdone, hleads, hrest⟩
      exact ⟨rfl, tok :: done, key', by rw [hdone, List.cons_append],
        ⟨key, _, hk, hmem, hfold, hleads⟩, hrest⟩

/-- Opening a path that leads to a key returns this key. -/
theorem wp_openTokens {s : State} {tokens : List (List WChar)} {k k' : ℕ}
    (hwf : s.toTree.Wf cm) (hshort : ∀ tok ∈ tokens, tok.length < maxPathLen)
    (hl : s.toTree.Leads cm k tokens k') :
    wp (openTokens cm k tokens) (fun c s' => c = some k' ∧ s' = s) (fun _ => False) s := by
  induction tokens generalizing k with
  | nil =>
    obtain rfl : k = k' := hl
    simp only [openTokens, wp_pure, and_self]
  | cons tok tokens ih =>
    obtain ⟨key, c, hk, hc, hn, hrest⟩ := hl
    have hname := hshort tok List.mem_cons_self
    obtain ⟨i, hi⟩ := (hwf.findSubkey_iff hk hname).mpr ⟨c, hc, hn⟩
    obtain ⟨hmem, hfold⟩ := hwf.findSubkey_found hname hi
    have hsame : key.subkeys.getD i 0 = c :=
      have hleads : s.toTree.Leads cm k [tok] (key.subkeys.getD i 0) :=
        ⟨key, _, hk, hmem, hfold, rfl⟩
      hleads.unique hwf.toLinked ⟨key, c, hk, hc, hn, rfl⟩
    simp only [openTokens, wp_bind]
    unfold getKey
    simp only [wp_bind, wp_get, hk, wp_pure, hi, hsame]
    exact ih (fun tok' h => hshort tok' (List.mem_cons_of_mem _ h)) hrest

end Wine.Registry

/-!
## The specification of `create_key`

What `create_key` keeps, and that the path it was given leads to the key it returns.
-/

namespace Wine.Registry
open Wine.Lib

variable {cm : CaseMap} {flags : KeyFlags} {modif : ℤ} {h q : Prop}

namespace Tree.Chain
variable {p index : ℕ} {r t : Tree} {key : Key} {tok : List WChar} {toks : List (List WChar)}

/-- The first key of a chain. -/
theorem start (hi : Inv cm r) (hk : r.keys p = some key) (hdel : key.flags.deleted = false)
    (hfit : key.subkeys.length < key.nbSubkeys) (hname : ValidName tok)
    (hshort : tok.length ≤ maxNameLen) (hpl : Place cm r key tok index) :
    Chain cm flags .none p r.nextKey [tok] (r.attach p tok index modif)
      (r.attach p tok index modif) where
  inv := ⟨hi.wf.attach hk hdel hfit hname hshort hpl, hi.dirtyUp.attach hk (hi.wf.lt hk) hi.wf.toLinked⟩
  next := Nat.le_refl _
  handles := rfl
  branches := rfl
  old _ _ := rfl
  new j hj := by
    rw [List.length_singleton] at hj
    obtain rfl : j = 0 := by omega
    exact ⟨_, attach_new (hi.wf.lt hk), rfl, rfl, rfl, rfl, rfl⟩
  beyond i hn := by
    have hp := hi.wf.lt hk
    rw [List.length_singleton] at hn
    rw [attach_other (by omega) (by omega)]
    exact hi.wf.fresh i (by omega)

/-- The names of the chain lead from the key above it to its last key. -/
theorem leads (hc : Chain cm flags flags p r.nextKey toks (r.attach p tok index modif) t)
    {m j : ℕ} (hj : j + m = toks.length) (h0 : 0 < toks.length) :
    t.Names (if j = 0 then p else r.nextKey + j - 1) (toks.drop j)
      (r.nextKey + toks.length - 1) := by
  induction m generalizing j with
  | zero =>
    rw [List.drop_eq_nil_of_le (by omega), if_neg (by omega)]
    show _ = _
    omega
  | succ m ih =>
    have hlt : j < toks.length := by omega
    obtain ⟨ck, hck, hname, -, -, pk, hpk, hmem⟩ := hc.names hlt
    rw [List.drop_eq_getElem_cons hlt]
    refine ⟨pk, _, hpk, hmem, (nameOf_eq hck).trans hname, ?_⟩
    have hrest := ih (j := j + 1) (by omega)
    rw [if_neg (by omega)] at hrest
    exact hrest

end Tree.Chain

/-- What `create_missing` ends with. -/
structure Created (cm : CaseMap) (h q : Prop) (r : Tree) (s : State) (k : ℕ)
    (toks : List (List WChar)) (flags : KeyFlags) (c : Option ℕ) (s' : State) : Prop where
  keeps : Keeps cm h q r s'.toTree
  kept : s.toTree.Kept (fun _ => False) (flags.volatile = true) s'.toTree
  grants : s'.grants = s.grants
  granted : s.Granted → (∀ tok ∈ toks, tok.length ≤ maxNameLen) → c.isSome
  path : ∀ k', c = some k' → s'.toTree.Names k toks k' ∧
    ∃ key', s'.keys k' = some key' ∧ key'.values = [] ∧ key'.flags = flags

theorem Tree.Place.same {r r' : Tree} {key key' : Key} {name : List WChar} {index : ℕ}
    (hpl : Place cm r key name index) (hs : SameLinks r r') (hsub : key'.subkeys = key.subkeys) :
    Place cm r' key' name index := by
  have hn : (key'.subkeys.map fun c => fold cm (r'.nameOf c)) =
      key.subkeys.map fun c => fold cm (r.nameOf c) := by
    simp only [hsub, hs.nameOf]
  exact ⟨hsub ▸ hpl.le, hn ▸ hpl.low, hn ▸ hpl.high⟩

/-- The part of `create_key` from the first allocation on. -/
theorem wp_allocMissing {s : State} {k index : ℕ} {key : Key} {tok : List WChar}
    {tokens : List (List WChar)} {r : Tree} (hk : Keeps cm h q r s.toTree)
    (hkey : s.keys k = some key) (hlive : key.flags.deleted = false)
    (hvalid : ∀ tok' ∈ tok :: tokens, ValidName tok')
    (hpl : tok.length ≤ maxNameLen → Tree.Place cm s.toTree key tok index)
    (hle : index ≤ key.subkeys.length) (hdel : flags.deleted = false)
    (hm : flags.dirty = true → s.toTree.Marked k)
    (hh : h → flags.volatile = true ∨ key.flags.volatile = false)
    (hq : q → flags.volatile = true ∨ flags.dirty = true) :
    wp (do
      match (← allocSubkey k tok index modif) with
      | none => pure none
      | some base =>
        match (← createRest flags modif base tokens) with
        | none =>
          freeSubkey base index
          pure none
        | some k' => pure (some k'))
      (Created cm h q r s k (tok :: tokens) flags) NotEndless s := by
  simp only [wp_bind]
  have hs := hk.wf.sound k key hkey
  refine wp_mono (wp_allocSubkey hkey hs) ?_
  rintro c s₁ ⟨m, ha⟩
  have hkr : Keeps cm h q r (s.toTree.room k m) := hk.room hkey ha.room
  have hself : (s.toTree.room k m).keys k = some { key with nbSubkeys := m } :=
    Tree.updateKey_self hkey
  have hkept : s.toTree.Kept (fun _ => False) (flags.volatile = true) (s.toTree.room k m) :=
    .updateKey hkey rfl rfl rfl (.inr rfl)
  cases c with
  | none =>
    simp only [wp_pure]
    rw [← ha.failed rfl] at hkr hkept
    exact ⟨hkr, hkept, ha.grants,
      fun hg hshort => (by cases ha.granted hg (hshort tok List.mem_cons_self)),
      fun k' hk' => (by cases hk')⟩
  | some base =>
    obtain ⟨hbase, hshort, hlt, ht⟩ := ha.done base rfl
    have hsl : SameLinks s.toTree (s.toTree.room k m) := Tree.updateKey_same hkey rfl
    generalize hr₁ : s.toTree.room k m = r₁ at hkr hself hkept ht hsl
    have hnext : base = r₁.nextKey := by rw [hbase, ← hr₁]; rfl
    have hkn := hkr.wf.lt hself
    have hmr : flags.dirty = true → r₁.Marked k := by
      intro hd key' hk'
      rw [hself, Option.some.injEq] at hk'
      rw [← hk']
      exact hm hd key hkey
    have hc₁ : Tree.Chain cm flags .none k r₁.nextKey [tok] (r₁.attach k tok index modif)
        s₁.toTree := by
      rw [ht]
      exact .start hkr.inv hself hlive hlt (hvalid tok List.mem_cons_self) hshort
        ((hpl hshort).same hsl rfl)
    have hup : flags.volatile = false → flags.dirty = true →
        (r₁.attach k tok index modif).Marked k := by
      intro _ hd key' hk'
      rw [Tree.attach_parent hself hkn, Option.some.injEq] at hk'
      rw [← hk']
      exact hmr hd { key with nbSubkeys := m } hself
    have hkeeps : ∀ toks t, Tree.Chain cm flags flags k r₁.nextKey toks
        (r₁.attach k tok index modif) t → Keeps cm h q r t ∧
          s.toTree.Kept (fun _ => False) (flags.volatile = true) t := by
      intro toks t hc
      refine ⟨hkr.trans (hc.keeps (h := h) (q := q) hself hkr.wf.toLinked hle hh fun hqq => ?_)
        (fun hp => ⟨hp, hp⟩) fun hp => ⟨hp, hp⟩,
        hkept.trans (hc.kept hself hkn hkr.wf.toLinked _)⟩
      rcases hq hqq with hv | hd
      · exact .inl hv
      · exact .inr ⟨hd, hmr hd⟩
    have hs₁next : s₁.nextKey = r₁.nextKey + [tok].length := by rw [ht]; rfl
    simp only [wp_bind]
    refine wp_mono (wp_createRest hkn hdel hup
      (fun tok' ht' => hvalid tok' (List.mem_cons_of_mem _ ht')) hc₁ hs₁next
      (by rw [hnext]; rfl) (by omega)) ?_
    rintro c s₂ ⟨hg, hgr, hnone, hsome⟩
    cases c with
    | none =>
      obtain ⟨more, hmore, hnext₂⟩ := hnone rfl
      simp only [wp_bind, wp_pure]
      have hset := hc₁.setLast (k := r₁.nextKey) rfl (Nat.le_refl _) hkn hdel hup
      have hheld : ∀ i, i ∈ (r₁.attach k tok index modif).handles ∨
          i ∈ (r₁.attach k tok index modif).branches → i < r₁.nextKey := by
        intro i hi
        cases hki : r₁.keys i with
        | none => exact absurd hki (hkr.wf.held i hi)
        | some ki => exact hkr.wf.lt hki
      rw [hnext]
      refine wp_mono (wp_freeChain hkn hdel hset hmore hnext₂ ?_ hheld) ?_
      · rw [hnext₂, Tree.updateKey_nextKey, hs₁next]
        simp only [List.length_append]
        omega
      · rintro _ s₃ ⟨hc₃, hg₃⟩
        obtain ⟨hkp, hkp'⟩ := hkeeps _ _ hc₃
        refine ⟨hkp, hkp', hg₃.trans (hg.trans ha.grants), fun hgs hsh => ?_, fun k' hk' => (by cases hk')⟩
        refine absurd (hgr (fun i => by rw [ha.grants]; exact hgs i) fun tok' ht' =>
          hsh tok' (List.mem_cons_of_mem _ ht')) ?_
        simp only [Option.isSome_none, Bool.false_eq_true, not_false_eq_true]
    | some k' =>
      obtain ⟨hc₂, hk'⟩ := hsome k' rfl
      rw [List.singleton_append] at hc₂ hk'
      simp only [wp_pure]
      obtain ⟨hkp, hkp'⟩ := hkeeps _ _ hc₂
      refine ⟨hkp, hkp', hg.trans ha.grants, fun _ _ => rfl, fun k'' hk'' => ?_⟩
      obtain rfl := Option.some.inj hk''
      have hlen : 0 < (tok :: tokens).length := Nat.succ_pos _
      have hl := hc₂.leads (m := (tok :: tokens).length) (j := 0) (Nat.zero_add _) hlen
      rw [if_pos rfl, List.drop_zero] at hl
      obtain ⟨key', hkey', hval, hfl, -⟩ := hc₂.lastKey hk' (by
        simp only [List.length_cons] at hk'
        omega)
      have he : r₁.nextKey + (tok :: tokens).length - 1 = k' := by omega
      exact ⟨he ▸ hl, key', hkey', hval, hfl⟩

theorem wp_createMissing {s : State} {k index : ℕ} {key : Key} {tok : List WChar}
    {tokens : List (List WChar)} {r : Tree} (hk : Keeps cm h q r s.toTree)
    (hkey : s.keys k = some key) (hlive : key.flags.deleted = false)
    (hvalid : ∀ tok' ∈ tok :: tokens, ValidName tok')
    (hf : findSubkey cm s.toTree key tok = .missing index) (hdel : flags.deleted = false)
    (hh : h → flags.volatile = true ∨ key.flags.volatile = false)
    (hq : q → flags.volatile = true ∨ flags.dirty = true) :
    wp (createMissing k tok tokens index flags modif) (Created cm h q r s k (tok :: tokens) flags)
      NotEndless s := by
  have hafter : ∀ s₁, Raised cm s.toTree s₁.toTree → s₁.toTree.DirtyUp →
      (flags.dirty = true → s₁.toTree.Marked k) → s₁.grants = s.grants → wp (do
        match (← allocSubkey k tok index modif) with
        | none => pure none
        | some base =>
          match (← createRest flags modif base tokens) with
          | none =>
            freeSubkey base index
            pure none
          | some k' => pure (some k'))
        (Created cm h q r s k (tok :: tokens) flags) NotEndless s₁ := by
    intro s₁ hr hd hm hg
    obtain ⟨key₁, hkey₁, hl⟩ := hr.after hkey
    obtain ⟨-, -, hsub, hdel₁⟩ := links_iff.mp hl
    have hk₁ : Keeps cm h q r s₁.toTree :=
      hk.trans (hr.keepsBut (p := h) (q := q) hk.wf hd) (fun hp => ⟨hp, hp⟩) fun hp => ⟨hp, hp⟩
    have hpl : tok.length ≤ maxNameLen → Tree.Place cm s₁.toTree key₁ tok index := by
      intro hlen
      obtain ⟨hlow, hhigh⟩ := hk.wf.findSubkey_missing hkey hlen hf
      exact Tree.Place.same ⟨Tree.findSubkey_missing_le hf, hlow, hhigh⟩ hr.toSameLinks hsub
    refine wp_mono (wp_allocMissing hk₁ hkey₁ (hdel₁.trans hlive) hvalid hpl
      (hsub ▸ Tree.findSubkey_missing_le hf) hdel hm (fun hp => ?_) hq) ?_
    · rw [hr.volatile k key key₁ hkey hkey₁]
      exact hh hp
    · intro c s₂ hc
      exact ⟨hc.keeps, (hr.kept _ _).trans hc.kept, hc.grants.trans hg,
        fun hgs => hc.granted fun i => by rw [hg]; exact hgs i, hc.path⟩
  unfold createMissing
  by_cases hd : flags.dirty = true
  · simp only [hd, if_true]
    rw [wp_bind]
    refine wp_mono (wp_makeDirty hk.inv hkey) ?_
    rintro _ s₁ ⟨hr, hdu, hm, hg⟩
    exact hafter s₁ hr hdu (fun _ => hm) hg
  · simp only [hd]
    exact hafter s (.refl _) hk.dirtyUp (fun hd' => absurd hd' hd) rfl

/-! ## The whole function -/

/-- Where a path leaves the keys that exist. -/
def Tree.Leaves (cm : CaseMap) (r : Tree) (k : ℕ) (toks : List (List WChar)) (d : ℕ) : Prop :=
  ∃ done tok rest, toks = done ++ tok :: rest ∧ r.Leads cm k done d ∧
    ∀ key, r.keys d = some key → ∀ c ∈ key.subkeys, fold cm (r.nameOf c) ≠ fold cm tok

/-- A path that passes the check of `create_key` for its first key but leads to a volatile key, below
which the request then creates a key that is not volatile. -/
def Tree.BelowVolatile (cm : CaseMap) (r : Tree) (k : ℕ) (path : List WChar) (flags : KeyFlags) :
    Prop :=
  flags.volatile = false ∧ pathValid path = true ∧
    (∃ key, r.keys k = some key ∧ key.flags.deleted = false ∧ key.flags.volatile = false) ∧
      ∃ d dk, r.Leaves cm k (pathTokens path) d ∧ r.keys d = some dk ∧ dk.flags.volatile = true

theorem wp_setClass {E : Fault → Prop} {s : State} {r : Tree} {k : ℕ} {key : Key} {className : List WChar}
    (hk : Keeps cm h q r s.toTree) (hkey : s.keys k = some key) :
    wp (setClass k className) (fun _ s' => Keeps cm h q r s'.toTree ∧
      (∀ v, s.toTree.Kept (fun _ => False) v s'.toTree) ∧ s'.grants = s.grants ∧
        ∃ key', s'.keys k = some key' ∧ key'.values = key.values ∧ key'.flags = key.flags)
      E s := by
  have hset : ∀ c, Keeps cm h q r (s.toTree.updateKey k fun key => { key with className := c }) ∧
      (∀ v, s.toTree.Kept (fun _ => False) v
        (s.toTree.updateKey k fun key => { key with className := c })) ∧
        ∃ key', (s.toTree.updateKey k fun key => { key with className := c }).keys k = some key' ∧
          key'.values = key.values ∧ key'.flags = key.flags := by
    intro c
    have hs := hk.wf.sound k key hkey
    exact ⟨hk.andUpdate hkey rfl rfl ⟨hs.short, hs.subkeysFit, hs.subkeysRoom, hs.valuesFit,
      hs.valuesRoom, hs.valuesSorted, hs.valuesShort, hs.detached⟩ (.inr rfl),
      fun v => .updateKey hkey rfl rfl rfl (.inr rfl), _, Tree.updateKey_self hkey, rfl, rfl⟩
  unfold setClass
  simp only [wp_ite, wp_pure, wp_bind]
  refine ⟨fun _ => wp_memAlloc fun b s₁ h₁ => ?_,
    fun _ => ⟨hk, fun v => .refl _ _ _, trivial, key, hkey, rfl, rfl⟩⟩
  simp only [wp_modifyKey, h₁.tree]
  exact ⟨fun _ => ⟨(hset _).1, (hset _).2.1, h₁.grants, (hset _).2.2⟩,
    fun _ => ⟨(hset _).1, (hset _).2.1, h₁.grants, (hset _).2.2⟩⟩

/-- The result of `create_key`. -/
structure CreatedKey (cm : CaseMap) (h q : Prop) (r : Tree) (s : State) (k : ℕ)
    (path : List WChar) (flags : KeyFlags) (c : Option ℕ) (s' : State) : Prop where
  keeps : Keeps cm h q r s'.toTree
  kept : s.toTree.Kept (fun _ => False) (flags.volatile = true) s'.toTree
  grants : s'.grants = s.grants
  granted : s.Granted → pathValid path = true → (∀ tok ∈ pathTokens path, tok.length ≤ maxNameLen) →
    (∀ key, s.keys k = some key → key.flags.deleted = false ∧
      (flags.volatile = true ∨ key.flags.volatile = false)) → c.isSome
  found : ∀ k', c = some k' → s'.keys k' ≠ none
  path : ∀ k', c = some k' → ∃ done rest d, pathTokens path = done ++ rest ∧
    s.toTree.Leads cm k done d ∧ s'.toTree.Names d rest k' ∧
      (rest ≠ [] → (∃ key', s'.keys k' = some key' ∧ key'.values = [] ∧ key'.flags = flags) ∧
        s.toTree.Leaves cm k (pathTokens path) d)

theorem wp_createKey {s : State} {r : Tree} {k : ℕ} {path className : List WChar}
    (hk : Keeps cm h q r s.toTree) (hlen : path.length < maxPathLen) (hdel : flags.deleted = false)
    (hh : h → ¬ s.toTree.BelowVolatile cm k path flags)
    (hq : q → flags.volatile = true ∨ flags.dirty = true) :
    wp (createKey cm k path className flags modif) (CreatedKey cm h q r s k path flags) NotEndless
      s := by
  unfold createKey
  simp only [wp_bind]
  refine wp_getKey fun key hkey => ?_
  have hfail : ∀ e, (s.Granted → pathValid path = true →
      (∀ tok ∈ pathTokens path, tok.length ≤ maxNameLen) → (∀ key, s.keys k = some key →
        key.flags.deleted = false ∧ (flags.volatile = true ∨ key.flags.volatile = false)) → False) →
      wp (do setError e; pure none) (CreatedKey cm h q r s k path flags) NotEndless s := by
    intro e hno
    simp only [wp_bind, wp_setError, wp_pure]
    exact ⟨hk, .refl _ _ _, rfl, fun h₁ h₂ h₃ h₄ => (hno h₁ h₂ h₃ h₄).elim,
      fun k' hk' => (by cases hk'), fun k' hk' => (by cases hk')⟩
  rw [wp_ite]
  refine ⟨fun hd => hfail _ fun _ _ _ hl => ?_, fun hlive => ?_⟩
  · rw [(hl key hkey).1] at hd
    cases hd
  rw [wp_ite]
  refine ⟨fun hv => hfail _ fun _ _ _ hl => ?_, fun hvol => ?_⟩
  · rcases (hl key hkey).2 with h' | h' <;> simp [h'] at hv
  simp only [wp_bind, wp_get]
  rw [wp_ite]
  refine ⟨fun hpv => ?_, fun hpv => hfail _ fun _ hv _ _ => absurd hv hpv⟩
  have hlive' : key.flags.deleted = false := by simpa using hlive
  have hvol' : flags.volatile = true ∨ key.flags.volatile = false := by
    cases hf : flags.volatile <;> cases hf' : key.flags.volatile <;> simp [hf, hf'] at hvol ⊢
  rw [wp_bind]
  refine wp_mono (wp_descend hk.wf hkey hlive'
    fun tok ht => Nat.lt_of_le_of_lt (pathTokens_mem ht).2 hlen) ?_
  rintro ⟨d, rest, index⟩ s' ⟨rfl, done, dk, hdone, hleads, hdk, hdlive, hmiss⟩
  simp only at hdone hleads hdk hmiss ⊢
  cases rest with
  | nil =>
    simp only [wp_bind, wp_pure]
    refine wp_mono (wp_setClass hk hdk) ?_
    rintro _ s₂ ⟨hk₂, hkept, hg, dk₂, hdk₂, -⟩
    refine ⟨hk₂, hkept _, hg, fun _ _ _ _ => rfl, fun k' hk' => ?_, fun k' hk' => ⟨done, [], d, hdone,
      hleads, ?_, fun hne => absurd rfl hne⟩⟩
    · rw [← Option.some.inj hk', hdk₂]
      exact fun hn => (by cases hn)
    · exact Option.some.inj hk'
  | cons tok tokens =>
    have hmem : ∀ tok' ∈ tok :: tokens, tok' ∈ pathTokens path := by
      intro tok' ht
      rw [hdone]
      exact List.mem_append_right _ ht
    have hf := hmiss tok tokens rfl
    have hleaves : s'.toTree.Leaves cm k (pathTokens path) d := by
      refine ⟨done, tok, tokens, hdone, hleads, fun dk' hdk' c hc he => ?_⟩
      obtain rfl := Option.some.inj (hdk.symm.trans hdk')
      obtain ⟨i, hi⟩ := (hk.wf.findSubkey_iff hdk
        (Nat.lt_of_le_of_lt (pathTokens_mem (hmem tok List.mem_cons_self)).2 hlen)).mpr ⟨c, hc, he⟩
      rw [hf] at hi
      cases hi
    simp only [wp_bind]
    refine wp_mono (wp_createMissing hk hdk hdlive
      (fun tok' ht => (pathTokens_mem (hmem tok' ht)).1) hf hdel (fun hp => ?_) hq) ?_
    · by_contra hn
      simp only [not_or, Bool.not_eq_true, Bool.not_eq_false] at hn
      refine hh hp ⟨hn.1, hpv, ⟨key, hkey, hlive', ?_⟩, d, dk, hleaves, hdk, hn.2⟩
      exact hvol'.resolve_left (by simp [hn.1])
    · rintro c s₂ hc
      cases c with
      | none =>
        simp only [wp_pure]
        exact ⟨hc.keeps, hc.kept, hc.grants,
          fun hg _ hsh _ => hc.granted hg fun tok' ht => hsh tok' (hmem tok' ht),
          fun k' hk' => (by cases hk'), fun k' hk' => (by cases hk')⟩
      | some k'' =>
        obtain ⟨hnames, key', hkey', hval, hfl⟩ := hc.path k'' rfl
        simp only [wp_bind, wp_pure]
        refine wp_mono (wp_setClass hc.keeps hkey') ?_
        rintro _ s₃ ⟨hk₃, hkept, hg, key₃, hkey₃, hval₃, hfl₃⟩
        refine ⟨hk₃, hc.kept.trans (hkept _), hg.trans hc.grants, fun _ _ _ _ => rfl, fun k' hk' => ?_,
          fun k' hk' => ?_⟩
        · rw [← Option.some.inj hk', hkey₃]
          exact fun hn => (by cases hn)
        obtain rfl := Option.some.inj hk'
        refine ⟨done, _, d, hdone, hleads,
          hnames.kept (hkept False) hc.keeps.wf.toLinked hk₃.wf.toLinked, fun _ => ⟨?_, hleaves⟩⟩
        exact ⟨key₃, hkey₃, hval₃.trans hval, hfl₃.trans hfl⟩

end Wine.Registry
