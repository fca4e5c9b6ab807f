import Wine.Registry.Guards
import Mathlib.Data.List.Induction

/-!
# The registry after its initialisation

Nothing is volatile yet, and no saved branch lies inside another one.
-/

namespace Wine.Registry
open Wine.Lib

variable {cm : CaseMap} {k : ℕ}

/-! ## No volatile keys -/

namespace Tree
variable {r r' : Tree}

def Flat (r : Tree) : Prop := ∀ i key, r.keys i = some key → key.flags.volatile = false

theorem Flat.hereditary (h : r.Flat) : r.Hereditary := by
  intro c ck p pk _ _ hpk hv
  rw [h p pk hpk] at hv
  cases hv

theorem Flat.kept {y : ℕ → Prop} {v : Prop} (h : r.Flat) (hk : r.Kept y v r') (hv : ¬ v) : r'.Flat := by
  intro i key' hi
  cases hr : r.keys i with
  | none => exact Bool.eq_false_iff.mpr fun ht => hv (hk.fresh i key' hi hr ht)
  | some key =>
    obtain ⟨key'', hk'', -, -, hvol, -⟩ := hk.keys i key hr
    rw [← Option.some.inj (hi.symm.trans hk'')] at hvol
    exact hvol.trans (h i key hr)

theorem Flat.not_belowVolatile (h : r.Flat) {path : List WChar} {flags : KeyFlags} :
    ¬ r.BelowVolatile cm k path flags := by
  rintro ⟨-, -, -, d, dk, -, hdk, hv⟩
  rw [h d dk hdk] at hv
  cases hv

end Tree

theorem stays_of_flat {s : State} (h : s.toTree.Flat) (base : ℕ) (flags : KeyFlags) (l : Line)
    (ld : Loader) : StaysVolatile cm base flags l ld s := by
  rintro ⟨-, prefixLen, s₁, -, name, rest, -, -, hb⟩
  exact h.not_belowVolatile hb

theorem loadEach_of_flat {fuel : ℕ} {ld : Loader} {s : State} {base : ℕ} {key : Key} {modif : ℤ}
    (hi : Inv cm s.toTree) (hf : s.toTree.Flat) (hkey : s.keys base = some key) {flags : KeyFlags}
    (hflags : flags = .keyDirty) :
    LoadEach cm base flags modif (StaysVolatile cm base flags) fuel ld s := by
  induction fuel generalizing ld s key with
  | zero => trivial
  | succ fuel ih =>
    intro l input _
    refine ⟨stays_of_flat hf base flags l _, fun ld' s' hok => ?_⟩
    obtain ⟨hk, hkept⟩ := wp_of_ok (wp_loadLine (h := True) (q := False) (r := s.toTree) (.refl hi)
      hkey (by rw [hflags]; rfl) (by rw [hflags]; exact .inr rfl)
      (fun _ => stays_of_flat hf base flags l _) False.elim) hok
    obtain ⟨key', hkey', -⟩ := hkept.keys base key hkey
    exact ih hk.inv (hf.kept hkept (by rw [hflags]; exact Bool.false_ne_true)) hkey'

/-! ## Apart -/

namespace Tree
variable {r : Tree} {a b : ℕ} {toks toks' : List (List WChar)}

end Tree

/-! ## The branches -/

def branchPaths : List (List (List WChar)) := [hklmName, hkuName, currentUserPath].map pathTokens

/-- What holds while the registry is initialised. -/
structure Starting (cm : CaseMap) (r : Tree) : Prop where
  inv : Inv cm r
  flat : r.Flat
  branches : ∀ b ∈ r.branches, ∃ toks ∈ branchPaths, r.Leads cm rootKey toks b

theorem Starting.kept {r r' : Tree} {y : ℕ → Prop} {v : Prop} (h : Starting cm r) (hi : Inv cm r')
    (hk : r.Kept y v r') (hv : ¬ v) (hb : r'.branches = r.branches) : Starting cm r' where
  inv := hi
  flat := h.flat.kept hk hv
  branches b hm := by
    rw [hb] at hm
    obtain ⟨toks, ht, hl⟩ := h.branches b hm
    exact ⟨toks, ht, hl.kept hk h.inv.wf.toLinked hi.wf.toLinked⟩

/-- One more branch. -/
theorem Starting.register {r : Tree} (h : Starting cm r) (hk : r.keys k ≠ none)
    {toks : List (List WChar)} (ht : toks ∈ branchPaths) (hl : r.Leads cm rootKey toks k) :
    Starting cm { r with branches := r.branches ++ [k] } := by
  have hleads : ∀ (toks : List (List WChar)) (i j : ℕ), r.Leads cm i toks j →
      ({ r with branches := r.branches ++ [k] } : Tree).Leads cm i toks j := by
    intro toks
    induction toks with
    | nil => exact fun i j h => h
    | cons tok toks ih =>
      rintro i j ⟨key, c, hi, hc, hn, hrest⟩
      exact ⟨key, c, hi, hc, hn, ih c j hrest⟩
  have hw := h.inv.wf
  refine ⟨⟨⟨⟨hw.fresh, hw.root, hw.child, hw.parent, hw.sorted, hw.attached, hw.named,
    fun i hi => ?_⟩, hw.sound⟩, h.inv.dirtyUp⟩, h.flat, fun b hb => ?_⟩
  · rcases hi with hi | hi
    · exact hw.held i (.inl hi)
    · rcases List.mem_append.mp hi with hi | hi
      · exact hw.held i (.inr hi)
      · rw [List.mem_singleton.mp hi]
        exact hk
  · rcases List.mem_append.mp hb with hb | hb
    · obtain ⟨toks', ht', hl'⟩ := h.branches b hb
      exact ⟨toks', ht', hleads _ _ _ hl'⟩
    · rw [List.mem_singleton.mp hb]
      exact ⟨toks, ht, hleads _ _ _ hl⟩

theorem wp_registerBranch {s : State} (h : Starting cm s.toTree) (hk : s.keys k ≠ none)
    {toks : List (List WChar)} (ht : toks ∈ branchPaths) (hl : s.toTree.Leads cm rootKey toks k) :
    wp (registerBranch k) (fun _ s' => Starting cm s'.toTree) NotEndless s := by
  unfold registerBranch
  simp only [wp_bind, wp_get, wp_ite, wp_throw]
  refine ⟨fun _ => wp_allocate fun b s₁ h₁ => ?_, fun _ hn => (by cases hn)⟩
  simp only [wp_pure, wp_edit, h₁.tree]
  exact ⟨fun _ => h.register hk ht hl, fun _ => h⟩

theorem wp_initBranch {s : State} (h : Starting cm s.toTree) {path : List WChar}
    (hp : path ∈ [hklmName, hkuName, currentUserPath]) (file : Option (List Input)) :
    wp (initBranch cm path file) (fun _ s' => Starting cm s'.toTree) NotEndless s := by
  have ht : pathTokens path ∈ branchPaths := List.mem_map_of_mem hp
  have hlen : path.length < maxPathLen := by
    have hs : ∀ p ∈ [hklmName, hkuName, currentUserPath], p.length ≤ 14 := by decide
    have := hs path hp
    rw [maxPathLen_eq]
    omega
  unfold initBranch
  simp only [wp_bind, wp_get]
  refine wp_mono (wp_createKey (h := True) (q := False) (r := s.toTree) (.refl h.inv) hlen
    rfl (fun _ => h.flat.not_belowVolatile) False.elim) ?_
  rintro c s₁ hc
  cases c with
  | none => exact fun hn => (by cases hn)
  | some k =>
    have h₁ := h.kept hc.keeps.inv hc.kept Bool.false_ne_true hc.keeps.older.branches
    obtain ⟨done, rest, d, hsplit, hdone, hrest, -⟩ := hc.path k rfl
    have hl₁ : s₁.toTree.Leads cm rootKey (pathTokens path) k := by
      rw [hsplit]
      exact (hdone.kept hc.kept h.inv.wf.toLinked h₁.inv.wf.toLinked).append hrest.leads
    have hk₁ := hc.found k rfl
    obtain ⟨key₁, hkey₁⟩ := Option.ne_none_iff_exists'.mp hk₁
    simp only
    unfold loadInitRegistry
    cases file with
    | none => exact wp_registerBranch h₁ hk₁ ht hl₁
    | some input =>
      simp only [wp_bind]
      have hflags : loadFlags key₁ = .keyDirty := by
        unfold loadFlags
        rw [if_neg]
        rw [h₁.flat k key₁ hkey₁]
        exact Bool.false_ne_true
      refine wp_mono (wp_loadKeys (h := True) (q := False) (r := s₁.toTree) (.refl h₁.inv)
        (fun _ key l rest' hkey _ => ?_) False.elim) ?_
      · obtain rfl := Option.some.inj (hkey₁.symm.trans hkey)
        exact loadEach_of_flat (s := { s₁ with allocs := s₁.allocs + 2 }) h₁.inv h₁.flat hkey₁ hflags
      · rintro _ s₂ ⟨hk₂, hkept₂⟩
        have hv : ¬ ∃ key, s₁.keys k = some key ∧ key.flags.volatile = true := by
          rintro ⟨key, hkey, hvol⟩
          rw [h₁.flat k key hkey] at hvol
          cases hvol
        have h₂ := h₁.kept hk₂.inv hkept₂ hv hk₂.older.branches
        have hl₂ := hl₁.kept hkept₂ h₁.inv.wf.toLinked h₂.inv.wf.toLinked
        obtain ⟨key₂, hkey₂, -⟩ := hkept₂.keys k key₁ hkey₁
        have hne₂ : s₂.keys k ≠ none := fun hn => (by cases hkey₂.symm.trans hn)
        simp only [wp_get, wp_ite, wp_pure]
        exact ⟨fun _ => h₂, fun _ => wp_registerBranch h₂ hne₂ ht hl₂⟩

theorem starting_blank (grants : ℕ → Bool) (stale : ℕ → BitVec 16) (now : ℤ) :
    Starting cm (State.blank grants stale now).toTree := by
  have hkeys : ∀ i key, (State.blank grants stale now).keys i = some key →
      i = rootKey ∧ key = .new [] now := by
    intro i key hi
    simp only [State.blank] at hi
    by_cases h0 : i = rootKey
    · rw [if_pos h0, Option.some.injEq] at hi
      exact ⟨h0, hi.symm⟩
    · rw [if_neg h0] at hi
      cases hi
  refine ⟨⟨⟨⟨?_, ⟨.new [] now, rfl, rfl, rfl⟩, ?_, ?_, ?_, ?_, ?_, ?_⟩, ?_⟩, ?_⟩, ?_, ?_⟩
  · intro i hi
    have hi' : 1 ≤ i := hi
    exact if_neg (by unfold rootKey; omega)
  · intro i key hi c hc
    rw [(hkeys i key hi).2] at hc
    cases hc
  · intro i key p hi hp
    rw [(hkeys i key hi).2] at hp
    cases hp
  · intro i key hi
    rw [(hkeys i key hi).2]
    exact List.Pairwise.nil
  · intro i key hi _ hne
    exact absurd (hkeys i key hi).1 hne
  · intro i key hi hne
    exact absurd (hkeys i key hi).1 hne
  · rintro i (hi | hi) <;> cases hi
  · intro i key hi
    rw [(hkeys i key hi).2]
    exact ⟨Nat.zero_le _, Nat.le_refl _, .inl rfl, Nat.le_refl _, .inl rfl, List.Pairwise.nil,
      fun v hv => absurd hv List.not_mem_nil, fun hd => (by cases hd)⟩
  · intro c ck p pk hc hp
    rw [(hkeys c ck hc).2] at hp
    cases hp
  · intro i key hi
    rw [(hkeys i key hi).2]
    rfl
  · intro b hb
    cases hb

theorem wp_initRegistry (system userdef user : Option (List Input)) (grants : ℕ → Bool)
    (stale : ℕ → BitVec 16) (now : ℤ) :
    wp (initRegistry cm system userdef user) (fun _ s => Starting cm s.toTree) NotEndless
      (State.blank grants stale now) := by
  unfold initRegistry
  simp only [wp_bind]
  refine wp_mono (wp_initBranch (starting_blank grants stale now) (by decide) system) ?_
  rintro _ s₁ h₁
  refine wp_mono (wp_initBranch h₁ (by decide) userdef) ?_
  rintro _ s₂ h₂
  exact wp_initBranch h₂ (by decide) user

end Wine.Registry
