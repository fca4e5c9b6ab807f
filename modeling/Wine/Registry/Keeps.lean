import Wine.Registry.Shape

/-!
# What the operations keep

`DirtyUp` is the invariant of the dirty marks: above a dirty key that is not volatile stand dirty
keys up to the first volatile one. `Quiet` says that a key that is clean afterwards was clean before
and is unchanged as far as a saved branch shows it. `KeepsBut x h q r r'` collects what an operation
has to keep: volatility is inherited if `h` holds, and changes are marked, except at the keys `x`
that are still to be marked, if `q` holds.
-/

namespace Wine.Registry
open Wine.Lib

/-- The faults of a computation whose loops end. -/
def NotEndless (e : Fault) : Prop := e ≠ .endless

/-! ## The primitive computations -/

section
variable {α : Type} {E : Fault → Prop} {s : State}

theorem wp_getKey {Q : Key → State → Prop} {k : ℕ} (h : ∀ key, s.keys k = some key → Q key s) :
    wp (getKey k) Q NotEndless s := by
  unfold getKey
  simp only [wp_bind, wp_get]
  cases hk : s.keys k with
  | none => simp only [wp_throw]; exact fun hn => (by cases hn)
  | some key => simpa only [wp_pure] using h key hk

theorem wp_getKey_some {Q : Key → State → Prop} {k : ℕ} {key : Key} (hk : s.keys k = some key)
    (h : Q key s) : wp (getKey k) Q E s := by
  unfold getKey
  simp only [wp_bind, wp_get, hk, wp_pure]
  exact h

@[simp] theorem wp_edit {Q : PUnit → State → Prop} {f : Tree → Tree} :
    wp (edit f) Q E s ↔ Q ⟨⟩ { s with toTree := f s.toTree } := Iff.rfl

@[simp] theorem wp_modifyKey {Q : PUnit → State → Prop} {k : ℕ} {f : Key → Key} :
    wp (modifyKey k f) Q E s ↔ Q ⟨⟩ { s with toTree := s.toTree.updateKey k f } := Iff.rfl

@[simp] theorem wp_setError {Q : PUnit → State → Prop} {e : Status} :
    wp (setError e) Q E s ↔ Q ⟨⟩ { s with error := some e } := Iff.rfl

/-- All allocations succeed. -/
def State.Granted (s : State) : Prop := ∀ n, s.grants n = true

/-- What an allocation with the outcome `b` does. -/
structure Spends (s : State) (b : Bool) (s' : State) : Prop where
  tree : s'.toTree = s.toTree
  grants : s'.grants = s.grants
  granted : s.Granted → b = true

theorem wp_allocate {Q : Bool → State → Prop} (h : ∀ b s', Spends s b s' → Q b s') :
    wp allocate Q E s := by
  unfold allocate
  simp only [wp_bind, wp_get, wp_set, wp_pure]
  exact h _ _ ⟨rfl, rfl, fun hg => hg _⟩

theorem wp_memAlloc {Q : Bool → State → Prop} (h : ∀ b s', Spends s b s' → Q b s') :
    wp memAlloc Q E s := by
  unfold memAlloc
  simp only [wp_bind]
  refine wp_allocate fun b s' hs => ?_
  cases b with
  | true => exact h true s' hs
  | false => exact h false _ ⟨hs.tree, hs.grants, hs.granted⟩

theorem wp_memdup {Q : Bool → State → Prop} {l : List α} (h : ∀ b s', Spends s b s' → Q b s') :
    wp (memdup l) Q E s := by
  cases l with
  | nil => exact h true s ⟨rfl, rfl, fun _ => rfl⟩
  | cons _ _ => exact wp_memAlloc h

end

/-! ## Marks -/

/-- The same keys with the same volatility. -/
structure Alike (r r' : Tree) : Prop extends SameLinks r r' where
  volatile : ∀ i key key', r.keys i = some key → r'.keys i = some key' →
    key'.flags.volatile = key.flags.volatile

theorem Alike.refl (r : Tree) : Alike r r :=
  ⟨.refl r, fun _ _ _ h h' => by rw [h] at h'; rw [Option.some.inj h']⟩

theorem Alike.trans {r r' r'' : Tree} (h : Alike r r') (h' : Alike r' r'') : Alike r r'' where
  toSameLinks := h.toSameLinks.trans h'.toSameLinks
  volatile i key key'' hk hk'' := by
    obtain ⟨key', hk', -⟩ := h.after hk
    exact (h'.volatile i key' key'' hk' hk'').trans (h.volatile i key key' hk hk')

namespace Tree

def DirtyUp (r : Tree) : Prop :=
  ∀ c ck p pk, r.keys c = some ck → ck.parent = some p → r.keys p = some pk →
    ck.flags.volatile = false → ck.flags.dirty = true →
      pk.flags.volatile = true ∨ pk.flags.dirty = true

/-- `DirtyUp` except below one key, whose mark is still to be set. -/
def DirtyUpBut (x : ℕ) (r : Tree) : Prop :=
  ∀ c ck p pk, p ≠ x → r.keys c = some ck → ck.parent = some p → r.keys p = some pk →
    ck.flags.volatile = false → ck.flags.dirty = true →
      pk.flags.volatile = true ∨ pk.flags.dirty = true

def Hereditary (r : Tree) : Prop :=
  ∀ c ck p pk, r.keys c = some ck → ck.parent = some p → r.keys p = some pk →
    pk.flags.volatile = true → ck.flags.volatile = true

/-- A subkey that is not volatile. -/
def Persists (r : Tree) (c : ℕ) : Prop := ∃ key, r.keys c = some key ∧ key.flags.volatile = false

structure QuietBut (x : ℕ → Prop) (r r' : Tree) : Prop where
  same : ∀ k key', ¬ x k → r'.keys k = some key' → key'.flags.volatile = false →
    key'.flags.dirty = false → ∃ key, r.keys k = some key ∧ key.flags.volatile = false ∧
      key.flags.dirty = false ∧ key.name = key'.name ∧ key.values = key'.values ∧
        ∀ c, (c ∈ key.subkeys ∧ r.Persists c) ↔ (c ∈ key'.subkeys ∧ r'.Persists c)

def Quiet (r r' : Tree) : Prop := QuietBut (fun _ => False) r r'

/-- How a key of the first tree looks in the second. -/
structure Older (r r' : Tree) : Prop where
  nextKey : r.nextKey ≤ r'.nextKey
  branches : r'.branches = r.branches
  keys : ∀ i key', r'.keys i = some key' → i < r.nextKey → ∃ key, r.keys i = some key ∧
    key'.name = key.name ∧ key'.flags.volatile = key.flags.volatile ∧
      (key'.parent = key.parent ∨ key'.parent = none)

/-- No key is lost, none changes its values except at `y`, and new keys are volatile only if `v`. -/
structure Kept (y : ℕ → Prop) (v : Prop) (r r' : Tree) : Prop where
  keys : ∀ i key, r.keys i = some key → ∃ key', r'.keys i = some key' ∧ key'.name = key.name ∧
    key'.parent = key.parent ∧ key'.flags.volatile = key.flags.volatile ∧
      (¬ y i → key'.values = key.values)
  fresh : ∀ i key', r'.keys i = some key' → r.keys i = none → key'.flags.volatile = true → v

end Tree

structure KeepsBut (cm : CaseMap) (x : ℕ → Prop) (h q : Prop) (r r' : Tree) : Prop where
  wf : r'.Wf cm
  dirtyUp : r'.DirtyUp
  older : r.Older r'
  heredity : h → r.Hereditary → r'.Hereditary
  quiet : q → r.QuietBut x r'

/-- What holds of every reachable registry. -/
structure Inv (cm : CaseMap) (r : Tree) : Prop where
  wf : r.Wf cm
  dirtyUp : r.DirtyUp

abbrev Keeps (cm : CaseMap) (h q : Prop) (r r' : Tree) : Prop :=
  KeepsBut cm (fun _ => False) h q r r'

namespace Tree
variable {cm : CaseMap} {r r' r'' : Tree} {x : ℕ → Prop}

theorem DirtyUp.but (h : r.DirtyUp) (y : ℕ) : r.DirtyUpBut y :=
  fun c ck p pk _ => h c ck p pk

theorem Older.refl (r : Tree) : r.Older r :=
  ⟨Nat.le_refl _, rfl, fun _ key' hk _ => ⟨key', hk, rfl, rfl, .inl rfl⟩⟩

theorem Older.trans (h : r.Older r') (h' : r'.Older r'') : r.Older r'' where
  nextKey := Nat.le_trans h.nextKey h'.nextKey
  branches := h'.branches.trans h.branches
  keys i key'' hk hi := by
    obtain ⟨key', hk', hn', hv', hp'⟩ := h'.keys i key'' hk (Nat.lt_of_lt_of_le hi h.nextKey)
    obtain ⟨key, hk, hn, hv, hp⟩ := h.keys i key' hk' hi
    refine ⟨key, hk, hn'.trans hn, hv'.trans hv, ?_⟩
    rcases hp' with hp' | hp'
    · rw [hp']
      exact hp
    · exact .inr hp'

theorem QuietBut.refl (x : ℕ → Prop) (r : Tree) : r.QuietBut x r :=
  ⟨fun _ key' _ hk hv hd => ⟨key', hk, hv, hd, rfl, rfl, fun _ => Iff.rfl⟩⟩

theorem QuietBut.trans (h : r.QuietBut x r') (h' : r'.QuietBut x r'') : r.QuietBut x r'' where
  same k key'' hx hk hv hd := by
    obtain ⟨key', hk', hv', hd', hn', hval', hsub'⟩ := h'.same k key'' hx hk hv hd
    obtain ⟨key, hk, hv, hd, hn, hval, hsub⟩ := h.same k key' hx hk' hv' hd'
    exact ⟨key, hk, hv, hd, hn.trans hn', hval.trans hval', fun c => (hsub c).trans (hsub' c)⟩

theorem QuietBut.weaken {y : ℕ → Prop} (h : r.QuietBut x r') (hxy : ∀ k, x k → y k) :
    r.QuietBut y r' :=
  ⟨fun k key' hy hk hv hd => h.same k key' (fun hx => hy (hxy k hx)) hk hv hd⟩

theorem Kept.refl (y : ℕ → Prop) (v : Prop) (r : Tree) : r.Kept y v r :=
  ⟨fun _ key hk => ⟨key, hk, rfl, rfl, rfl, fun _ => rfl⟩,
    fun _ _ hk hn => (by cases hk.symm.trans hn)⟩

theorem Kept.trans {y : ℕ → Prop} {v : Prop} (h : r.Kept y v r') (h' : r'.Kept y v r'') :
    r.Kept y v r'' where
  keys i key hk := by
    obtain ⟨key', hk', hn, hp, hv, hval⟩ := h.keys i key hk
    obtain ⟨key'', hk'', hn', hp', hv', hval'⟩ := h'.keys i key' hk'
    exact ⟨key'', hk'', hn'.trans hn, hp'.trans hp, hv'.trans hv,
      fun hy => (hval' hy).trans (hval hy)⟩
  fresh i key'' hk'' hn hv := by
    cases hk' : r'.keys i with
    | none => exact h'.fresh i key'' hk'' hk' hv
    | some key' =>
      obtain ⟨key₁, hk₁, -, -, hv', -⟩ := h'.keys i key' hk'
      obtain rfl := Option.some.inj (hk''.symm.trans hk₁)
      exact h.fresh i key' hk' hn (hv' ▸ hv)

theorem Kept.weaken {y y' : ℕ → Prop} {v v' : Prop} (h : r.Kept y v r') (hy : ∀ i, y i → y' i)
    (hv : v → v') : r.Kept y' v' r' where
  keys i key hk := by
    obtain ⟨key', hk', hn, hp, hvv, hval⟩ := h.keys i key hk
    exact ⟨key', hk', hn, hp, hvv, fun hy' => hval fun hyi => hy' (hy i hyi)⟩
  fresh i key' hk' hn hvol := hv (h.fresh i key' hk' hn hvol)

end Tree

theorem Tree.updateKey_self {r : Tree} {k : ℕ} {key : Key} {f : Key → Key}
    (hk : r.keys k = some key) : (r.updateKey k f).keys k = some (f key) := by
  simp only [Tree.updateKey_keys, if_true, hk, Option.map_some]

theorem Tree.updateKey_other {r : Tree} {k i : ℕ} {f : Key → Key} (h : i ≠ k) :
    (r.updateKey k f).keys i = r.keys i := by
  simp only [Tree.updateKey_keys, h, if_false]

theorem Tree.Kept.updateKey {r : Tree} {k : ℕ} {key : Key} {f : Key → Key} {y : ℕ → Prop} {v : Prop}
    (hk : r.keys k = some key) (hn : (f key).name = key.name) (hp : (f key).parent = key.parent)
    (hv : (f key).flags.volatile = key.flags.volatile) (hy : y k ∨ (f key).values = key.values) :
    r.Kept y v (r.updateKey k f) where
  keys i key₁ h₁ := by
    by_cases hi : i = k
    · subst hi
      obtain rfl := Option.some.inj (hk.symm.trans h₁)
      exact ⟨f key, updateKey_self hk, hn, hp, hv, fun hny => hy.resolve_left hny⟩
    · exact ⟨key₁, by rw [updateKey_other hi, h₁], rfl, rfl, rfl, fun _ => rfl⟩
  fresh i key₁ h₁ hn := by
    have hi : i ≠ k := fun he => by
      rw [he, hk] at hn
      cases hn
    rw [updateKey_other hi, hn] at h₁
    cases h₁

namespace Alike
variable {cm : CaseMap} {r r' : Tree}

theorem hereditary (h : Alike r r') (hr : r.Hereditary) : r'.Hereditary := by
  intro c ck' p pk' hc hp hpk hv
  obtain ⟨ck, hck, hl⟩ := h.before hc
  obtain ⟨pk, hpk', -⟩ := h.before hpk
  have hpar := (links_iff.mp hl).2.1
  rw [h.volatile c ck ck' hck hc]
  exact hr c ck p pk hck (hpar ▸ hp) hpk' (h.volatile p pk pk' hpk' hpk ▸ hv)

theorem older (h : Alike r r') : r.Older r' where
  nextKey := h.nextKey
  branches := h.branches
  keys i key' hk _ := by
    obtain ⟨key, hk', hl⟩ := h.before hk
    obtain ⟨hn, hp, -, -⟩ := links_iff.mp hl
    exact ⟨key, hk', hn, h.volatile i key key' hk' hk, .inl hp⟩

theorem persists (h : Alike r r') (c : ℕ) : r.Persists c ↔ r'.Persists c := by
  constructor
  · rintro ⟨key, hk, hv⟩
    obtain ⟨key', hk', -⟩ := h.after hk
    exact ⟨key', hk', (h.volatile c key key' hk hk').trans hv⟩
  · rintro ⟨key', hk', hv⟩
    obtain ⟨key, hk, -⟩ := h.before hk'
    exact ⟨key, hk, (h.volatile c key key' hk hk').symm.trans hv⟩

/-- Keys that are alike differ in what is saved only where their values do. -/
theorem quietBut (h : Alike r r') {x : ℕ → Prop}
    (hd : ∀ i key key', r.keys i = some key → r'.keys i = some key' →
      key.flags.dirty = true → key'.flags.dirty = true)
    (hval : ∀ i key key', ¬ x i → r.keys i = some key → r'.keys i = some key' →
      key'.values = key.values) : r.QuietBut x r' where
  same k key' hx hk hv hdk := by
    obtain ⟨key, hk', hl⟩ := h.before hk
    obtain ⟨hn, -, hsub, -⟩ := links_iff.mp hl
    refine ⟨key, hk', (h.volatile k key key' hk' hk) ▸ hv, ?_, hn.symm,
      (hval k key key' hx hk' hk).symm, fun c => by rw [hsub, h.persists c]⟩
    by_contra hne
    rw [hd k key key' hk' hk (by simpa using hne)] at hdk
    cases hdk

theorem updateKey {k : ℕ} {key : Key} {f : Key → Key} (hk : r.keys k = some key)
    (hl : (f key).links = key.links) (hv : (f key).flags.volatile = key.flags.volatile) :
    Alike r (r.updateKey k f) where
  toSameLinks := Tree.updateKey_same hk hl
  volatile i key₁ key₂ h₁ h₂ := by
    by_cases hi : i = k
    · subst hi
      obtain rfl := Option.some.inj (hk.symm.trans h₁)
      simp only [Tree.updateKey_keys, if_true, hk, Option.map_some, Option.some.injEq] at h₂
      rw [← h₂, hv]
    · simp only [Tree.updateKey_keys, hi, if_false, h₁, Option.some.injEq] at h₂
      rw [h₂]

end Alike

namespace KeepsBut
variable {cm : CaseMap} {r r' r'' : Tree} {x y : ℕ → Prop} {h q h' q' h'' q'' : Prop}

theorem inv (hk : KeepsBut cm x h q r r') : Inv cm r' := ⟨hk.wf, hk.dirtyUp⟩

theorem trans (h₁ : KeepsBut cm x h q r r') (h₂ : KeepsBut cm x h' q' r' r'')
    (hh : h'' → h ∧ h') (hq : q'' → q ∧ q') : KeepsBut cm x h'' q'' r r'' where
  wf := h₂.wf
  dirtyUp := h₂.dirtyUp
  older := h₁.older.trans h₂.older
  heredity hc hr := h₂.heredity (hh hc).2 (h₁.heredity (hh hc).1 hr)
  quiet hc := (h₁.quiet (hq hc).1).trans (h₂.quiet (hq hc).2)

theorem weaken (hk : KeepsBut cm x h q r r') (hxy : ∀ k, x k → y k) (hh : h' → h) (hq : q' → q) :
    KeepsBut cm y h' q' r r' where
  wf := hk.wf
  dirtyUp := hk.dirtyUp
  older := hk.older
  heredity hc := hk.heredity (hh hc)
  quiet hc := (hk.quiet (hq hc)).weaken hxy

theorem refl (hi : Inv cm r) : KeepsBut cm x h q r r where
  wf := hi.wf
  dirtyUp := hi.dirtyUp
  older := .refl r
  heredity _ hr := hr
  quiet _ := .refl x r

/-- A change of one key that leaves its links and flags alone. -/
theorem updateKey (hi : Inv cm r) {k : ℕ} {key : Key} {f : Key → Key} (hk : r.keys k = some key)
    (hl : (f key).links = key.links) (hf : (f key).flags = key.flags) (hs : (f key).Sound cm)
    (hx : x k ∨ (f key).values = key.values) : KeepsBut cm x h q r (r.updateKey k f) := by
  have ha : Alike r (r.updateKey k f) := Alike.updateKey hk hl (by rw [hf])
  have hflags : ∀ i key₁ key₂, r.keys i = some key₁ → (r.updateKey k f).keys i = some key₂ →
      key₂.flags = key₁.flags ∧ (¬ x i → key₂.values = key₁.values) := by
    intro i key₁ key₂ h₁ h₂
    by_cases hik : i = k
    · subst hik
      obtain rfl := Option.some.inj (hk.symm.trans h₁)
      simp only [Tree.updateKey_keys, if_true, hk, Option.map_some, Option.some.injEq] at h₂
      subst h₂
      exact ⟨hf, fun hn => hx.resolve_left hn⟩
    · simp only [Tree.updateKey_keys, hik, if_false, h₁, Option.some.injEq] at h₂
      exact ⟨by rw [h₂], fun _ => by rw [h₂]⟩
  refine ⟨hi.wf.updateKey hk hl hs, ?_, ha.older, fun _ => ha.hereditary, fun _ => ?_⟩
  · intro c ck' p pk' hc hp hpk hv hd
    obtain ⟨ck, hck, hlc⟩ := ha.before hc
    obtain ⟨pk, hpk', -⟩ := ha.before hpk
    have hcf := (hflags c ck ck' hck hc).1
    have hpf := (hflags p pk pk' hpk' hpk).1
    rw [hpf]
    exact hi.dirtyUp c ck p pk hck ((links_iff.mp hlc).2.1 ▸ hp) hpk' (hcf ▸ hv) (hcf ▸ hd)
  · exact ha.quietBut (fun i key₁ key₂ h₁ h₂ hd => by rw [(hflags i key₁ key₂ h₁ h₂).1, hd])
      (fun i key₁ key₂ hn h₁ h₂ => (hflags i key₁ key₂ h₁ h₂).2 hn)

theorem andUpdate (hi : KeepsBut cm x h q r r') {k : ℕ} {key : Key} {f : Key → Key}
    (hk : r'.keys k = some key) (hl : (f key).links = key.links) (hf : (f key).flags = key.flags)
    (hs : (f key).Sound cm) (hx : x k ∨ (f key).values = key.values) :
    KeepsBut cm x h q r (r'.updateKey k f) :=
  hi.trans (updateKey (h := h) (q := q) hi.inv hk hl hf hs hx) (fun hh => ⟨hh, hh⟩)
    fun hq => ⟨hq, hq⟩

theorem but (hk : Keeps cm h q r r') (x : ℕ → Prop) : KeepsBut cm x h q r r' :=
  hk.weaken (fun _ hf => hf.elim) id id

end KeepsBut

end Wine.Registry
