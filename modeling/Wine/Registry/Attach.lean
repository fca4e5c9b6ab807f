import Wine.Registry.Marks
import Mathlib.Data.List.InsertIdx

/-!
# A new subkey

`Tree.attach` is the effect of `alloc_subkey` once there is room in the array, `Tree.room` the effect
of growing or shrinking the array. Both keep the invariant.
-/

namespace Wine.Registry
open Wine.Lib

variable {cm : CaseMap}

namespace Tree

def room (r : Tree) (k m : ℕ) : Tree := r.updateKey k fun key => { key with nbSubkeys := m }

def attach (r : Tree) (p : ℕ) (name : List WChar) (index : ℕ) (modif : ℤ) : Tree :=
  ((r.addKey (.new name modif)).updateKey r.nextKey fun key =>
    { key with parent := some p }).updateKey p fun key =>
      { key with subkeys := key.subkeys.insertIdx index r.nextKey }

variable {r : Tree} {k p m index : ℕ} {key : Key} {name : List WChar} {modif : ℤ}

theorem ext {r r' : Tree} (hk : ∀ i, r'.keys i = r.keys i) (hn : r'.nextKey = r.nextKey)
    (hh : r'.handles = r.handles) (hb : r'.branches = r.branches) : r' = r := by
  cases r
  cases r'
  simp only [mk.injEq]
  exact ⟨funext hk, hn, hh, hb⟩

theorem room_self (hk : r.keys k = some key) : r.room k key.nbSubkeys = r := by
  refine ext (fun i => ?_) rfl rfl rfl
  by_cases hi : i = k
  · subst hi
    rw [room, updateKey_self hk, hk]
  · exact updateKey_other hi

theorem attach_parent (hk : r.keys p = some key) (hp : p < r.nextKey) :
    (r.attach p name index modif).keys p =
      some { key with subkeys := key.subkeys.insertIdx index r.nextKey } := by
  have hne : p ≠ r.nextKey := Nat.ne_of_lt hp
  refine updateKey_self ?_
  rw [updateKey_other hne, addKey_keys, if_neg hne, hk]

theorem attach_new (hp : p < r.nextKey) : (r.attach p name index modif).keys r.nextKey =
    some { Key.new name modif with parent := some p } := by
  unfold attach
  rw [updateKey_other (Nat.ne_of_gt hp)]
  refine updateKey_self ?_
  rw [addKey_keys, if_pos rfl]

theorem attach_other {i : ℕ} (hi : i ≠ p) (hn : i ≠ r.nextKey) :
    (r.attach p name index modif).keys i = r.keys i := by
  unfold attach
  rw [updateKey_other hi, updateKey_other hn, addKey_keys, if_neg hn]

/-- A key after `attach` is the new key, its parent or a key as before. -/
theorem attach_cases (hk : r.keys p = some key) (hp : p < r.nextKey) {i : ℕ} {key' : Key}
    (hi : (r.attach p name index modif).keys i = some key') :
    (i = r.nextKey ∧ key' = { Key.new name modif with parent := some p }) ∨
      (i = p ∧ key' = { key with subkeys := key.subkeys.insertIdx index r.nextKey }) ∨
        (i ≠ p ∧ i ≠ r.nextKey ∧ r.keys i = some key') := by
  by_cases hip : i = p
  · subst hip
    rw [attach_parent hk hp, Option.some.injEq] at hi
    exact .inr (.inl ⟨rfl, hi.symm⟩)
  · by_cases hin : i = r.nextKey
    · subst hin
      rw [attach_new hp, Option.some.injEq] at hi
      exact .inl ⟨rfl, hi.symm⟩
    · rw [attach_other hip hin] at hi
      exact .inr (.inr ⟨hip, hin, hi⟩)

theorem attach_nameOf (hk : r.keys p = some key) (hp : p < r.nextKey) {i : ℕ} (hi : i ≠ r.nextKey) :
    (r.attach p name index modif).nameOf i = r.nameOf i := by
  by_cases hip : i = p
  · subst hip
    simp only [nameOf, attach_parent hk hp, hk, Option.elim_some]
  · simp only [nameOf, attach_other hip hi]

theorem attach_nameOf_new (hp : p < r.nextKey) :
    (r.attach p name index modif).nameOf r.nextKey = name := by
  simp only [nameOf, attach_new hp, Option.elim_some, Key.new]

/-- Where a new subkey may be inserted. -/
structure Place (cm : CaseMap) (r : Tree) (key : Key) (name : List WChar) (index : ℕ) : Prop where
  le : index ≤ key.subkeys.length
  low : ∀ b ∈ (key.subkeys.map fun c => fold cm (r.nameOf c)).take index, b < fold cm name
  high : ∀ b ∈ (key.subkeys.map fun c => fold cm (r.nameOf c)).drop index, fold cm name < b

theorem Linked.attach (h : r.Linked cm) (hk : r.keys p = some key) (hname : ValidName name)
    (hpl : Place cm r key name index) :
    (r.attach p name index modif).Linked cm := by
  have hp := h.lt hk
  refine ⟨?_, ?_, ?_, ?_, ?_, ?_, ?_, ?_⟩
  · intro i hi
    have hi' : r.nextKey + 1 ≤ i := hi
    rw [attach_other (by omega) (by omega)]
    exact h.fresh i (by omega)
  · obtain ⟨key₀, hk₀, hp₀, hd₀⟩ := h.root
    by_cases hr : rootKey = p
    · subst hr
      obtain rfl := Option.some.inj (hk.symm.trans hk₀)
      exact ⟨_, attach_parent hk hp, hp₀, hd₀⟩
    · exact ⟨key₀, by rw [attach_other hr (Nat.ne_of_lt (h.lt hk₀)), hk₀], hp₀, hd₀⟩
  · intro i key' hi c hc
    have old : ∀ q key₁, r.keys q = some key₁ → c ∈ key₁.subkeys →
        ∃ ck, (r.attach p name index modif).keys c = some ck ∧ ck.parent = some q := by
      intro q key₁ hq hcq
      obtain ⟨ck, hck, hpar⟩ := h.child q key₁ hq c hcq
      by_cases hcp : c = p
      · subst hcp
        obtain rfl := Option.some.inj (hk.symm.trans hck)
        exact ⟨_, attach_parent hk hp, hpar⟩
      · exact ⟨ck, by rw [attach_other hcp (Nat.ne_of_lt (h.lt hck)), hck], hpar⟩
    rcases attach_cases hk hp hi with ⟨-, rfl⟩ | ⟨rfl, rfl⟩ | ⟨-, -, hr⟩
    · exact absurd hc List.not_mem_nil
    · rcases (List.mem_insertIdx hpl.le).mp hc with rfl | hc
      · exact ⟨_, attach_new hp, rfl⟩
      · exact old i key hk hc
    · exact old i key' hr hc
  · intro i key' q hi hq
    rcases attach_cases hk hp hi with ⟨rfl, rfl⟩ | ⟨rfl, rfl⟩ | ⟨hip, hin, hr⟩
    · obtain rfl := Option.some.inj hq
      exact ⟨hp, _, attach_parent hk hp, (List.mem_insertIdx hpl.le).mpr (.inl rfl)⟩
    · obtain ⟨hlt, pk, hpk, hmem⟩ := h.parent i key q hk hq
      exact ⟨hlt, pk, by rw [attach_other (Nat.ne_of_lt hlt) (Nat.ne_of_lt (h.lt hpk)), hpk], hmem⟩
    · obtain ⟨hlt, pk, hpk, hmem⟩ := h.parent i key' q hr hq
      by_cases hqp : q = p
      · subst hqp
        obtain rfl := Option.some.inj (hk.symm.trans hpk)
        exact ⟨hlt, _, attach_parent hk hp, (List.mem_insertIdx hpl.le).mpr (.inr hmem)⟩
      · exact ⟨hlt, pk, by rw [attach_other hqp (Nat.ne_of_lt (h.lt hpk)), hpk], hmem⟩
  · intro i key' hi
    have hnames : ∀ l : List ℕ, (∀ c ∈ l, c ≠ r.nextKey) →
        l.map (fun c => fold cm ((r.attach p name index modif).nameOf c)) =
          l.map fun c => fold cm (r.nameOf c) := fun l hl =>
      List.map_congr_left fun c hc => by rw [attach_nameOf hk hp (hl c hc)]
    have hold : ∀ q key₁, r.keys q = some key₁ → ∀ c ∈ key₁.subkeys, c ≠ r.nextKey := by
      intro q key₁ hq c hc
      obtain ⟨ck, hck, -⟩ := h.child q key₁ hq c hc
      exact Nat.ne_of_lt (h.lt hck)
    rcases attach_cases hk hp hi with ⟨-, rfl⟩ | ⟨rfl, rfl⟩ | ⟨-, -, hr⟩
    · exact List.Pairwise.nil
    · rw [List.map_insertIdx, hnames _ (hold i key hk), attach_nameOf_new hp]
      exact pairwise_insertIdx (h.sorted i key hk) (by simpa only [List.length_map] using hpl.le)
        hpl.low hpl.high
    · rw [hnames _ (hold i key' hr)]
      exact h.sorted i key' hr
  · intro i key' hi hd hne
    rcases attach_cases hk hp hi with ⟨-, rfl⟩ | ⟨rfl, rfl⟩ | ⟨-, -, hr⟩
    · exact fun hn => (by cases hn)
    · exact h.attached i key hk hd hne
    · exact h.attached i key' hr hd hne
  · intro i key' hi hne
    rcases attach_cases hk hp hi with ⟨-, rfl⟩ | ⟨rfl, rfl⟩ | ⟨-, -, hr⟩
    · exact hname
    · exact h.named i key hk hne
    · exact h.named i key' hr hne
  · intro i hi hnone
    have hr := h.held i hi
    by_cases hip : i = p
    · subst hip
      rw [attach_parent hk hp] at hnone
      cases hnone
    · cases hkeys : r.keys i with
      | none => exact hr hkeys
      | some key₁ =>
        rw [attach_other hip (Nat.ne_of_lt (h.lt hkeys)), hkeys] at hnone
        cases hnone

theorem Wf.attach (h : r.Wf cm) (hk : r.keys p = some key) (hdel : key.flags.deleted = false)
    (hfit : key.subkeys.length < key.nbSubkeys) (hname : ValidName name)
    (hshort : name.length ≤ maxNameLen) (hpl : Place cm r key name index) :
    (r.attach p name index modif).Wf cm where
  toLinked := h.toLinked.attach hk hname hpl
  sound i key' hi := by
    rcases attach_cases hk (h.lt hk) hi with ⟨-, rfl⟩ | ⟨rfl, rfl⟩ | ⟨-, -, hr⟩
    · exact ⟨hshort, Nat.le_refl _, .inl rfl, Nat.le_refl _, .inl rfl, List.Pairwise.nil,
        fun v hv => absurd hv List.not_mem_nil, fun hd => (by cases hd)⟩
    · have hs := h.sound i key hk
      refine ⟨hs.short, ?_, hs.subkeysRoom, hs.valuesFit, hs.valuesRoom, hs.valuesSorted,
        hs.valuesShort, fun hd => ?_⟩
      · rw [List.length_insertIdx_of_le_length hpl.le]
        exact hfit
      · rw [hdel] at hd
        cases hd
    · exact h.sound i key' hr

theorem DirtyUp.attach (h : r.DirtyUp) (hk : r.keys p = some key) (hp : p < r.nextKey)
    (hwf : r.Linked cm) : (r.attach p name index modif).DirtyUp := by
  intro c ck q qk hc hq hqk hv hd
  have hcold : c ≠ r.nextKey ∧ ∃ ck₀, r.keys c = some ck₀ ∧ ck₀.parent = ck.parent ∧
      ck₀.flags = ck.flags := by
    rcases attach_cases hk hp hc with ⟨-, rfl⟩ | ⟨rfl, rfl⟩ | ⟨-, hn, hr⟩
    · cases hd
    · exact ⟨Nat.ne_of_lt hp, key, hk, rfl, rfl⟩
    · exact ⟨hn, ck, hr, rfl, rfl⟩
  obtain ⟨-, ck₀, hc₀, hpar, hfl⟩ := hcold
  obtain ⟨-, pk, hpk, -⟩ := hwf.parent c ck₀ q hc₀ (hpar.trans hq)
  have hor := h c ck₀ q pk hc₀ (hpar.trans hq) hpk (by rw [hfl, hv]) (by rw [hfl, hd])
  rcases attach_cases hk hp hqk with ⟨rfl, -⟩ | ⟨rfl, rfl⟩ | ⟨-, -, hr⟩
  · exact absurd (hwf.lt hpk) (Nat.lt_irrefl _)
  · obtain rfl := Option.some.inj (hk.symm.trans hpk)
    exact hor
  · obtain rfl := Option.some.inj (hr.symm.trans hpk)
    exact hor

end Tree

/-! ## The array of subkeys -/

/-- An allocated length that leaves the subkeys where they are. -/
def Key.Room (key : Key) (m : ℕ) : Prop := key.subkeys.length ≤ m ∧ (m = 0 ∨ minSubkeys ≤ m)

theorem Key.Sound.resized {key : Key} (hs : key.Sound cm) {m : ℕ} (hm : key.Room m) :
    Key.Sound cm { key with nbSubkeys := m } where
  short := hs.short
  subkeysFit := hm.1
  subkeysRoom := hm.2
  valuesFit := hs.valuesFit
  valuesRoom := hs.valuesRoom
  valuesSorted := hs.valuesSorted
  valuesShort := hs.valuesShort
  detached := hs.detached

theorem KeepsBut.room {x : ℕ → Prop} {h q : Prop} {r r' : Tree} {k m : ℕ} {key : Key}
    (hi : KeepsBut cm x h q r r') (hk : r'.keys k = some key) (hm : key.Room m) :
    KeepsBut cm x h q r (r'.room k m) :=
  hi.andUpdate hk rfl rfl ((hi.wf.sound k key hk).resized hm) (.inr rfl)

theorem wp_growSubkeys {E : Fault → Prop} {s : State} {k : ℕ} {key : Key} (hkey : s.keys k = some key)
    (hs : key.Sound cm) (hfull : key.subkeys.length = key.nbSubkeys) :
    wp (growSubkeys k) (fun b s' => ∃ m, key.Room m ∧ s'.toTree = s.toTree.room k m ∧
      s'.grants = s.grants ∧ (s.Granted → b = true) ∧ (b = true → key.subkeys.length < m))
      E s := by
  unfold growSubkeys
  simp only [wp_bind]
  refine wp_getKey_some hkey (wp_memAlloc fun b s₁ h₁ => ?_)
  cases b with
  | false =>
    simp only [Bool.false_eq_true, if_false, wp_pure]
    refine ⟨key.nbSubkeys, ⟨hs.subkeysFit, hs.subkeysRoom⟩, ?_, h₁.grants,
      fun hg => (by cases h₁.granted hg), fun hb => hb.elim⟩
    rw [h₁.tree, Tree.room_self hkey]
  | true =>
    simp only [if_true, wp_bind, wp_modifyKey, wp_pure, h₁.tree]
    have hroom := hs.subkeysRoom
    have hm : minSubkeys = 8 := rfl
    have hm' : minValues = 8 := rfl
    refine ⟨_, ⟨?_, ?_⟩, rfl, h₁.grants, fun _ => trivial, fun _ => ?_⟩
    all_goals
      by_cases h0 : key.nbSubkeys = 0
      · simp only [h0, ne_eq, not_true_eq_false, if_false]
        omega
      · simp only [ne_eq, h0, not_false_eq_true, if_true]
        omega

theorem wp_shrinkSubkeys {E : Fault → Prop} {s : State} {k : ℕ} {key : Key} (hkey : s.keys k = some key)
    (hs : key.Sound cm) :
    wp (shrinkSubkeys k) (fun _ s' => ∃ m, key.Room m ∧ s'.toTree = s.toTree.room k m ∧
      s'.grants = s.grants) E s := by
  unfold shrinkSubkeys
  simp only [wp_bind]
  refine wp_getKey_some hkey ?_
  have hsame : ∃ m, key.Room m ∧ s.toTree = s.toTree.room k m :=
    ⟨_, ⟨hs.subkeysFit, hs.subkeysRoom⟩, (Tree.room_self hkey).symm⟩
  simp only [wp_ite, wp_pure, wp_bind]
  refine ⟨fun hc => wp_allocate fun b s₁ h₁ => ?_, fun _ => ?_⟩
  · simp only [wp_modifyKey, h₁.tree]
    refine ⟨fun _ => ⟨_, ⟨?_, .inr (Nat.le_max_right _ _)⟩, rfl, h₁.grants⟩, fun _ => ?_⟩
    · have hlen := hs.subkeysFit
      have h8 := hc.1
      have hlast := hc.2
      unfold Key.lastSubkey at hlast
      omega
    · obtain ⟨m, hm, he⟩ := hsame
      exact ⟨m, hm, he, h₁.grants⟩
  · obtain ⟨m, hm, he⟩ := hsame
    exact ⟨m, hm, he, trivial⟩

/-! ## Allocation -/

theorem wp_allocKey {E : Fault → Prop} {s : State} {name : List WChar} {modif : ℤ} :
    wp (allocKey name modif) (fun c s' => s'.grants = s.grants ∧ (s.Granted → c.isSome) ∧
      (c = none → s'.toTree = s.toTree) ∧
        ∀ k, c = some k → k = s.nextKey ∧ s'.toTree = s.toTree.addKey (.new name modif))
      E s := by
  unfold allocKey
  simp only [wp_bind]
  refine wp_memAlloc fun b s₁ h₁ => ?_
  simp only [wp_ite, wp_pure, wp_bind]
  refine ⟨fun _ => wp_memdup fun b' s₂ h₂ => ?_, fun hb => ?_⟩
  · simp only [wp_get, wp_edit]
    have ht := h₂.tree.trans h₁.tree
    refine ⟨fun _ => ⟨h₂.grants.trans h₁.grants, fun _ => rfl, fun hc => (by cases hc), fun k hk => ?_⟩,
      fun hb' => ⟨h₂.grants.trans h₁.grants, fun hg => ?_, fun _ => ht, fun k hk => (by cases hk)⟩⟩
    · rw [← Option.some.inj hk, ht]
      exact ⟨rfl, rfl⟩
    · exact absurd (h₂.granted fun n => by rw [h₁.grants, hg n]) hb'
  · exact ⟨h₁.grants, fun hg => absurd (h₁.granted hg) hb, fun _ => h₁.tree, fun k hk => (by cases hk)⟩

theorem wp_linkSubkey {E : Fault → Prop} {s : State} {p index : ℕ} {name : List WChar} {modif : ℤ} :
    wp (linkSubkey p name index modif) (fun c s' => s'.grants = s.grants ∧ (s.Granted → c.isSome) ∧
      (c = none → s'.toTree = s.toTree) ∧
        ∀ k, c = some k → k = s.nextKey ∧ s'.toTree = s.toTree.attach p name index modif)
      E s := by
  unfold linkSubkey
  simp only [wp_bind]
  refine wp_mono wp_allocKey ?_
  rintro c s₁ ⟨hg, hgr, hnone, hsome⟩
  cases c with
  | none =>
    simp only [wp_pure]
    exact ⟨hg, hgr, fun _ => hnone rfl, fun k hk => (by cases hk)⟩
  | some c =>
    obtain ⟨rfl, ht⟩ := hsome c rfl
    simp only [wp_bind, wp_modifyKey, wp_pure]
    refine ⟨hg, fun _ => rfl, fun hc => (by cases hc), fun k hk => ?_⟩
    rw [← Option.some.inj hk, ht]
    exact ⟨rfl, rfl⟩

/-- The result of `alloc_subkey`. -/
structure Allocated (s : State) (p : ℕ) (key : Key) (name : List WChar) (index : ℕ) (modif : ℤ)
    (c : Option ℕ) (m : ℕ) (s' : State) : Prop where
  room : key.Room m
  grants : s'.grants = s.grants
  granted : s.Granted → name.length ≤ maxNameLen → c.isSome
  failed : c = none → s'.toTree = s.toTree.room p m
  done : ∀ k, c = some k → k = s.nextKey ∧ name.length ≤ maxNameLen ∧ key.subkeys.length < m ∧
    s'.toTree = (s.toTree.room p m).attach p name index modif

theorem wp_allocSubkey {E : Fault → Prop} {s : State} {p index : ℕ} {key : Key} {name : List WChar} {modif : ℤ}
    (hkey : s.keys p = some key) (hs : key.Sound cm) :
    wp (allocSubkey p name index modif)
      (fun c s' => ∃ m, Allocated s p key name index modif c m s') E s := by
  unfold allocSubkey
  by_cases hlong : maxNameLen * 2 < byteLen name
  · simp only [hlong, if_true, wp_bind, wp_setError, wp_pure]
    refine ⟨key.nbSubkeys, ⟨hs.subkeysFit, hs.subkeysRoom⟩, rfl, fun _ hn => ?_,
      fun _ => (Tree.room_self hkey).symm, fun k hk => (by cases hk)⟩
    unfold byteLen at hlong
    omega
  · simp only [hlong, if_false, wp_bind]
    have hname : name.length ≤ maxNameLen := by
      unfold byteLen at hlong
      omega
    refine wp_getKey_some hkey ?_
    by_cases hfull : key.lastSubkey + 1 = key.nbSubkeys
    · simp only [hfull, if_true, wp_bind]
      have hlen : key.subkeys.length = key.nbSubkeys := by
        unfold Key.lastSubkey at hfull
        omega
      refine wp_mono (wp_growSubkeys hkey hs hlen) ?_
      rintro b s₁ ⟨m, hm, ht, hg, hgr, hlt⟩
      cases b with
      | false =>
        simp only [Bool.false_eq_true, if_false, wp_pure]
        exact ⟨m, hm, hg, fun hgs _ => (by cases hgr hgs), fun _ => ht, fun k hk => (by cases hk)⟩
      | true =>
        simp only [if_true]
        refine wp_mono wp_linkSubkey ?_
        rintro c s₂ ⟨hg', hgr', hnone, hsome⟩
        refine ⟨m, hm, hg'.trans hg, fun hgs _ => hgr' fun n => by rw [hg, hgs n],
          fun hc => (hnone hc).trans ht, fun k hk => ?_⟩
        obtain ⟨hke, hte⟩ := hsome k hk
        refine ⟨?_, hname, hlt rfl, by rw [hte, ht]⟩
        rw [hke, ht]
        rfl
    · simp only [hfull, if_false]
      have hlen : key.subkeys.length < key.nbSubkeys := by
        have := hs.subkeysFit
        unfold Key.lastSubkey at hfull
        omega
      refine wp_mono wp_linkSubkey ?_
      rintro c s₂ ⟨hg', hgr', hnone, hsome⟩
      refine ⟨key.nbSubkeys, ⟨hs.subkeysFit, hs.subkeysRoom⟩, hg', fun hgs _ => hgr' hgs,
        fun hc => ?_, fun k hk => ?_⟩
      · rw [Tree.room_self hkey]
        exact hnone hc
      · rw [Tree.room_self hkey]
        exact ⟨(hsome k hk).1, hname, hlen, (hsome k hk).2⟩

end Wine.Registry
