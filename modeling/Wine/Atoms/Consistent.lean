import Wine.Atoms.Chains

/-!
# The entries of a table over its runs

The array and the hash lists are kept in step by every operation. Two entries of one name, and an
entry that is not found, come only from a name that has another hash than an entry of that name.
-/

namespace Wine.Atoms
open Wine.Lib

namespace AtomTable

variable {cm : CaseMap} {t t' : AtomTable} {i : ℕ} {e : AtomEntry}

theorem chained_createTable (n : ℤ) : (createTable n).Chained cm where
  positive := by
    simp only [createTable]
    split
    · decide
    · rename_i h
      simp only [minHashSize, maxHashSize] at h
      omega
  chained := (by intros; contradiction)
  listed := (by intros; contradiction)
  once _ := List.nodup_nil
  hashed := (by intros; contradiction)
  named := (by intros; contradiction)

/-- The counts and the pin of an entry may change. -/
theorem Chained.setEntry (h : t.Chained cm) (he : t.entry i = some e) {e' : AtomEntry}
    (hhash : e'.hash = e.hash) (hstr : e'.str = e.str) : (t.setEntry i (some e')).Chained cm := by
  have hentry (j : ℕ) (x : AtomEntry) (hx : (t.setEntry i (some e')).entry j = some x) :
      ∃ y, t.entry j = some y ∧ x.hash = y.hash ∧ x.str = y.str := by
    rw [entry_setEntry] at hx
    split at hx
    · rename_i hij
      obtain rfl := Option.some.inj hx
      exact ⟨e, hij.1 ▸ he, hhash, hstr⟩
    · exact ⟨x, hx, rfl, rfl⟩
  constructor
  · exact h.positive
  · intro j x hx
    obtain ⟨y, hy, hxy, -⟩ := hentry j x hx
    rw [hxy]
    exact h.chained j y hy
  · intro hash j hj
    obtain ⟨y, hy, hyh⟩ := h.listed hash j hj
    rw [entry_setEntry]
    split
    · rename_i hij
      obtain rfl := Option.some.inj (he.symm.trans (hij.1 ▸ hy))
      exact ⟨e', rfl, hhash.trans hyh⟩
    · exact ⟨y, hy, hyh⟩
  · exact h.once
  · intro j x hx
    obtain ⟨y, hy, hxy, hstr⟩ := hentry j x hx
    rw [hxy, hstr]
    exact h.hashed j y hy
  · intro j x hx
    obtain ⟨y, hy, -, hstr⟩ := hentry j x hx
    rw [hstr]
    exact h.named j y hy

theorem entry_freeEntry (he : t.entry i = some e) (j : ℕ) :
    (t.freeEntry i e).entry j = if j = i then none else t.entry j := by
  rw [freeEntry, entry_setEntry]
  by_cases hij : j = i
  · rw [if_pos hij, if_pos ⟨hij.symm, lt_length_of_entry he⟩]
  · rw [if_neg hij, if_neg fun h => hij h.1.symm]
    rfl

theorem Chained.freeEntry (h : t.Chained cm) (he : t.entry i = some e) :
    (t.freeEntry i e).Chained cm := by
  have hentry (j : ℕ) (x : AtomEntry) (hx : (t.freeEntry i e).entry j = some x) :
      j ≠ i ∧ t.entry j = some x := by
    rw [entry_freeEntry he] at hx
    split at hx
    · cases hx
    · rename_i hij
      exact ⟨hij, hx⟩
  have hentries (hash : ℕ) : (t.freeEntry i e).entries hash =
      if hash = e.hash then (t.entries e.hash).erase i else t.entries hash := rfl
  constructor
  · exact h.positive
  · intro j x hx
    obtain ⟨hij, hx⟩ := hentry j x hx
    rw [hentries]
    split
    · rename_i hhash
      rw [List.mem_erase_of_ne hij, ← hhash]
      exact h.chained j x hx
    · exact h.chained j x hx
  · intro hash j hj
    have hkept : j ≠ i ∧ j ∈ t.entries hash := by
      rw [hentries] at hj
      split at hj
      · rename_i hhash
        rw [hhash]
        exact (h.once _).mem_erase_iff.mp hj
      · rename_i hhash
        refine ⟨?_, hj⟩
        rintro rfl
        obtain ⟨y, hy, hyh⟩ := h.listed hash j hj
        obtain rfl := Option.some.inj (he.symm.trans hy)
        exact hhash hyh.symm
    obtain ⟨y, hy, hyh⟩ := h.listed hash j hkept.2
    exact ⟨y, by rw [entry_freeEntry he, if_neg hkept.1, hy], hyh⟩
  · intro hash
    rw [hentries]
    split
    · exact (h.once _).erase i
    · exact h.once hash
  · intro j x hx
    exact h.hashed j x (hentry j x hx).2
  · intro j x hx
    exact h.named j x (hentry j x hx).2

theorem atomHash_lt (h : t.Chained cm) (str : List WChar) : atomHash cm t str < t.entriesCount :=
  Nat.mod_lt _ h.positive

/-- A new entry is put in front of the list of its hash. -/
theorem Chained.insert (h : t.Chained cm) {mem : Allocations}
    (hadd : t.addAtomEntry e mem = some (i, t')) (hhash : e.hash = atomHash cm t e.str)
    (hlen : e.str.length ≠ 0) (hmax : e.str.length ≤ maxAtomLen) :
    (t'.setHash e.hash (i :: t'.entries e.hash)).Chained cm := by
  obtain ⟨hfree, hset⟩ := entry_addAtomEntry hadd
  obtain ⟨hentries, hcount⟩ := entries_addAtomEntry hadd
  have hnew (hash : ℕ) : i ∉ t.entries hash := by
    intro hmem
    obtain ⟨y, hy, -⟩ := h.listed hash i hmem
    rw [hfree] at hy
    cases hy
  have hentry (j : ℕ) (x : AtomEntry) (hx : t'.entry j = some x) :
      (j = i ∧ x = e) ∨ (j ≠ i ∧ t.entry j = some x) := by
    rw [hset] at hx
    split at hx
    · rename_i hij
      exact .inl ⟨hij, (Option.some.inj hx).symm⟩
    · rename_i hij
      exact .inr ⟨hij, hx⟩
  have hlists (hash : ℕ) : (t'.setHash e.hash (i :: t'.entries e.hash)).entries hash =
      if hash = e.hash then i :: t.entries e.hash else t.entries hash := by
    rw [← hentries]
    rfl
  have hhashes (str : List WChar) :
      atomHash cm (t'.setHash e.hash (i :: t'.entries e.hash)) str = atomHash cm t str :=
    congrArg ((hashLoop cm 0 0 str).toNat % ·) hcount
  constructor
  · exact Nat.lt_of_lt_of_eq h.positive hcount.symm
  · intro j x hx
    rw [hlists]
    obtain ⟨rfl, rfl⟩ | ⟨-, hold⟩ := hentry j x hx
    · rw [if_pos rfl]
      exact List.mem_cons_self
    · have hmem := h.chained j x hold
      split
      · rename_i heq
        exact List.mem_cons_of_mem i (heq ▸ hmem)
      · exact hmem
  · intro hash j hj
    rw [hlists] at hj
    have hcases : (j = i ∧ hash = e.hash) ∨ j ∈ t.entries hash := by
      split at hj
      · rename_i heq
        obtain hji | hold := List.mem_cons.mp hj
        · exact .inl ⟨hji, heq⟩
        · exact .inr (heq ▸ hold)
      · exact .inr hj
    obtain ⟨rfl, rfl⟩ | hold := hcases
    · exact ⟨e, (hset j).trans (if_pos rfl), rfl⟩
    · obtain ⟨y, hy, hyh⟩ := h.listed hash j hold
      have hji : j ≠ i := by
        rintro rfl
        exact hnew hash hold
      exact ⟨y, (hset j).trans ((if_neg hji).trans hy), hyh⟩
  · intro hash
    rw [hlists]
    split
    · exact List.nodup_cons.mpr ⟨hnew _, h.once _⟩
    · exact h.once hash
  · intro j x hx
    rw [hhashes]
    obtain ⟨-, rfl⟩ | ⟨-, hold⟩ := hentry j x hx
    · exact hhash
    · exact h.hashed j x hold
  · intro j x hx
    obtain ⟨-, rfl⟩ | ⟨-, hold⟩ := hentry j x hx
    · exact ⟨hlen, hmax⟩
    · exact h.named j x hold

/-! ## The operations -/

/-- An entry of the second table is an entry of the first with the same name. -/
def Shrinks (t t' : AtomTable) : Prop :=
  ∀ j x, t'.entry j = some x → ∃ y, t.entry j = some y ∧ x.str = y.str

theorem Shrinks.refl (t : AtomTable) : t.Shrinks t := fun _ x hx => ⟨x, hx, rfl⟩

theorem Shrinks.trans {u : AtomTable} (h : t.Shrinks t') (h' : t'.Shrinks u) : t.Shrinks u := by
  intro j x hx
  obtain ⟨y, hy, hxy⟩ := h' j x hx
  obtain ⟨z, hz, hyz⟩ := h j y hy
  exact ⟨z, hz, hxy.trans hyz⟩

theorem shrinks_setEntry (he : t.entry i = some e) {e' : AtomEntry} (hstr : e'.str = e.str) :
    t.Shrinks (t.setEntry i (some e')) := by
  intro j x hx
  rw [entry_setEntry] at hx
  split at hx
  · rename_i hij
    obtain rfl := Option.some.inj hx
    exact ⟨e, hij.1 ▸ he, hstr⟩
  · exact ⟨x, hx, rfl⟩

theorem shrinks_freeEntry (he : t.entry i = some e) : t.Shrinks (t.freeEntry i e) := by
  intro j x hx
  rw [entry_freeEntry he] at hx
  split at hx
  · cases hx
  · exact ⟨x, hx, rfl⟩

theorem Distinct.of_shrinks (hd : t.Distinct cm) (h : t.Shrinks t') : t'.Distinct cm := by
  intro i j x x' hx hx' hsame
  obtain ⟨y, hy, hxy⟩ := h i x hx
  obtain ⟨y', hy', hxy'⟩ := h j x' hx'
  rw [hxy, hxy'] at hsame
  exact hd i j y y' hy hy' hsame

/-- The hash lists still hold the entries, none of which is new. -/
def Loses (cm : CaseMap) (t t' : AtomTable) : Prop := t'.Chained cm ∧ t.Shrinks t'

theorem loses_bump (h : t.Chained cm) {client : Bool} (hb : t.bump i client = .ok t') :
    t.Loses cm t' := by
  rw [bump] at hb
  split at hb
  · obtain rfl := Except.ok.inj hb
    exact ⟨h, .refl t⟩
  · rename_i e he
    split at hb
    · cases hb
    · obtain rfl := Except.ok.inj hb
      exact ⟨h.setEntry he rfl rfl, shrinks_setEntry he rfl⟩

theorem loses_pinAtom (h : t.Chained cm) (atom : Atom) : t.Loses cm (t.pinAtom atom) := by
  rw [pinAtom]
  split
  · exact ⟨h, .refl t⟩
  · split
    · exact ⟨h, .refl t⟩
    · rename_i e he
      exact ⟨h.setEntry he rfl rfl, shrinks_setEntry he rfl⟩

theorem loses_deleteAtom (h : t.Chained cm) (atom : Atom) (ifPinned : Bool) :
    t.Loses cm (t.deleteAtom atom ifPinned).2 := by
  rw [deleteAtom]
  split
  · exact ⟨h, .refl t⟩
  · split
    · exact ⟨h, .refl t⟩
    · rename_i e he
      split
      · exact ⟨h, .refl t⟩
      · split
        · exact ⟨h.freeEntry he, shrinks_freeEntry he⟩
        · exact ⟨h.setEntry he rfl rfl, shrinks_setEntry he rfl⟩

theorem loses_emptyBelow (h : t.Chained cm) (ifPinned : Bool) (n : ℕ) :
    t.Loses cm (t.emptyBelow ifPinned n) := by
  induction n with
  | zero => exact ⟨h, .refl t⟩
  | succ n ih =>
    rw [emptyBelow]
    split
    · exact ih
    · rename_i e he
      split
      · exact ⟨ih.1.freeEntry he, ih.2.trans (shrinks_freeEntry he)⟩
      · exact ih

/-- What `add_atom` does to a table: nothing, one more reference to an entry, or a new entry of a
name that its hash list does not have. -/
theorem addAtom_cases {str : List WChar} {client : Bool} {mem : Allocations} {a : Atom}
    {err : Option Status} (h : t.addAtom cm str client mem = .ok (a, err, t')) :
    t' = t ∨ (∃ i, t.bump i client = .ok t') ∨
      (str.length ≠ 0 ∧ str.length ≤ maxAtomLen ∧
        findAtomEntry cm t str (atomHash cm t str) = none ∧
        ∃ i e u, t.addAtomEntry e mem = some (i, u) ∧ e.hash = atomHash cm t str ∧ e.str = str ∧
          t' = u.setHash e.hash (i :: u.entries e.hash)) := by
  simp only [addAtom] at h
  split at h
  · exact .inl (congrArg (·.2.2) (Except.ok.inj h)).symm
  · rename_i hlen
    split at h
    · exact .inl (congrArg (·.2.2) (Except.ok.inj h)).symm
    · rename_i hmax
      split at h
      · rename_i i hi
        cases hb : t.bump i client with
        | error f =>
          rw [hb] at h
          cases h
        | ok u =>
          rw [hb] at h
          obtain rfl : u = t' := congrArg (·.2.2) (Except.ok.inj h)
          exact .inr (.inl ⟨i, hb⟩)
      · rename_i hnone
        split at h
        · split at h
          · rename_i i u hadd
            exact .inr (.inr ⟨hlen, Nat.le_of_not_lt hmax, hnone, i, _, u, hadd, rfl, rfl,
              (congrArg (·.2.2) (Except.ok.inj h)).symm⟩)
          · exact .inl (congrArg (·.2.2) (Except.ok.inj h)).symm
        · exact .inl (congrArg (·.2.2) (Except.ok.inj h)).symm

/-- A name that has the hash of its entry, if it has one, is not taken twice. -/
theorem Distinct.insert (h : t.Chained cm) (hd : t.Distinct cm) {mem : Allocations}
    (hadd : t.addAtomEntry e mem = some (i, t')) (ha : t.Agrees cm e.str)
    (hnone : findAtomEntry cm t e.str (atomHash cm t e.str) = none) :
    (t'.setHash e.hash (i :: t'.entries e.hash)).Distinct cm := by
  obtain ⟨-, hset⟩ := entry_addAtomEntry hadd
  have hother (j : ℕ) (y : AtomEntry) (hy : t.entry j = some y) : ¬ Same cm y.str e.str := by
    intro hsame
    exact find_none h hnone hy ((h.hashed j y hy).trans (ha j y hy hsame)) hsame
  intro j k x y hx hy hsame
  have hx' := (hset j).symm.trans hx
  have hy' := (hset k).symm.trans hy
  split at hx'
  · rename_i hj
    obtain rfl := Option.some.inj hx'
    split at hy'
    · rename_i hk
      exact hj.trans hk.symm
    · exact absurd hsame.symm (hother k y hy')
  · split at hy'
    · obtain rfl := Option.some.inj hy'
      exact absurd hsame (hother j x hx')
    · exact hd j k x y hx' hy' hsame

theorem step_cases {a : TableAction} (h : t.Chained cm) (hst : step cm t a = .ok t') :
    t.Loses cm t' ∨ ∃ str client mem i e u, a = .addAtom str client mem ∧ e.str = str ∧
      str.length ≠ 0 ∧ str.length ≤ maxAtomLen ∧ e.hash = atomHash cm t str ∧
      findAtomEntry cm t str (atomHash cm t str) = none ∧ t.addAtomEntry e mem = some (i, u) ∧
      t' = u.setHash e.hash (i :: u.entries e.hash) := by
  cases a with
  | addAtom str client mem =>
    cases hadd : t.addAtom cm str client mem with
    | error f =>
      rw [step, hadd] at hst
      cases hst
    | ok res =>
      obtain ⟨a, err, u⟩ := res
      rw [step, hadd] at hst
      obtain rfl : u = t' := Except.ok.inj hst
      obtain rfl | ⟨i, hb⟩ | ⟨hlen, hmax, hnone, i, e, u, hnew, hhash, hstr, ht⟩ :=
        addAtom_cases hadd
      · exact .inl ⟨h, .refl _⟩
      · exact .inl (loses_bump h hb)
      · exact .inr ⟨str, client, mem, i, e, u, rfl, hstr, hlen, hmax, hhash, hnone, hnew, ht⟩
  | deleteAtom atom ifPinned =>
    obtain rfl := Except.ok.inj hst
    exact .inl (loses_deleteAtom h atom ifPinned)
  | pinAtom atom =>
    obtain rfl := Except.ok.inj hst
    exact .inl (loses_pinAtom h atom)
  | emptyAtomTable ifPinned =>
    obtain rfl := Except.ok.inj hst
    exact .inl (loses_emptyBelow h ifPinned _)

theorem step_chained {a : TableAction} (h : t.Chained cm) (hst : step cm t a = .ok t') :
    t'.Chained cm := by
  obtain hloses | ⟨str, client, mem, i, e, u, -, rfl, hlen, hmax, hhash, -, hadd, rfl⟩ :=
    step_cases h hst
  · exact hloses.1
  · exact h.insert hadd hhash hlen hmax

theorem step_distinct {a : TableAction} (h : t.Chained cm) (hd : t.Distinct cm)
    (ha : t.Agreeing cm a) (hst : step cm t a = .ok t') : t'.Distinct cm := by
  obtain hloses | ⟨str, client, mem, i, e, u, rfl, rfl, -, -, -, hnone, hadd, rfl⟩ :=
    step_cases h hst
  · exact hd.of_shrinks hloses.2
  · exact hd.insert h hadd ha hnone

/-! ## The runs -/

theorem chained_of_run {n : ℤ} {ok : AtomTable → TableAction → Prop} {as : List TableAction}
    (hr : Run (step cm) ok (createTable n) as t) : t.Chained cm :=
  hr.invariant (chained_createTable n) fun _ _ _ h _ hst => step_chained h hst

theorem distinct_of_run {n : ℤ} {as : List TableAction}
    (hr : Run (step cm) (Agreeing cm) (createTable n) as t) : t.Distinct cm := by
  have hboth : t.Chained cm ∧ t.Distinct cm := by
    refine hr.invariant (I := fun t => t.Chained cm ∧ t.Distinct cm)
      ⟨chained_createTable n, fun _ _ _ _ h => by cases h⟩ ?_
    rintro t a t' ⟨h, hd⟩ ha hst
    exact ⟨step_chained h hst, step_distinct h hd ha hst⟩
  exact hboth.2

/-- In every run in which the names that are added have the hash of the entries that they are the
same as, each entry stands once in the list of its hash and in no other list, its atom fits in 16
bits and leads back to it, no two entries have the same name, and `find_atom` finds an entry by the
names that have its hash. -/
theorem atoms_consistent (cm : CaseMap) (n : ℤ) (as : List TableAction) (t : AtomTable)
    (hr : Run (step cm) (Agreeing cm) (createTable n) as t) :
    (∀ i e, t.entry i = some e → e.hash < t.entriesCount ∧
      (∀ h, (t.entries h).count i = if h = e.hash then 1 else 0) ∧
      (atomOfIndex i).toNat = i + 0xc000 ∧ t.getAtomEntry (atomOfIndex i) = some i) ∧
    (∀ h i, i ∈ t.entries h → ∃ e, t.entry i = some e) ∧
    (∀ i j e e', t.entry i = some e → t.entry j = some e' → Same cm e.str e'.str → i = j) ∧
    ∀ str, (∀ a, findAtom cm t str = (a, none) ↔
      ∃ i e, t.entry i = some e ∧ Same cm e.str str ∧ a = atomOfIndex i) ↔ t.Agrees cm str := by
  have h := chained_of_run hr
  have hd := distinct_of_run hr
  refine ⟨fun i e he => ⟨?_, fun hash => ?_, ?_, getAtomEntry_atomOfIndex he⟩, ?_, hd, findAtom_iff h hd⟩
  · rw [h.hashed i e he]
    exact atomHash_lt h e.str
  · split
    · rename_i hhash
      rw [hhash]
      rw [(h.once _).count, if_pos (h.chained i e he)]
    · rename_i hhash
      refine List.count_eq_zero.mpr fun hmem => hhash ?_
      obtain ⟨y, hy, hyh⟩ := h.listed hash i hmem
      obtain rfl := Option.some.inj (he.symm.trans hy)
      exact hyh.symm
  · rw [atomOfIndex_toNat (entry_lt he), minStrAtom]
  · intro hash i hmem
    obtain ⟨e, he, -⟩ := h.listed hash i hmem
    exact ⟨e, he⟩

/-! ## Names without one-way characters -/

/-- No character of the name has a lower case that does not go back to it. -/
def Plain (str : List WChar) : Prop := ∀ c ∈ str, c ∉ oneWay

instance (str : List WChar) : Decidable (Plain str) := List.decidableBAll (· ∉ oneWay) str

/-- The names that are added are plain. -/
def AddsPlain (_ : AtomTable) : TableAction → Prop
  | .addAtom str _ _ => Plain str
  | _ => True

instance (t : AtomTable) : (a : TableAction) → Decidable (AddsPlain t a)
  | .addAtom str _ _ => inferInstanceAs (Decidable (Plain str))
  | .deleteAtom _ _ | .pinAtom _ | .emptyAtomTable _ => inferInstanceAs (Decidable True)

theorem hashLoop_congr {s s' : List WChar} (h : s.map cm.toupperW = s'.map cm.toupperW) (k : ℕ)
    (hash : BitVec 16) : hashLoop cm k hash s = hashLoop cm k hash s' := by
  induction s generalizing s' k hash with
  | nil =>
    obtain rfl : s' = [] := by simpa using h.symm
    rfl
  | cons c s ih =>
    cases s' with
    | nil => cases h
    | cons c' s' =>
      obtain ⟨hc, hs⟩ := List.cons.inj h
      rw [hashLoop, hashLoop, hc]
      exact ih hs _ _

theorem Plain.toupperW {str : List WChar} (h : Plain str) :
    str.map wineCaseMap.toupperW = (str.map wineCaseMap.tolowerW).map wineCaseMap.toupperW := by
  rw [List.map_map]
  exact List.map_congr_left fun c hc => (toupperW_tolowerW (h c hc)).symm

theorem Plain.atomHash_eq {s s' : List WChar} (hs : Plain s) (hs' : Plain s')
    (hsame : Same wineCaseMap s s') : atomHash wineCaseMap t s = atomHash wineCaseMap t s' := by
  have hupper : s.map wineCaseMap.toupperW = s'.map wineCaseMap.toupperW := by
    rw [hs.toupperW, hs'.toupperW, same_iff.mp hsame]
  rw [atomHash, atomHash, hashLoop_congr hupper]

/-- Plain names have the hash of the entries that they are the same as. -/
theorem agreeing_of_addsPlain {n : ℤ} {as : List TableAction}
    (hr : Run (step wineCaseMap) AddsPlain (createTable n) as t) :
    Run (step wineCaseMap) (Agreeing wineCaseMap) (createTable n) as t ∧
      ∀ i e, t.entry i = some e → Plain e.str := by
  induction hr with
  | nil => exact ⟨.nil, (by intros; contradiction)⟩
  | @snoc as a t t' hr hok hst ih =>
    obtain ⟨hrun, hplain⟩ := ih
    have h := chained_of_run hr
    have hagree : t.Agreeing wineCaseMap a := by
      cases a with
      | addAtom str client mem => exact fun i e he hsame => (hplain i e he).atomHash_eq hok hsame
      | deleteAtom | pinAtom | emptyAtomTable => trivial
    refine ⟨hrun.snoc hagree hst, fun j x hx => ?_⟩
    obtain hloses | ⟨str, client, mem, i, e, u, rfl, rfl, -, -, -, -, hadd, rfl⟩ := step_cases h hst
    · obtain ⟨y, hy, hxy⟩ := hloses.2 j x hx
      rw [hxy]
      exact hplain j y hy
    · have hx' := ((entry_addAtomEntry hadd).2 j).symm.trans hx
      split at hx'
      · obtain rfl := Option.some.inj hx'
        exact hok
      · exact hplain j x hx'

def granted : Allocations := ⟨true, true, true⟩

/-- `Alpha` is added twice, pinned, and kept when the table is emptied. -/
def plainRun : List TableAction :=
  [.addAtom (wide "Alpha") true granted, .addAtom (wide "beta") true granted,
    .addAtom (wide "ALPHA") true granted, .pinAtom 0xc000, .emptyAtomTable false]

theorem atoms_consistent_sample :
    ∃ t, Run (step wineCaseMap) (Agreeing wineCaseMap) (createTable 0) plainRun t ∧
      findAtom wineCaseMap t (wide "alpha") = (0xc000, none) ∧
      ∀ i j e e', t.entry i = some e → t.entry j = some e' → Same wineCaseMap e.str e'.str →
        i = j := by
  obtain ⟨t, hr, hp⟩ := run_of_execTo (f := step wineCaseMap) (s := createTable 0) (q := AddsPlain)
    (g := fun t a => decide (AddsPlain t a)) (l := plainRun)
    (p := fun t => findAtom wineCaseMap t (wide "alpha") = (0xc000, none))
    (fun _ _ h => of_decide_eq_true h) (by decide +kernel)
  have hrun := (agreeing_of_addsPlain hr).1
  exact ⟨t, hrun, of_decide_eq_true hp, (atoms_consistent wineCaseMap 0 plainRun t hrun).2.2.1⟩

/-- The sign of kelvin and the letter `K`. -/
def kelvinRun : List TableAction :=
  [.addAtom [0x212a] true granted, .addAtom (wide "K") true granted]

/-- One name has two entries, and when one is deleted the other is not found. -/
theorem name_taken_twice :
    ∃ t u, Run (step wineCaseMap) (fun _ _ => True) (createTable 0) kelvinRun t ∧
      Run (step wineCaseMap) (fun _ _ => True) (createTable 0)
        (kelvinRun ++ [.deleteAtom 0xc001 true]) u ∧
      (∃ e e', t.entry 0 = some e ∧ t.entry 1 = some e' ∧ Same wineCaseMap e.str e'.str) ∧
      (∃ e, u.entry 0 = some e ∧ Same wineCaseMap e.str (wide "K")) ∧
      findAtom wineCaseMap u (wide "K") = (0, some .objectNameNotFound) := by
  obtain ⟨t, hr, hp⟩ := run_of_execTo (f := step wineCaseMap) (s := createTable 0)
    (q := fun _ _ => True) (g := fun _ _ => true) (l := kelvinRun)
    (p := fun t => decide ((t.entry 0).map (·.str) = some [0x212a]) &&
      decide ((t.entry 1).map (·.str) = some (wide "K")))
    (fun _ _ _ => trivial) (by decide)
  obtain ⟨u, hr', hp'⟩ := run_of_execTo (f := step wineCaseMap) (s := createTable 0)
    (q := fun _ _ => True) (g := fun _ _ => true) (l := kelvinRun ++ [.deleteAtom 0xc001 true])
    (p := fun t => decide ((t.entry 0).map (·.str) = some [0x212a]) &&
      decide (findAtom wineCaseMap t (wide "K") = (0, some .objectNameNotFound)))
    (fun _ _ _ => trivial) (by decide +kernel)
  simp only [Bool.and_eq_true, decide_eq_true_eq, Option.map_eq_some_iff] at hp hp'
  obtain ⟨⟨e, he, hstr⟩, e', he', hstr'⟩ := hp
  obtain ⟨⟨d, hd, hdstr⟩, hnone⟩ := hp'
  have hsame : Same wineCaseMap [0x212a] (wide "K") := by
    constructor <;> decide
  exact ⟨t, u, hr, hr', ⟨e, e', he, he', by rw [hstr, hstr']; exact hsame⟩,
    ⟨d, hd, by rw [hdstr]; exact hsame⟩, hnone⟩

end AtomTable

end Wine.Atoms
