import Mathlib.Algebra.GroupWithZero.Nat
import Wine.Atoms.Counts

/-!
# Windows and classes as holders of atoms

The users of a global atom are the properties and the classes that name it. While a request runs
it holds references of its own, so each function is specified for any number of users.
-/

namespace Wine.Atoms
open Wine.Lib

/-! ## Lists -/

section

variable {α : Type} {p q : α → Bool} {f : α → α} {l : List α} {x : α}

theorem sum_updateFirst (g : α → ℕ) (h : l.find? p = some x) :
    ((updateFirst p f l).map g).sum + g x = (l.map g).sum + g (f x) := by
  induction l with
  | nil => cases h
  | cons a l ih =>
    rw [updateFirst]
    by_cases ha : p a = true
    · rw [List.find?_cons_of_pos ha] at h
      obtain rfl := Option.some.inj h
      rw [if_pos ha, List.map_cons, List.map_cons, List.sum_cons, List.sum_cons]
      omega
    · rw [List.find?_cons_of_neg ha] at h
      have hrest := ih h
      rw [if_neg ha, List.map_cons, List.map_cons, List.sum_cons, List.sum_cons]
      omega

theorem sum_eraseP (g : α → ℕ) (h : l.find? p = some x) :
    ((l.eraseP p).map g).sum + g x = (l.map g).sum := by
  induction l with
  | nil => cases h
  | cons a l ih =>
    by_cases ha : p a = true
    · rw [List.find?_cons_of_pos ha] at h
      obtain rfl := Option.some.inj h
      rw [List.eraseP_cons_of_pos ha, List.map_cons, List.sum_cons]
      omega
    · rw [List.find?_cons_of_neg ha] at h
      have hrest := ih h
      rw [List.eraseP_cons_of_neg ha, List.map_cons, List.map_cons, List.sum_cons, List.sum_cons]
      omega

theorem countP_eq_sum (l : List α) : l.countP q = (l.map fun a => if q a then 1 else 0).sum := by
  induction l with
  | nil => rfl
  | cons a l ih =>
    rw [List.countP_cons, List.map_cons, List.sum_cons, ih]
    exact Nat.add_comm _ _

theorem countP_updateFirst (h : l.find? p = some x) :
    (updateFirst p f l).countP q + (if q x then 1 else 0) =
      l.countP q + if q (f x) then 1 else 0 := by
  rw [countP_eq_sum, countP_eq_sum]
  exact sum_updateFirst _ h

/-- An update that keeps a test keeps the number of elements that pass it. -/
theorem countP_updateFirst_of_eq (h : ∀ a, p a → q (f a) = q a) :
    (updateFirst p f l).countP q = l.countP q := by
  cases hfind : l.find? p with
  | none =>
    have hsame : updateFirst p f l = l := by
      rw [List.find?_eq_none] at hfind
      induction l with
      | nil => rfl
      | cons a l ih =>
        rw [updateFirst, if_neg (hfind a List.mem_cons_self),
          ih fun b hb => hfind b (List.mem_cons_of_mem a hb)]
    rw [hsame]
  | some x =>
    have hsum := countP_updateFirst (f := f) (q := q) hfind
    rw [h x (List.find?_some hfind)] at hsum
    exact Nat.add_right_cancel hsum

end

/-! ## Users of an atom -/

def propertyNames (l : List Property) (a : Atom) : ℕ := l.countP (·.names a)

/-- The number of properties and of classes that name an atom. -/
def State.properties (s : State) (a : Atom) : ℕ :=
  (s.windows.map fun w => propertyNames w.properties a).sum

def State.classesOf (s : State) (a : Atom) : ℕ := s.classes.countP (·.atom = a)

def State.holders (s : State) (a : Atom) : ℕ := s.properties a + s.classesOf a

/-- Every count of the global table is right. -/
def Balanced (s : State) : Prop := Counts s.globalTable s.holders

/-- The step touched tables at most. -/
def SameHolders (s s' : State) : Prop := s'.windows = s.windows ∧ s'.classes = s.classes

theorem SameHolders.holders {s s' : State} (h : SameHolders s s') : s'.holders = s.holders := by
  funext a
  rw [State.holders, State.properties, State.classesOf, h.1, h.2, State.holders,
    State.properties, State.classesOf]

theorem SameHolders.trans {s s' s'' : State} (h : SameHolders s s') (h' : SameHolders s' s'') :
    SameHolders s s'' :=
  ⟨h'.1.trans h.1, h'.2.trans h.2⟩

/-- A computation that stops with a fault says nothing. -/
abbrev ensures {α : Type} (m : M α) (Q : α → State → Prop) (s : State) : Prop :=
  wp m Q (fun _ => True) s

section

variable {users : Atom → ℕ} {s : State}

theorem ensures_setError {e : Status} (h : Counts s.globalTable users) :
    ensures (setError e) (fun _ s' => Counts s'.globalTable users ∧ SameHolders s s') s :=
  ⟨h, rfl, rfl⟩

theorem ensures_report {e : Option Status} (h : Counts s.globalTable users) :
    ensures (report e) (fun _ s' => Counts s'.globalTable users ∧ SameHolders s s') s := by
  cases e with
  | none => exact ⟨h, rfl, rfl⟩
  | some e => exact ensures_setError h

theorem ensures_getGlobalTable {create : Bool} {mem : Allocations}
    (h : Counts s.globalTable users) :
    ensures (getGlobalTable create mem) (fun r s' => Counts s'.globalTable users ∧
      SameHolders s s' ∧ (r = true ↔ s'.globalTable.isSome)) s := by
  simp only [getGlobalTable, wp_bind, wp_get]
  cases ht : s.globalTable with
  | some t =>
    refine ⟨h, ⟨rfl, rfl⟩, ?_⟩
    rw [ht]
    exact iff_of_true rfl rfl
  | none =>
    have hfail : Counts s.globalTable users ∧ SameHolders s s ∧
        (false = true ↔ s.globalTable.isSome = true) := by
      refine ⟨h, ⟨rfl, rfl⟩, ?_⟩
      rw [ht]
      exact iff_of_false (fun h => by cases h) (fun h => by cases h)
    simp only [wp_ite]
    refine ⟨fun hcreate => ⟨fun _ => ?_, fun _ => ?_⟩, fun _ => ?_⟩
    · simp only [wp_bind, wp_modify, wp_pure, State.setTable]
      exact ⟨.empty _ (ht ▸ h), ⟨rfl, rfl⟩, iff_of_true trivial rfl⟩
    · exact hfail
    · exact hfail

theorem ensures_grabGlobalAtom {a : Atom} (h : Counts s.globalTable users) :
    ensures (grabGlobalAtom a) (fun r s' =>
      Counts s'.globalTable (if r then addUser users a else users) ∧ SameHolders s s') s := by
  rw [grabGlobalAtom, ensures, wp_ite]
  constructor
  · intro hmin
    rw [wp_bind]
    refine wp_mono (ensures_getGlobalTable h) fun r s' hpost => ?_
    obtain ⟨hs', hsame, _⟩ := hpost
    rw [wp_ite]
    refine ⟨fun _ => ?_, fun _ => ⟨hs', hsame⟩⟩
    simp only [wp_bind, wp_get]
    cases ht : s'.globalTable with
    | none => exact ⟨hs', hsame⟩
    | some t =>
      simp only
      have ht' : Counts (some t) users := ht ▸ hs'
      cases hget : t.getAtomEntry a with
      | none => exact ⟨hs', hsame⟩
      | some i =>
        obtain ⟨_, hi, e, he, _⟩ := AtomTable.getAtomEntry_eq_some hget
        simp only
        cases hb : t.bump i false with
        | error x => exact trivial
        | ok t' =>
          have hcounts := ht'.bump hmin hi he hb
          exact ⟨hcounts, hsame⟩
  · intro hmin
    refine ⟨h.congr fun b hb => ?_, rfl, rfl⟩
    have hne : b ≠ a := fun heq => hmin (heq ▸ hb)
    simp [addUser, hne]

theorem ensures_releaseGlobalAtom {a : Atom} (h : Counts s.globalTable (addUser users a)) :
    ensures (releaseGlobalAtom a) (fun _ s' =>
      Counts s'.globalTable users ∧ SameHolders s s') s := by
  rw [releaseGlobalAtom, ensures, wp_ite]
  constructor
  · intro hmin
    rw [wp_bind]
    refine wp_mono (ensures_getGlobalTable h) fun r s' hpost => ?_
    obtain ⟨hs', hsame, hsome⟩ := hpost
    have hnone (hn : s'.globalTable = none) : False := by
      have ha := hs' a
      rw [hn] at ha
      have hzero := ha.unused hmin rfl
      simp [addUser] at hzero
    rw [wp_ite]
    refine ⟨fun _ => ?_, fun hr => ?_⟩
    · simp only [deleteAtom, wp_bind, wp_get, State.table]
      cases ht : s'.globalTable with
      | none => exact absurd ht hnone
      | some t =>
        simp only [wp_bind, wp_modify]
        rw [ht] at hs'
        refine wp_mono (ensures_report (s := s'.setTable (t.deleteAtom a true).2 none)
          hs'.release) fun _ s'' h'' => ⟨h''.1, ?_⟩
        exact hsame.trans h''.2
    · exact absurd (hsome.mpr (Option.isSome_iff_ne_none.mpr hnone)) hr
  · intro hmin
    refine ⟨h.congr fun b hb => ?_, rfl, rfl⟩
    have hne : b ≠ a := fun heq => hmin (heq ▸ hb)
    simp [addUser, hne]

theorem ensures_addAtom {cm : CaseMap} {str : List WChar} {client : Bool} {mem : Allocations}
    (h : Counts s.globalTable users) :
    ensures (addAtom cm none str client mem) (fun a s' => SameHolders s s' ∧
      (a = 0 → Counts s'.globalTable users) ∧ (a ≠ 0 →
        Counts s'.globalTable (if client then users else addUser users a))) s := by
  simp only [addAtom, ensures, wp_bind, wp_get, State.table]
  cases ht : s.globalTable with
  | none => exact ⟨⟨rfl, rfl⟩, fun _ => h, fun hne => absurd rfl hne⟩
  | some t =>
    simp only
    cases hadd : t.addAtom cm str client mem with
    | error e => exact trivial
    | ok r =>
      obtain ⟨a, e, t'⟩ := r
      have ht' : Counts (some t) users := ht ▸ h
      have hcounts := ht'.addAtom hadd
      simp only [wp_bind, wp_modify, wp_pure]
      have hzero : ¬minStrAtom ≤ (0 : Atom).toNat := by
        rw [minStrAtom]
        decide
      by_cases ha : a = 0
      · have hsame : Counts (some t') users := by
          rcases hcounts with hc | hc
          · exact hc.2
          · exact absurd (ha ▸ hc.1) hzero
        refine wp_mono (ensures_report (s := s.setTable t' none) hsame) fun _ s' hs' => ?_
        exact ⟨hs'.2, fun _ => hs'.1, fun hne => absurd ha hne⟩
      · have hmore : Counts (some t') (if client then users else addUser users a) := by
          rcases hcounts with hc | hc
          · exact absurd hc.1 ha
          · exact hc.2
        refine wp_mono (ensures_report (s := s.setTable t' none) hmore) fun _ s' hs' => ?_
        exact ⟨hs'.2, fun hz => absurd hz ha, fun _ => hs'.1⟩

theorem ensures_addGlobalAtom {cm : CaseMap} {str : List WChar} {mem : Allocations}
    (h : Counts s.globalTable users) :
    ensures (addGlobalAtom cm str mem) (fun a s' => SameHolders s s' ∧
      (a = 0 → Counts s'.globalTable users) ∧
      (a ≠ 0 → Counts s'.globalTable (addUser users a))) s := by
  rw [addGlobalAtom, ensures, wp_bind]
  refine wp_mono (ensures_getGlobalTable h) fun r s' hpost => ?_
  obtain ⟨hs', hsame, _⟩ := hpost
  rw [wp_ite]
  refine ⟨fun _ => ?_, fun _ => ⟨hsame, fun _ => hs', fun hne => absurd rfl hne⟩⟩
  exact wp_mono (ensures_addAtom hs') fun a s'' h'' => ⟨hsame.trans h''.1, h''.2⟩

theorem ensures_findGlobalAtom {cm : CaseMap} {str : List WChar}
    (h : Counts s.globalTable users) :
    ensures (findGlobalAtom cm str) (fun _ s' => Counts s'.globalTable users ∧ SameHolders s s')
      s := by
  rw [findGlobalAtom, ensures, wp_bind]
  refine wp_mono (ensures_getGlobalTable h) fun r s' hpost => ?_
  obtain ⟨hs', hsame, _⟩ := hpost
  rw [wp_ite]
  refine ⟨fun _ => ⟨hs', hsame⟩, fun _ => ?_⟩
  rw [wp_bind, wp_get]
  split
  · exact ⟨hs', hsame⟩
  · split
    · exact ⟨hs', hsame⟩
    · exact ⟨hs', hsame⟩

theorem ensures_getWindow (window : WindowId) (h : Counts s.globalTable users) :
    ensures (getWindow window) (fun r s' => Counts s'.globalTable users ∧ SameHolders s s' ∧
      ∀ win, r = some win → s'.windows.find? (·.handle = window) = some win) s := by
  simp only [getWindow, ensures, wp_bind, wp_get]
  cases hfind : s.windows.find? (·.handle = window) with
  | some win =>
    refine ⟨h, ⟨rfl, rfl⟩, ?_⟩
    rintro w ⟨⟩
    exact hfind
  | none => exact ⟨h, ⟨rfl, rfl⟩, (fun _ h => by cases h)⟩

end

/-! ## Properties -/

section

variable {s : State} {win : Window} {window : WindowId}

theorem holders_updateWindow (h : s.windows.find? (·.handle = window) = some win)
    (f : Window → Window) (a : Atom) :
    (s.updateWindow window f).holders a + propertyNames win.properties a =
      s.holders a + propertyNames (f win).properties a := by
  have hsum := sum_updateFirst (f := f) (fun w => propertyNames w.properties a) h
  simp only [State.holders, State.properties, State.classesOf, State.updateWindow] at hsum ⊢
  omega

theorem handle_of_find (h : s.windows.find? (·.handle = window) = some win) :
    win.handle = window := by
  simpa using List.find?_some h

theorem freeProperty_spec {l : List Property} {i : ℕ} (h : freeProperty l = some i) :
    ∃ hi : i < l.length, (l[i]).inUse = false := by
  have hp := List.find?_some h
  cases hget : l[i]? with
  | none => simp [hget] at hp
  | some p =>
    obtain ⟨hi, hgeti⟩ := List.getElem?_eq_some_iff.mp hget
    refine ⟨hi, ?_⟩
    rw [hgeti]
    simpa [hget] using hp

/-- A property in a new place of the array, or in a free one. -/
theorem holders_newProperty (h : s.windows.find? (·.handle = win.handle) = some win)
    {f : Window → Window} {a : Atom}
    (hf : ∀ b, propertyNames (f win).properties b =
      propertyNames win.properties b + if b = a then 1 else 0) :
    (s.updateWindow win.handle f).holders = addUser s.holders a := by
  funext b
  have hsum := holders_updateWindow h f b
  rw [hf b] at hsum
  rw [addUser]
  split
  · rename_i hb
    rw [if_pos hb] at hsum
    omega
  · rename_i hb
    rw [if_neg hb] at hsum
    omega

theorem names_new {type : PropertyType} (htype : type ≠ .free) (a b : Atom) (handle : ℕ) :
    (⟨type, a, handle⟩ : Property).names b = decide (b = a) := by
  simp [Property.names, Property.inUse, htype, eq_comm]

theorem ensures_setProperty {users : Atom → ℕ} {a : Atom} {handle : ℕ} {type : PropertyType}
    {mem : Allocations} (htype : type ≠ .free)
    (hwin : s.windows.find? (·.handle = win.handle) = some win)
    (h : Counts s.globalTable fun b => s.holders b + users b) :
    ensures (setProperty win a handle type mem) (fun _ s' =>
      Counts s'.globalTable fun b => s'.holders b + users b) s := by
  rw [setProperty, ensures, wp_ite]
  constructor
  · -- the property is there: only its type and its handle change
    intro _
    rw [wp_modify]
    have hsame : (s.updateWindow win.handle fun w => { w with
        properties := updateFirst (·.names a) (fun p => ⟨type, p.atom, handle⟩) w.properties
        }).holders = s.holders := by
      funext b
      have hsum := holders_updateWindow hwin (fun w => { w with
        properties := updateFirst (·.names a) (fun p => ⟨type, p.atom, handle⟩) w.properties }) b
      have hnames : propertyNames (updateFirst (·.names a) (fun p => ⟨type, p.atom, handle⟩)
          win.properties) b = propertyNames win.properties b := by
        apply countP_updateFirst_of_eq
        intro p hp
        rw [Property.names, Bool.and_eq_true] at hp
        rw [names_new htype, Property.names, hp.1, Bool.true_and]
        exact decide_eq_decide.mpr eq_comm
      simp only [hnames] at hsum
      omega
    rw [hsame]
    exact h
  · intro _
    rw [wp_bind]
    refine wp_mono (ensures_grabGlobalAtom (a := a) h) fun r s' hpost => ?_
    obtain ⟨hs', hsame⟩ := hpost
    have hwin' : s'.windows.find? (·.handle = win.handle) = some win := by rw [hsame.1, hwin]
    rw [← hsame.holders] at hs'
    rw [wp_ite]
    refine ⟨fun hr => ?_, fun hr => ?_⟩
    · rw [if_pos hr] at hs'
      have hplaced {f : Window → Window} (hf : ∀ b, propertyNames (f win).properties b =
          propertyNames win.properties b + if b = a then 1 else 0) :
          Counts (s'.updateWindow win.handle f).globalTable
            fun b => (s'.updateWindow win.handle f).holders b + users b := by
        rw [holders_newProperty hwin' hf]
        refine hs'.congr fun b _ => ?_
        simp only [addUser]
        split <;> omega
      have happend (n : ℕ) (b : Atom) : propertyNames
          (win.properties ++ [⟨type, a, handle⟩]) b =
          propertyNames win.properties b + if b = a then 1 else 0 := by
        rw [propertyNames, List.countP_append, List.countP_singleton, names_new htype]
        simp [propertyNames]
      cases hfree : freeProperty win.properties with
      | some i =>
        simp only [wp_modify]
        apply hplaced
        intro b
        obtain ⟨hi, hunused⟩ := freeProperty_spec hfree
        have hnames : (win.properties[i]).names b = false := by
          rw [Property.names, hunused, Bool.false_and]
        simp only [propertyNames]
        rw [List.countP_set hi, hnames, names_new htype]
        simp
      | none =>
        simp only [wp_ite, wp_modify]
        refine ⟨fun _ => ⟨fun _ => hplaced (happend 0), fun _ => ?_⟩, fun _ => hplaced (happend 0)⟩
        rw [wp_bind]
        refine wp_mono (ensures_setError hs') fun _ s'' h'' => ?_
        have hback : Counts s''.globalTable (addUser (fun b => s'.holders b + users b) a) := h''.1
        refine wp_mono (ensures_releaseGlobalAtom hback) fun _ s₃ h₃ => ?_
        rw [(h''.2.trans h₃.2).holders]
        exact h₃.1
    · rw [if_neg hr] at hs'
      exact hs'

theorem ensures_removeProperty {a : Atom}
    (hwin : s.windows.find? (·.handle = win.handle) = some win) (h : Balanced s) :
    ensures (removeProperty win a) (fun _ => Balanced) s := by
  rw [removeProperty, ensures]
  cases hfind : win.properties.find? (·.names a) with
  | none => exact h
  | some p =>
    have hpa : p.names a = true := List.find?_some (p := fun p : Property => p.names a) hfind
    have hp := hpa
    rw [Property.names, Bool.and_eq_true, decide_eq_true_eq] at hp
    -- the users without this property
    let users : Atom → ℕ := fun b => s.holders b - if b = a then 1 else 0
    have hpos : 0 < s.holders a := by
      have hcount : 0 < propertyNames win.properties a := by
        rw [propertyNames, List.countP_pos_iff]
        exact ⟨p, List.mem_of_find?_eq_some hfind, hpa⟩
      have hle := sum_eraseP (fun w => propertyNames w.properties a) hwin
      simp only [State.holders, State.properties]
      omega
    have husers : addUser users a = s.holders := by
      funext b
      simp only [addUser, users]
      split
      · rename_i hb
        subst hb
        omega
      · rfl
    simp only [wp_bind, wp_modify, wp_pure]
    have hcounts : Counts s.globalTable (addUser users a) := by
      rw [husers]
      exact h
    refine wp_mono (ensures_releaseGlobalAtom hcounts) fun _ s' hpost => ?_
    obtain ⟨hs', hsame⟩ := hpost
    · have hwin' : s'.windows.find? (·.handle = win.handle) = some win := by rw [hsame.1, hwin]
      refine hs'.congr fun b _ => ?_
      have hsum := holders_updateWindow hwin' (fun w => { w with
        properties := updateFirst (·.names a) (fun p => { p with type := .free }) w.properties }) b
      have hprops := countP_updateFirst (q := fun p => p.names b)
        (f := fun p : Property => { p with type := .free }) hfind
      have hnames : p.names b = decide (b = a) := by
        rw [Property.names, hp.1, Bool.true_and, hp.2]
        exact decide_eq_decide.mpr eq_comm
      have hgone : ({ p with type := .free } : Property).names b = false := by
        simp [Property.names, Property.inUse]
      rw [hnames, hgone] at hprops
      rw [hsame.holders] at hsum
      simp only [propertyNames, users] at hsum hprops ⊢
      by_cases hb : b = a
      · simp only [hb, decide_true, if_true, Bool.false_eq_true, if_false] at hsum hprops ⊢
        omega
      · simp only [hb, decide_false, if_false, Bool.false_eq_true] at hsum hprops ⊢
        omega

end

end Wine.Atoms
