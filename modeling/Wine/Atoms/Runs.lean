import Wine.Atoms.Holders

/-!
# Runs of property, class and atom requests

A class that goes away does not give back its atom. Where no class of a string atom goes away and
clients only take back what they added, every count is right after every run.
-/

namespace Wine.Atoms
open Wine.Lib

def State.atomEntry (s : State) (a : Atom) : Option AtomEntry := entryIn s.globalTable a

/-- A class of this atom holds no reference. -/
def Unreferenced (c : WindowClass) : Prop := ¬minStrAtom ≤ c.atom.toNat

instance (c : WindowClass) : Decidable (Unreferenced c) := inferInstanceAs (Decidable (¬_))

/-- The request destroys no class of a string atom and lets no client take back a reference that a
property or a class holds. -/
def Careful (s : State) : Request → Prop
  | .destroyClass process atom inst =>
    ∀ c, findClass process atom inst s.classes = some c → c.count = 0 → Unreferenced c
  | .destroyProcessClasses process => ∀ c ∈ s.classes, c.process = process → Unreferenced c
  | .deleteAtom none atom _ =>
    ∀ e, s.atomEntry atom = some e → e.pinned = false → e.deletes < e.adds
  | .emptyAtomTable none ifPinned _ =>
    ∀ a e, s.atomEntry a = some e → (!e.pinned || ifPinned) = true → s.holders a = 0
  | _ => True

section

variable {s : State} {win : Window}

theorem holders_classes {s t : State} (hw : t.windows = s.windows) (a : Atom) :
    t.holders a + s.classesOf a = s.holders a + t.classesOf a := by
  simp only [State.holders, State.properties, hw]
  omega

theorem classesOf_updateClass {c : WindowClass} {id : ClassId} {f : WindowClass → WindowClass}
    (h : s.classes.find? (·.id = id) = some c) (a : Atom) :
    (s.updateClass id f).classesOf a + (if c.atom = a then 1 else 0) =
      s.classesOf a + if (f c).atom = a then 1 else 0 := by
  have hcount := countP_updateFirst (q := fun c : WindowClass => c.atom = a) (f := f) h
  simpa [State.classesOf, State.updateClass] using hcount

theorem holders_updateClass {c : WindowClass} {id : ClassId}
    (h : s.classes.find? (·.id = id) = some c) (f : WindowClass → WindowClass) (a : Atom) :
    (s.updateClass id f).holders a + (if c.atom = a then 1 else 0) =
      s.holders a + if (f c).atom = a then 1 else 0 := by
  have hcount := classesOf_updateClass (f := f) h a
  have hsum := holders_classes (s := s) (t := s.updateClass id f) rfl a
  omega

theorem holders_pos_of_class {c : WindowClass} (h : c ∈ s.classes) : 0 < s.holders c.atom := by
  have hpos : 0 < s.classesOf c.atom := by
    rw [State.classesOf, List.countP_pos_iff]
    exact ⟨c, h, by simp⟩
  exact Nat.lt_of_lt_of_le hpos (Nat.le_add_left _ _)

theorem classesOf_updateClass_of_eq {id : ClassId} {f : WindowClass → WindowClass}
    (hf : ∀ c, (f c).atom = c.atom) (a : Atom) :
    (s.updateClass id f).classesOf a = s.classesOf a := by
  apply countP_updateFirst_of_eq
  intro c _
  rw [hf]

theorem Balanced.updateClass {id : ClassId} {f : WindowClass → WindowClass} (h : Balanced s)
    (hf : ∀ c, (f c).atom = c.atom) : Balanced (s.updateClass id f) := by
  refine h.congr fun a _ => ?_
  have hsum := holders_classes (s := s) (t := s.updateClass id f) rfl a
  rw [classesOf_updateClass_of_eq hf] at hsum
  omega

theorem Balanced.of_same {s s' : State} (h : Counts s'.globalTable s.holders)
    (hsame : SameHolders s s') : Balanced s' := by
  rw [Balanced, hsame.holders]
  exact h

theorem ensures_releaseClass {id : ClassId} (h : Balanced s) :
    ensures (releaseClass id) (fun _ s' => Balanced s' ∧ s'.windows = s.windows) s := by
  simp only [releaseClass, ensures, wp_bind, wp_get]
  cases hfind : s.classes.find? (·.id = id) with
  | none => exact trivial
  | some c =>
    simp only [wp_ite, wp_modify, wp_throw, implies_true, and_true]
    exact fun _ => ⟨h.updateClass fun _ => rfl, rfl⟩

theorem ensures_grabClass {process : ProcessId} {atom : Atom} {inst : ℕ} (h : Balanced s) :
    ensures (grabClass process atom inst) (fun _ => Balanced) s := by
  simp only [grabClass, ensures, wp_bind, wp_get]
  cases hfind : findClass process atom inst s.classes with
  | none => exact h
  | some c =>
    simp only [wp_bind, wp_ite, wp_throw, implies_true, true_and]
    exact fun _ => h.updateClass fun _ => rfl

theorem holders_addClass (s : State) (c : WindowClass) :
    (s.addClass c).holders = addUser s.holders c.atom := by
  funext a
  have hcount : (s.addClass c).classesOf a = s.classesOf a + if c.atom = a then 1 else 0 := by
    simp only [State.classesOf, State.addClass]
    split
    · simp [List.countP_cons]
    · simp [List.countP_append, List.countP_singleton]
  have hsum := holders_classes (s := s) (t := s.addClass c) rfl a
  rw [addUser]
  by_cases ha : a = c.atom
  · rw [if_pos ha]
    rw [if_pos ha.symm] at hcount
    omega
  · rw [if_neg ha]
    rw [if_neg fun h => ha h.symm] at hcount
    omega

theorem ensures_createClass {process : ProcessId} {req : ClassArgs} {mem : Allocations}
    (h : Balanced s) : ensures (createClass process req mem) (fun _ => Balanced) s := by
  simp only [createClass, ensures, wp_bind, wp_get, wp_ite]
  refine ⟨fun _ => h, fun _ => ⟨fun _ => h, fun _ => ?_⟩⟩
  refine wp_mono (ensures_grabGlobalAtom (a := req.atom) h) fun r s' hpost => ?_
  obtain ⟨hs', hsame⟩ := hpost
  refine ⟨fun hr => ⟨fun _ => ?_, fun _ => ?_⟩, fun hr => ?_⟩
  · rw [wp_modify, Balanced, holders_addClass, hsame.holders]
    rwa [if_pos hr] at hs'
  · rw [if_pos hr] at hs'
    refine wp_mono (ensures_setError hs') fun _ s'' h'' => ?_
    refine wp_mono (ensures_releaseGlobalAtom h''.1) fun _ s₃ h₃ => ?_
    exact .of_same h₃.1 ((hsame.trans h''.2).trans h₃.2)
  · rw [if_neg hr] at hs'
    exact .of_same hs' hsame

theorem classesOf_erase {c : WindowClass} (hc : Unreferenced c) {a : Atom}
    (ha : minStrAtom ≤ a.toNat) (l : List WindowClass) :
    (l.erase c).countP (·.atom = a) = l.countP (·.atom = a) := by
  have hne : c.atom ≠ a := by
    rintro rfl
    exact hc ha
  induction l with
  | nil => rfl
  | cons d l ih =>
    by_cases hd : d = c
    · subst hd
      simp [hne]
    · rw [List.erase_cons_tail (by simpa using hd), List.countP_cons, List.countP_cons, ih]

theorem ensures_destroyClass {process : ProcessId} {atom : Atom} {inst : ℕ} (h : Balanced s)
    (hc : ∀ c, findClass process atom inst s.classes = some c → c.count = 0 → Unreferenced c) :
    ensures (destroyClass process atom inst) (fun _ => Balanced) s := by
  simp only [destroyClass, ensures, wp_bind, wp_get]
  cases hfind : findClass process atom inst s.classes with
  | none => exact h
  | some c =>
    simp only [wp_ite]
    refine ⟨fun _ => h, fun hcount => ?_⟩
    rw [dropClass, wp_modify]
    refine h.congr fun a ha => ?_
    have hsum := holders_classes (s := s) (t := { s with classes := s.classes.erase c }) rfl a
    simp only [State.classesOf, classesOf_erase (hc c hfind (by simpa using hcount)) ha] at hsum
    omega

theorem ensures_destroyProcessClasses {process : ProcessId} (h : Balanced s)
    (hc : ∀ c ∈ s.classes, c.process = process → Unreferenced c) :
    ensures (destroyProcessClasses process) (fun _ => Balanced) s := by
  rw [destroyProcessClasses, ensures, wp_modify]
  refine h.congr fun a ha => ?_
  have hsum := holders_classes (s := s)
    (t := { s with classes := s.classes.filter (·.process ≠ process) }) rfl a
  have hcount : (s.classes.filter (·.process ≠ process)).countP (·.atom = a) =
      s.classes.countP (·.atom = a) := by
    rw [List.countP_filter]
    apply List.countP_congr
    intro c hmem
    simp only [Bool.and_eq_true, decide_eq_true_eq, and_iff_left_iff_imp]
    rintro rfl hprocess
    exact hc c hmem hprocess ha
  simp only [State.classesOf, hcount] at hsum
  omega

theorem ensures_setClassInfo {process : ProcessId} {window : WindowId} {req : ClassInfo}
    (h : Balanced s) : ensures (setClassInfo process window req) (fun _ => Balanced) s := by
  rw [setClassInfo, ensures, wp_bind]
  refine wp_mono (ensures_getWindow window h) fun r s' hpost => ?_
  obtain ⟨hs', hsame, _⟩ := hpost
  have hbal : Balanced s' := .of_same hs' hsame
  cases r with
  | none => exact hbal
  | some win =>
    simp only [wp_bind, wp_get]
    cases hclass : win.wclass.bind fun id => s'.classes.find? (·.id = id) with
    | none => exact hbal
    | some c =>
      have hfind : s'.classes.find? (·.id = c.id) = some c := by
        obtain ⟨id, _, hid⟩ := Option.bind_eq_some_iff.mp hclass
        have hcid : c.id = id := by simpa using List.find?_some hid
        rw [hcid]
        exact hid
      simp only [wp_ite]
      refine ⟨fun _ => hbal, fun _ => ⟨fun _ => hbal, fun _ => ⟨fun _ => hbal, fun _ =>
        ⟨fun _ => hbal, fun _ => ?_⟩⟩⟩⟩
      cases hatom : req.atom with
      | none =>
        simp only [wp_modify]
        refine hbal.congr fun a _ => ?_
        have hsum := holders_updateClass hfind (fun d => { d with
          atom := c.atom, style := req.style.getD d.style, winExtra := req.winExtra.getD d.winExtra,
          inst := req.inst.getD d.inst }) a
        exact Nat.add_right_cancel hsum
      | some atom =>
        simp only [wp_bind]
        refine wp_mono (ensures_grabGlobalAtom (a := atom) hbal) fun r s₁ hpost => ?_
        obtain ⟨hs₁, hsame₁⟩ := hpost
        simp only [wp_ite, wp_bind]
        refine ⟨fun hr => ?_, fun hr => ?_⟩
        · rw [if_pos hr] at hs₁
          -- the users once the class no longer names its old atom
          let users : Atom → ℕ := fun b => addUser s'.holders atom b - if b = c.atom then 1 else 0
          have husers : addUser users c.atom = addUser s'.holders atom := by
            funext b
            simp only [addUser, users]
            by_cases hb : b = c.atom
            · have hpos := holders_pos_of_class (List.mem_of_find?_eq_some hfind)
              rw [if_pos hb, if_pos hb, hb]
              split <;> omega
            · rw [if_neg hb, if_neg hb, Nat.sub_zero]
          rw [← husers] at hs₁
          refine wp_mono (ensures_releaseGlobalAtom hs₁) fun _ s₂ hpost => ?_
          obtain ⟨hs₂, hsame₂⟩ := hpost
          have hsame' := hsame₁.trans hsame₂
          have hfind₂ : s₂.classes.find? (·.id = c.id) = some c := by rw [hsame'.2, hfind]
          simp only [wp_modify]
          refine hs₂.congr fun b _ => ?_
          have hsum := holders_updateClass hfind₂ (fun d => { d with
            atom := atom, style := req.style.getD d.style,
            winExtra := req.winExtra.getD d.winExtra, inst := req.inst.getD d.inst }) b
          rw [hsame'.holders] at hsum
          simp only [users, addUser, eq_comm (a := b)]
          simp only at hsum
          by_cases hatom : atom = b
          · rw [if_pos hatom] at hsum ⊢
            omega
          · rw [if_neg hatom] at hsum ⊢
            omega
        · rw [if_neg hr] at hs₁
          exact .of_same hs₁ hsame₁

/-! ## Windows -/

theorem ensures_createWindow {process : ProcessId} {window : WindowId} {atom : Atom} {inst : ℕ}
    {ok : Bool} (h : Balanced s) :
    ensures (createWindow process window atom inst ok) (fun _ => Balanced) s := by
  rw [createWindow, ensures, wp_bind]
  refine wp_mono (ensures_grabClass h) fun r s' hs' => ?_
  cases r with
  | none => exact hs'
  | some id =>
    simp only [wp_bind, wp_get, wp_ite, wp_modify]
    refine ⟨fun _ => ?_, fun _ => ?_⟩
    · refine hs'.congr fun a _ => ?_
      simp [State.holders, State.properties, State.classesOf, propertyNames]
    · refine wp_mono (ensures_setError hs') fun _ s'' h'' => ?_
      exact wp_mono (ensures_releaseClass (.of_same h''.1 h''.2)) fun _ _ h₃ => h₃.1

theorem ensures_detachWindow {window : WindowId} (h : Balanced s) :
    ensures (detachWindow window) (fun _ => Balanced) s := by
  rw [detachWindow, ensures, wp_bind]
  refine wp_mono (ensures_getWindow window h) fun r s' hpost => ?_
  obtain ⟨hs', hsame, hwin⟩ := hpost
  have hbal : Balanced s' := .of_same hs' hsame
  cases r with
  | none => exact hbal
  | some win =>
    simp only
    cases hclass : win.wclass with
    | none => exact hbal
    | some id =>
      simp only [wp_bind, wp_modify]
      refine wp_mono (ensures_releaseClass hbal) fun _ s'' hpost => ?_
      obtain ⟨h'', hw⟩ := hpost
      refine h''.congr fun a _ => ?_
      have hfind : s''.windows.find? (·.handle = window) = some win := by rw [hw, hwin win rfl]
      have hsum := holders_updateWindow hfind (fun w => { w with wclass := none }) a
      exact Nat.add_right_cancel hsum

theorem ensures_destroyProperties (l : List Property) {users : Atom → ℕ}
    (h : Counts s.globalTable fun a => users a + propertyNames l a) :
    ensures (destroyProperties l) (fun _ s' => Counts s'.globalTable users ∧ SameHolders s s')
      s := by
  induction l generalizing s with
  | nil => exact ⟨h, rfl, rfl⟩
  | cons p l ih =>
    rw [destroyProperties, ensures, wp_ite]
    refine ⟨fun hp => ?_, fun hp => ?_⟩
    · rw [wp_bind]
      have husers : (fun a => users a + propertyNames (p :: l) a) =
          addUser (fun a => users a + propertyNames l a) p.atom := by
        funext a
        simp only [addUser, propertyNames, List.countP_cons, Property.names, hp, Bool.true_and,
          decide_eq_true_eq, eq_comm (a := a)]
        split <;> omega
      rw [husers] at h
      refine wp_mono (ensures_releaseGlobalAtom h) fun _ s' h' => ?_
      exact wp_mono (ih h'.1) fun _ s'' h'' => ⟨h''.1, h'.2.trans h''.2⟩
    · have husers : (fun a => users a + propertyNames (p :: l) a) =
          fun a => users a + propertyNames l a := by
        funext a
        simp [propertyNames, Property.names, hp]
      rw [husers] at h
      exact ih h

theorem ensures_destroyWindow {window : WindowId} (h : Balanced s) :
    ensures (destroyWindow window) (fun _ => Balanced) s := by
  rw [destroyWindow, ensures, wp_bind]
  refine wp_mono (ensures_getWindow window h) fun r s₁ hpost => ?_
  obtain ⟨hs₁, hsame₁, hwin⟩ := hpost
  have hbal : Balanced s₁ := .of_same hs₁ hsame₁
  cases r with
  | none => exact hbal
  | some win =>
    have hfind := hwin win rfl
    -- the users without the properties of the window
    let users : Atom → ℕ := fun a => s₁.holders a - propertyNames win.properties a
    have hle (a : Atom) : propertyNames win.properties a ≤ s₁.holders a := by
      have hsum := sum_eraseP (fun w => propertyNames w.properties a) hfind
      simp only [State.holders, State.properties]
      omega
    have husers : (fun a => users a + propertyNames win.properties a) = s₁.holders := by
      funext a
      exact Nat.sub_add_cancel (hle a)
    have hcounts : Counts s₁.globalTable fun a => users a + propertyNames win.properties a := by
      rw [husers]
      exact hbal
    simp only [wp_bind]
    refine wp_mono (ensures_destroyProperties _ hcounts) fun _ s₂ hpost => ?_
    obtain ⟨hs₂, hsame₂⟩ := hpost
    have hgone {t : State} (hs : Counts t.globalTable users) (hw : t.windows = s₁.windows)
        (hc : ∀ a, t.classesOf a = s₁.classesOf a) :
        Balanced { t with windows := t.windows.eraseP (·.handle = window) } := by
      refine hs.congr fun a _ => ?_
      have hsum := sum_eraseP (fun w => propertyNames w.properties a) hfind
      have hclasses := hc a
      simp only [State.holders, State.properties, State.classesOf, users, hw] at hclasses ⊢
      omega
    cases hclass : win.wclass with
    | none =>
      simp only [wp_modify]
      exact hgone hs₂ hsame₂.1 fun a => by rw [State.classesOf, hsame₂.2, State.classesOf]
    | some id =>
      simp only [wp_bind, releaseClass, wp_get]
      cases hfindc : s₂.classes.find? (·.id = id) with
      | none => exact trivial
      | some c =>
        simp only [wp_ite, wp_modify, wp_throw, implies_true, and_true]
        intro _
        refine hgone (t := s₂.updateClass id fun c => { c with count := c.count - 1 }) hs₂ hsame₂.1
          fun a => ?_
        rw [classesOf_updateClass_of_eq (f := fun c => { c with count := c.count - 1 })
          fun _ => rfl, State.classesOf, hsame₂.2, State.classesOf]

end

/-! ## Atom requests -/

section

variable {s : State}

theorem ensures_getTable {ref : TableRef} {mem : Allocations} (h : Balanced s) :
    ensures (getTable ref mem) (fun _ s' => Balanced s' ∧
      (∀ a e, s'.atomEntry a = some e → s.atomEntry a = some e) ∧ SameHolders s s') s := by
  cases ref with
  | none =>
    rw [getTable]
    refine wp_mono (wp_and (ensures_getGlobalTable h)
      (show ensures (getGlobalTable true mem) (fun _ s' =>
        ∀ a e, s'.atomEntry a = some e → s.atomEntry a = some e) s from ?_))
      fun r s' hpost => ⟨.of_same hpost.1.1 hpost.1.2.1, hpost.2, hpost.1.2.1⟩
    simp only [getGlobalTable, ensures, wp_bind, wp_get]
    cases ht : s.globalTable with
    | some t => exact fun _ _ h => h
    | none =>
      have hempty (a : Atom) : (createTable hashSize).atomEntry a = none := by
        rw [AtomTable.atomEntry, AtomTable.entry]
        split <;> rfl
      simp only [wp_ite, wp_bind, wp_modify, wp_pure, State.setTable, State.atomEntry,
        entryIn_some, hempty]
      exact ⟨fun _ => ⟨fun _ _ _ => (fun h => by cases h), fun _ _ _ h => h⟩, fun _ _ _ h => h⟩
  | some i =>
    simp only [getTable, ensures, wp_bind, wp_get, wp_ite]
    exact ⟨fun _ => ⟨h, fun _ _ h => h, rfl, rfl⟩, fun _ => ⟨h, fun _ _ h => h, rfl, rfl⟩⟩

theorem ensures_handleAddAtom {cm : CaseMap} {table : TableRef} {name : List WChar}
    {mem : Allocations} (h : Balanced s) :
    ensures (handleAddAtom cm table name mem) (fun _ => Balanced) s := by
  rw [handleAddAtom, ensures, wp_bind]
  refine wp_mono (ensures_getTable h) fun r s' hpost => ?_
  obtain ⟨hs', _, _⟩ := hpost
  rw [wp_ite]
  refine ⟨fun _ => ?_, fun _ => hs'⟩
  cases table with
  | none =>
    refine wp_mono (ensures_addAtom hs') fun a s'' hpost => ?_
    obtain ⟨hsame, hzero, hadd⟩ := hpost
    by_cases ha : a = 0
    · exact .of_same (hzero ha) hsame
    · exact .of_same (hadd ha) hsame
  | some i =>
    simp only [addAtom, wp_bind, wp_get]
    cases s'.table (some i) with
    | none => exact hs'
    | some t =>
      simp only
      cases t.addAtom cm name true mem with
      | error e => exact trivial
      | ok r =>
        obtain ⟨a, e, t'⟩ := r
        simp only [wp_bind, wp_modify, wp_pure]
        exact wp_mono (ensures_report (s := s'.setTable t' (some i)) hs')
          fun _ s'' h'' => .of_same h''.1 h''.2

theorem ensures_handleDeleteAtom {table : TableRef} {atom : Atom} {mem : Allocations}
    (h : Balanced s) (hc : Careful s (.deleteAtom table atom mem)) :
    ensures (handleDeleteAtom table atom mem) (fun _ => Balanced) s := by
  rw [handleDeleteAtom, ensures, wp_bind]
  refine wp_mono (ensures_getTable h) fun r s' hpost => ?_
  obtain ⟨hs', hentry, hsame⟩ := hpost
  rw [wp_ite]
  refine ⟨fun _ => ?_, fun _ => hs'⟩
  simp only [deleteAtom, wp_bind, wp_get]
  cases table with
  | none =>
    cases ht : s'.globalTable with
    | none =>
      simp only [State.table, ht]
      exact hs'
    | some t =>
      simp only [State.table, ht, wp_bind, wp_modify]
      have hcounts : Counts (some t) s'.holders := ht ▸ hs'
      have hheld (e : AtomEntry) (he : t.atomEntry atom = some e) (hp : e.pinned = false) :
          e.deletes < e.adds := by
        apply hc e (hentry atom e _) hp
        rw [State.atomEntry, ht]
        exact he
      exact wp_mono (ensures_report (s := s'.setTable (t.deleteAtom atom false).2 none)
        (hcounts.deleteAtom hheld)) fun _ s'' h'' => .of_same h''.1 h''.2
  | some i =>
    cases s'.table (some i) with
    | none => exact hs'
    | some t =>
      simp only [wp_bind, wp_modify]
      exact wp_mono (ensures_report (s := s'.setTable (t.deleteAtom atom false).2 (some i)) hs')
        fun _ s'' h'' => .of_same h''.1 h''.2

theorem ensures_handleFindAtom {cm : CaseMap} {table : TableRef} {name : List WChar}
    {mem : Allocations} (h : Balanced s) :
    ensures (handleFindAtom cm table name mem) (fun _ => Balanced) s := by
  rw [handleFindAtom, ensures, wp_bind]
  refine wp_mono (ensures_getTable h) fun r s' hpost => ?_
  obtain ⟨hs', _, _⟩ := hpost
  rw [wp_ite]
  refine ⟨fun _ => ?_, fun _ => hs'⟩
  simp only [wp_bind, wp_get]
  cases s'.table table with
  | none => exact hs'
  | some t =>
    simp only [wp_bind, wp_pure]
    exact wp_mono (ensures_report hs') fun _ s'' h'' => .of_same h''.1 h''.2

theorem ensures_handleGetAtomInformation {table : TableRef} {atom : Atom} {mem : Allocations}
    (h : Balanced s) : ensures (handleGetAtomInformation table atom mem) (fun _ => Balanced) s := by
  rw [handleGetAtomInformation, ensures, wp_bind]
  refine wp_mono (ensures_getTable h) fun r s' hpost => ?_
  obtain ⟨hs', _, _⟩ := hpost
  rw [wp_ite]
  refine ⟨fun _ => ?_, fun _ => hs'⟩
  simp only [wp_bind, wp_get]
  cases s'.table table with
  | none => exact hs'
  | some t =>
    simp only
    cases (t.getAtomEntry atom).bind t.entry with
    | some e => exact hs'
    | none => exact hs'

theorem ensures_handleSetAtomInformation {table : TableRef} {atom : Atom} {pinned : Bool}
    {mem : Allocations} (h : Balanced s) :
    ensures (handleSetAtomInformation table atom pinned mem) (fun _ => Balanced) s := by
  rw [handleSetAtomInformation, ensures, wp_bind]
  refine wp_mono (ensures_getTable h) fun r s' hpost => ?_
  obtain ⟨hs', _, _⟩ := hpost
  rw [wp_ite]
  refine ⟨fun _ => ?_, fun _ => hs'⟩
  simp only [wp_bind, wp_get]
  cases ht : s'.table table with
  | none => exact hs'
  | some t =>
    simp only
    cases hget : t.getAtomEntry atom with
    | none => exact hs'
    | some i =>
      simp only
      cases he : t.entry i with
      | none => exact hs'
      | some e =>
        simp only [wp_ite, wp_modify, wp_pure]
        refine ⟨fun _ => ?_, fun _ => hs'⟩
        cases table with
        | none =>
          have hcounts : Counts (some t) s'.holders := by
            rw [← ht]
            exact hs'
          exact hcounts.pin hget he true
        | some i => exact hs'

theorem ensures_handleEmptyAtomTable {table : TableRef} {ifPinned : Bool} {mem : Allocations}
    (h : Balanced s) (hc : Careful s (.emptyAtomTable table ifPinned mem)) :
    ensures (handleEmptyAtomTable table ifPinned mem) (fun _ => Balanced) s := by
  rw [handleEmptyAtomTable, ensures, wp_bind]
  refine wp_mono (ensures_getTable h) fun r s' hpost => ?_
  obtain ⟨hs', hentry, hsame⟩ := hpost
  rw [wp_ite]
  refine ⟨fun _ => ?_, fun _ => hs'⟩
  simp only [wp_bind, wp_get]
  cases ht : s'.table table with
  | none => exact hs'
  | some t =>
    simp only [wp_modify]
    cases table with
    | none =>
      have hglobal : s'.globalTable = some t := ht
      have hcounts : Counts (some t) s'.holders := hglobal ▸ hs'
      refine (hcounts.emptyBelow ifPinned _ t.length_le fun a e he hfree => ?_).1
      rw [hsame.holders]
      apply hc a e (hentry a e _) hfree
      rw [State.atomEntry, hglobal]
      exact he
    | some i => exact hs'

end

/-! ## Runs -/

theorem balanced_step {cm : CaseMap} {s : State} {r : Request} (h : Balanced s)
    (hc : Careful s r) : ensures (act cm r) (fun _ => Balanced) { s with error := none } := by
  have h' : Balanced { s with error := none } := h
  cases r with
  | setWindowProperty window atom handle name mem =>
    rw [act, setWindowProperty, ensures, wp_bind]
    refine wp_mono (ensures_getWindow window h') fun r s₁ hpost => ?_
    obtain ⟨hs₁, hsame₁, hwin⟩ := hpost
    have hbal : Balanced s₁ := .of_same hs₁ hsame₁
    cases r with
    | none => exact hbal
    | some win =>
      have hfind : s₁.windows.find? (·.handle = win.handle) = some win := by
        rw [handle_of_find (hwin win rfl)]
        exact hwin win rfl
      simp only [wp_ite, wp_bind]
      refine ⟨fun _ => ?_, fun _ => ?_⟩
      · refine wp_mono (ensures_addGlobalAtom hbal) fun a s₂ hpost => ?_
        obtain ⟨hsame₂, hzero, hadd⟩ := hpost
        refine ⟨fun ha => ?_, fun ha => .of_same (hzero (not_not.mp ha)) hsame₂⟩
        -- while the property is set, the request itself is a user of the atom
        let mine : Atom → ℕ := fun b => if b = a then 1 else 0
        have hmine (s' : State) : addUser s'.holders a = fun b => s'.holders b + mine b := by
          funext b
          simp only [addUser, mine]
          split <;> rfl
        have hs₂ := hadd ha
        rw [← hsame₂.holders, hmine] at hs₂
        refine wp_mono (ensures_setProperty (fun h => by cases h) ?_ hs₂) fun _ s₃ hs₃ => ?_
        · rw [hsame₂.1]
          exact hfind
        · rw [← hmine] at hs₃
          exact wp_mono (ensures_releaseGlobalAtom hs₃) fun _ s₄ h₄ => .of_same h₄.1 h₄.2
      · have hcounts : Counts s₁.globalTable fun b => s₁.holders b + (fun _ => 0) b := hbal
        exact wp_mono (ensures_setProperty (fun h => by cases h) hfind hcounts) fun _ _ h => h
  | removeWindowProperty window atom name =>
    simp only [act, removeWindowProperty, ensures, wp_bind, wp_pure]
    refine wp_mono (ensures_getWindow window h') fun r s₁ hpost => ?_
    obtain ⟨hs₁, hsame₁, hwin⟩ := hpost
    have hbal : Balanced s₁ := .of_same hs₁ hsame₁
    cases r with
    | none => exact hbal
    | some win =>
      have hfind : s₁.windows.find? (·.handle = win.handle) = some win := by
        rw [handle_of_find (hwin win rfl)]
        exact hwin win rfl
      have hremove {s₂ : State} (hs₂ : Balanced s₂) (hw : s₂.windows = s₁.windows) (a : Atom) :
          (a ≠ 0 → ensures (removeProperty win a) (fun _ => Balanced) s₂) ∧
            (¬a ≠ 0 → Balanced s₂) :=
        ⟨fun _ => ensures_removeProperty (by rw [hw, hfind]) hs₂, fun _ => hs₂⟩
      simp only [wp_ite, wp_bind, wp_pure]
      refine ⟨fun _ => ?_, fun _ => ?_⟩
      · refine wp_mono (ensures_findGlobalAtom hbal) fun a s₂ hpost => ?_
        obtain ⟨hs₂, hsame₂⟩ := hpost
        exact hremove (.of_same hs₂ hsame₂) hsame₂.1 a
      · exact hremove hbal rfl atom
  | getWindowProperty window atom name =>
    simp only [act, getWindowProperty, ensures, wp_bind, wp_pure]
    refine wp_mono (ensures_getWindow window h') fun r s₁ hpost => ?_
    obtain ⟨hs₁, hsame₁, hwin⟩ := hpost
    have hbal : Balanced s₁ := .of_same hs₁ hsame₁
    cases r with
    | none => exact hbal
    | some win =>
      simp only [wp_ite, wp_bind, wp_pure]
      refine ⟨fun _ => ?_, fun _ => ⟨fun _ => hbal, fun _ => hbal⟩⟩
      refine wp_mono (ensures_findGlobalAtom hbal) fun a s₂ hpost => ?_
      obtain ⟨hs₂, hsame₂⟩ := hpost
      exact ⟨fun _ => .of_same hs₂ hsame₂, fun _ => .of_same hs₂ hsame₂⟩
  | createClass process req mem => exact ensures_createClass h'
  | destroyClass process atom inst => exact ensures_destroyClass h' hc
  | destroyProcessClasses process => exact ensures_destroyProcessClasses h' hc
  | setClassInfo process window req => exact ensures_setClassInfo h'
  | createWindow process window atom inst ok => exact ensures_createWindow h'
  | detachWindow window => exact ensures_detachWindow h'
  | destroyWindow window => exact ensures_destroyWindow h'
  | addAtom table name mem =>
    simp only [act, ensures, wp_bind, wp_pure]
    exact ensures_handleAddAtom h'
  | deleteAtom table atom mem => exact ensures_handleDeleteAtom h' hc
  | findAtom table name mem =>
    simp only [act, ensures, wp_bind, wp_pure]
    exact ensures_handleFindAtom h'
  | getAtomInformation table atom mem =>
    simp only [act, ensures, wp_bind, wp_pure]
    exact ensures_handleGetAtomInformation h'
  | setAtomInformation table atom pinned mem => exact ensures_handleSetAtomInformation h'
  | initAtomTable entries mem =>
    simp only [act, handleInitAtomTable, ensures, wp_ite, wp_modify]
    exact ⟨fun _ => h', fun _ => h'⟩
  | emptyAtomTable table ifPinned mem => exact ensures_handleEmptyAtomTable h' hc

theorem balanced_initial : Balanced .initial :=
  fun _ => ⟨(fun _ h => by cases h), (fun _ h => by cases h), (fun _ h => by cases h), fun _ _ => rfl⟩

theorem balanced_of_run {cm : CaseMap} {rs : List Request} {s : State}
    (hr : Run (step cm) Careful .initial rs s) : Balanced s := by
  refine hr.invariant balanced_initial fun t r t' ht hc hstep => ?_
  have hpost := (balanced_step ht hc : ensures (act cm r) (fun _ => Balanced) { t with error := none })
  rw [step] at hstep
  cases hact : act cm r { t with error := none } with
  | error e =>
    rw [hact] at hstep
    cases hstep
  | ok p =>
    rw [hact] at hstep
    cases hstep
    exact wp_of_ok hpost hact

/-- After every run of careful requests the count of each entry of the global table is the number of
references its clients have taken and not given back, plus the properties and the classes that name
it; an atom that none of them holds has no entry. -/
theorem counts_run (cm : CaseMap) (rs : List Request) (s : State)
    (hr : Run (step cm) Careful .initial rs s) :
    (∀ a e, s.atomEntry a = some e →
      e.count = (e.adds : ℤ) - e.deletes + s.properties a + s.classesOf a) ∧
    ∀ a e, s.properties a = 0 → s.classesOf a = 0 → s.atomEntry a = some e → e.deletes < e.adds := by
  have hbal := balanced_of_run hr
  constructor
  · intro a e he
    have hcount := (hbal a).count e he
    rw [State.holders] at hcount
    push_cast at hcount
    omega
  · intro a e hp hcl he
    have hcount := (hbal a).count e he
    have hpos := (hbal a).positive e he
    have howned := (hbal a).owned e he
    rw [State.holders, hp, hcl] at hcount
    push_cast at hcount
    omega

def memory : Allocations := ⟨true, true, true⟩

/-- A client adds an atom, makes it a property of a window of a class of an integer atom, and the
window goes away. -/
def propertyRun : List Request :=
  [.addAtom none (wide "Alpha") memory, .createClass 1 ⟨true, 7, 0, 0, 0, 0⟩ memory,
    .createWindow 1 2 7 0 true, .setWindowProperty 2 0 5 (wide "alpha") memory, .destroyWindow 2]

/-- The requests that are careful in every state. -/
def harmless : State → Request → Bool
  | _, .destroyClass .. | _, .destroyProcessClasses _ | _, .deleteAtom .. | _, .emptyAtomTable .. =>
    false
  | _, _ => true

theorem careful_of_harmless (s : State) (r : Request) (h : harmless s r = true) : Careful s r := by
  cases r with
  | destroyClass | destroyProcessClasses | deleteAtom | emptyAtomTable => cases h
  | _ => trivial

theorem counts_propertyRun :
    ∃ s, Run (step asciiCaseMap) Careful .initial propertyRun s ∧
      (∀ a e, s.atomEntry a = some e →
        e.count = (e.adds : ℤ) - e.deletes + s.properties a + s.classesOf a) := by
  obtain ⟨s, hr, _⟩ := run_of_execTo (f := step asciiCaseMap) (s := .initial) (q := Careful)
    (g := harmless) (l := propertyRun) (p := fun _ => true) careful_of_harmless
    (by decide +kernel)
  exact ⟨s, hr, (counts_run asciiCaseMap propertyRun s hr).1⟩

/-- A client adds an atom, registers and destroys a class under it, and deletes the atom. -/
def classRun : List Request :=
  [.addAtom none (wide "Alpha") memory, .createClass 1 ⟨true, 0xc000, 0, 0, 0, 0⟩ memory,
    .destroyClass 1 0xc000 0, .deleteAtom none 0xc000 memory]

/-- Nobody holds the atom any more, but its count is still 1. -/
theorem leaked_classRun :
    ∃ s e, Run (step asciiCaseMap) (fun _ _ => True) .initial classRun s ∧
      s.atomEntry 0xc000 = some e ∧ e.count = 1 ∧ e.adds = 1 ∧ e.deletes = 1 ∧
      s.properties 0xc000 = 0 ∧ s.classesOf 0xc000 = 0 := by
  obtain ⟨s, hr, hs⟩ := run_of_execTo (f := step asciiCaseMap) (s := .initial)
    (q := fun _ _ => True) (g := fun _ _ => true) (l := classRun)
    (p := fun s => decide (s.atomEntry 0xc000 =
      some ⟨1, false, AtomTable.atomHash asciiCaseMap (createTable hashSize) (wide "Alpha"),
        wide "Alpha", 1, 1⟩) && decide (s.properties 0xc000 = 0) &&
        decide (s.classesOf 0xc000 = 0))
    (fun _ _ _ => trivial) (by decide +kernel)
  rw [Bool.and_eq_true, Bool.and_eq_true, decide_eq_true_eq, decide_eq_true_eq,
    decide_eq_true_eq] at hs
  exact ⟨s, _, hr, hs.1.1, rfl, rfl, rfl, hs.1.2, hs.2⟩

end Wine.Atoms
