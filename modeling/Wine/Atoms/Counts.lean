import Wine.Atoms.State

/-!
# Counts of a table and their users

`Counts t users` says that the count of every entry of `t` is what its clients still hold plus
the number of its users, and that an atom without an entry has no users. Each operation on a table
is related to what it does to the users.
-/

namespace Wine.Atoms

namespace AtomTable

/-- The entry of an atom. -/
def atomEntry (t : AtomTable) (a : Atom) : Option AtomEntry :=
  if minStrAtom ≤ a.toNat then t.entry (a.toNat - minStrAtom) else none

theorem length_le (t : AtomTable) : t.handles.length ≤ maxAtoms :=
  Nat.le_trans t.fits t.small

theorem lt_length_of_entry {t : AtomTable} {i : ℕ} {e : AtomEntry} (h : t.entry i = some e) :
    i < t.handles.length := by
  by_contra hi
  rw [entry, List.getElem?_eq_none (Nat.le_of_not_lt hi)] at h
  cases h

theorem entry_setEntry (t : AtomTable) (i j : ℕ) (e : Option AtomEntry) :
    (t.setEntry i e).entry j = if i = j ∧ i < t.handles.length then e else t.entry j := by
  simp only [entry, setEntry, List.getElem?_set]
  by_cases hij : i = j
  · subst hij
    by_cases hlen : i < t.handles.length
    · simp [hlen]
    · simp [hlen]
  · simp [hij]

theorem getAtomEntry_eq_some {t : AtomTable} {a : Atom} {i : ℕ}
    (h : t.getAtomEntry a = some i) :
    minStrAtom ≤ a.toNat ∧ a.toNat - minStrAtom = i ∧ ∃ e, t.entry i = some e ∧ t.atomEntry a = some e := by
  simp only [getAtomEntry] at h
  split at h
  · rename_i hif
    obtain ⟨hmin, _, hsome⟩ := hif
    obtain rfl := Option.some.inj h
    obtain ⟨e, he⟩ := Option.isSome_iff_exists.mp hsome
    exact ⟨hmin, rfl, e, he, by rw [atomEntry, if_pos hmin, he]⟩
  · cases h

theorem getAtomEntry_eq_none {t : AtomTable} {a : Atom} (h : t.getAtomEntry a = none) :
    t.atomEntry a = none := by
  simp only [getAtomEntry] at h
  split at h
  · cases h
  · rename_i hif
    rw [atomEntry]
    split
    · rename_i hmin
      by_contra hne
      obtain ⟨e, he⟩ := Option.ne_none_iff_exists'.mp hne
      exact hif ⟨hmin, lt_length_of_entry he, by rw [he]; rfl⟩
    · rfl

theorem atomEntry_setEntry {t : AtomTable} {a : Atom} {i : ℕ} (hmin : minStrAtom ≤ a.toNat)
    (hi : a.toNat - minStrAtom = i) (hlen : i < t.handles.length) (e : Option AtomEntry) (b : Atom) :
    (t.setEntry i e).atomEntry b = if b = a then e else t.atomEntry b := by
  by_cases hb : b = a
  · have hsame : i = b.toNat - minStrAtom ∧ i < t.handles.length := by
      rw [hb]
      exact ⟨hi.symm, hlen⟩
    rw [atomEntry, hb, if_pos hmin, ← hb, entry_setEntry, if_pos hsame, if_pos (Eq.refl b)]
  · rw [if_neg hb, atomEntry, atomEntry]
    by_cases hbmin : minStrAtom ≤ b.toNat
    · rw [if_pos hbmin, if_pos hbmin, entry_setEntry, if_neg]
      rintro ⟨hib, _⟩
      apply hb
      apply BitVec.eq_of_toNat_eq
      omega
    · rw [if_neg hbmin, if_neg hbmin]

theorem minStrAtom_le_add (i : ℕ) : minStrAtom ≤ i + minStrAtom := Nat.le_add_left minStrAtom i

theorem atomOfIndex_toNat {i : ℕ} (hi : i < maxAtoms) :
    (atomOfIndex i).toNat = i + minStrAtom := by
  rw [maxAtoms] at hi
  rw [atomOfIndex, BitVec.toNat_ofNat, minStrAtom]
  omega

/-- A new entry takes an atom that had none and leaves the other atoms alone. -/
theorem addAtomEntry_spec {t t' : AtomTable} {e : AtomEntry} {mem : Allocations} {i : ℕ}
    (h : t.addAtomEntry e mem = some (i, t')) :
    i < maxAtoms ∧ t.atomEntry (atomOfIndex i) = none ∧
      ∀ b, t'.atomEntry b = if b = atomOfIndex i then some e else t.atomEntry b := by
  have happend {u : AtomTable} (hu : u.handles = t.handles ++ [some e]) :
      t.handles.length < maxAtoms ∧ t.atomEntry (atomOfIndex t.handles.length) = none ∧
        ∀ b, u.atomEntry b = if b = atomOfIndex t.handles.length then some e else t.atomEntry b := by
    have hlen : t.handles.length < maxAtoms := by
      have := u.length_le
      rw [hu, List.length_append, List.length_singleton] at this
      omega
    have hatom := atomOfIndex_toNat hlen
    refine ⟨hlen, ?_, fun b => ?_⟩
    · rw [atomEntry, hatom, if_pos (minStrAtom_le_add _), Nat.add_sub_cancel, entry,
        List.getElem?_eq_none (Nat.le_refl _)]
      rfl
    · rw [atomEntry, atomEntry, entry, entry, hu]
      by_cases hb : b = atomOfIndex t.handles.length
      · rw [if_pos hb, hb, hatom, if_pos (minStrAtom_le_add _), Nat.add_sub_cancel,
          List.getElem?_append_right (Nat.le_refl _), Nat.sub_self]
        rfl
      · rw [if_neg hb]
        by_cases hmin : minStrAtom ≤ b.toNat
        · rw [if_pos hmin, if_pos hmin]
          have hne : b.toNat - minStrAtom ≠ t.handles.length := by
            intro heq
            apply hb
            apply BitVec.eq_of_toNat_eq
            omega
          rcases Nat.lt_or_ge (b.toNat - minStrAtom) t.handles.length with hlt | hge
          · rw [List.getElem?_append_left hlt]
          · rw [List.getElem?_eq_none hge, List.getElem?_eq_none]
            rw [List.length_append, List.length_singleton]
            omega
        · rw [if_neg hmin, if_neg hmin]
  simp only [addAtomEntry] at h
  split at h
  · rename_i hlt
    obtain ⟨rfl, rfl⟩ := Prod.mk.inj (Option.some.inj h)
    have hfree : (t.handles.get ⟨t.handles.findIdx Option.isNone, hlt⟩).isNone = true :=
      List.findIdx_getElem
    have hmax : t.handles.findIdx Option.isNone < maxAtoms := Nat.lt_of_lt_of_le hlt t.length_le
    have hatom := atomOfIndex_toNat hmax
    refine ⟨hmax, ?_, ?_⟩
    · rw [atomEntry, hatom, if_pos (minStrAtom_le_add _), Nat.add_sub_cancel, entry,
        List.getElem?_eq_getElem hlt]
      simpa using hfree
    · exact atomEntry_setEntry (by omega) (by omega) hlt (some e)
  · split at h
    · split at h
      · split at h
        · obtain ⟨rfl, rfl⟩ := Prod.mk.inj (Option.some.inj h)
          exact happend rfl
        · cases h
      · cases h
    · obtain ⟨rfl, rfl⟩ := Prod.mk.inj (Option.some.inj h)
      exact happend rfl

end AtomTable

/-- The entry of an atom in a table that may not have been made yet. -/
def entryIn (t : Option AtomTable) (a : Atom) : Option AtomEntry := t.bind (·.atomEntry a)

@[simp] theorem entryIn_some (t : AtomTable) (a : Atom) : entryIn (some t) a = t.atomEntry a := rfl

/-- One user more. -/
def addUser (users : Atom → ℕ) (a : Atom) : Atom → ℕ :=
  fun b => if b = a then users b + 1 else users b

/-- What is said of an atom, its entry and the number of its users. -/
structure Counted (a : Atom) (e : Option AtomEntry) (users : ℕ) : Prop where
  count : ∀ x, e = some x → x.count = (x.adds : ℤ) - x.deletes + users
  owned : ∀ x, e = some x → x.deletes ≤ x.adds
  positive : ∀ x, e = some x → 0 < x.count
  unused : minStrAtom ≤ a.toNat → e = none → users = 0

def Counts (t : Option AtomTable) (users : Atom → ℕ) : Prop :=
  ∀ a, Counted a (entryIn t a) (users a)

namespace Counts

variable {t t' : AtomTable} {users : Atom → ℕ} {a : Atom} {i : ℕ} {e : AtomEntry}

/-- A table in which only the entry of one atom has changed. -/
theorem of_update {f : Atom → Option AtomEntry} {users' : Atom → ℕ} {x : Option AtomEntry}
    (h : ∀ b, Counted b (f b) (users b)) (hother : ∀ b, b ≠ a → users' b = users b)
    (ht : ∀ b, t'.atomEntry b = if b = a then x else f b) (ha : Counted a x (users' a)) :
    Counts (some t') users' := by
  intro b
  rw [entryIn_some, ht]
  by_cases hb : b = a
  · rw [if_pos hb, hb]
    exact ha
  · rw [if_neg hb, hother b hb]
    exact h b

theorem congr {t : Option AtomTable} {users' : Atom → ℕ} (h : Counts t users)
    (heq : ∀ b, minStrAtom ≤ b.toNat → users' b = users b) : Counts t users' := by
  intro b
  by_cases hmin : minStrAtom ≤ b.toNat
  · rw [heq b hmin]
    exact h b
  · have hnone : entryIn t b = none := by
      cases t with
      | none => rfl
      | some t => rw [entryIn_some, AtomTable.atomEntry, if_neg hmin]
    rw [hnone]
    exact ⟨(fun _ h => by cases h), (fun _ h => by cases h), (fun _ h => by cases h), fun h => absurd h hmin⟩

theorem empty (n : ℤ) (h : Counts none users) : Counts (some (createTable n)) users := by
  intro b
  have hnone : (createTable n).atomEntry b = none := by
    rw [AtomTable.atomEntry, AtomTable.entry]
    split <;> rfl
  rw [entryIn_some, hnone]
  exact h b

theorem bump (h : Counts (some t) users) {client : Bool} (hmin : minStrAtom ≤ a.toNat)
    (hi : a.toNat - minStrAtom = i) (he : t.entry i = some e) (ht : t.bump i client = .ok t') :
    Counts (some t') (if client then users else addUser users a) := by
  have hat : t.atomEntry a = some e := by rw [AtomTable.atomEntry, if_pos hmin, hi, he]
  rw [AtomTable.bump, he] at ht
  simp only at ht
  split at ht
  · cases ht
  · obtain rfl := Except.ok.inj ht
    have ha := h a
    rw [entryIn_some, hat] at ha
    refine of_update h ?_ (AtomTable.atomEntry_setEntry hmin hi (AtomTable.lt_length_of_entry he) _) ?_
    · intro b hb
      cases client with
      | false => simp [addUser, hb]
      | true => rfl
    · have hcount := ha.count e rfl
      have howned := ha.owned e rfl
      have hpos := ha.positive e rfl
      cases client with
      | false =>
        refine ⟨?_, ?_, ?_, fun _ h => (by cases h)⟩
        · rintro x ⟨⟩
          simp only [Bool.false_eq_true, if_false, addUser, if_true]
          push_cast
          omega
        · rintro x ⟨⟩
          exact howned
        · rintro x ⟨⟩
          simp only
          omega
      | true =>
        refine ⟨?_, ?_, ?_, fun _ h => (by cases h)⟩
        · rintro x ⟨⟩
          simp only [if_true]
          push_cast
          omega
        · rintro x ⟨⟩
          simp only [if_true]
          omega
        · rintro x ⟨⟩
          simp only
          omega

theorem create {str : List WChar} {hash : ℕ} {client : Bool} {mem : Allocations}
    (h : Counts (some t) users)
    (ht : t.addAtomEntry ⟨1, false, hash, str, if client then 1 else 0, 0⟩ mem = some (i, t'))
    (l : List ℕ) :
    Counts (some (t'.setHash hash l)) (if client then users else addUser users (atomOfIndex i)) := by
  obtain ⟨hi, hnone, hat⟩ := AtomTable.addAtomEntry_spec ht
  have hunused : users (atomOfIndex i) = 0 := by
    apply (h (atomOfIndex i)).unused
    · rw [AtomTable.atomOfIndex_toNat hi]
      exact AtomTable.minStrAtom_le_add _
    · rw [entryIn_some, hnone]
  refine of_update h (a := atomOfIndex i) ?_ hat ?_
  · intro b hb
    cases client with
    | false => simp [addUser, hb]
    | true => rfl
  · cases client with
    | false =>
      refine ⟨?_, ?_, ?_, fun _ h => (by cases h)⟩
      · rintro x ⟨⟩
        simp [addUser, hunused]
      · rintro x ⟨⟩
        exact Nat.zero_le _
      · rintro x ⟨⟩
        exact Int.zero_lt_one
    | true =>
      refine ⟨?_, ?_, ?_, fun _ h => (by cases h)⟩
      · rintro x ⟨⟩
        simp [hunused]
      · rintro x ⟨⟩
        exact Nat.zero_le _
      · rintro x ⟨⟩
        exact Int.zero_lt_one

/-- The atom that was added has one user more, or a client more that holds it. -/
theorem addAtom {cm : CaseMap} {str : List WChar} {client : Bool} {mem : Allocations}
    {error : Option Status} (h : Counts (some t) users)
    (ht : t.addAtom cm str client mem = .ok (a, error, t')) :
    (a = 0 ∧ Counts (some t') users) ∨
      minStrAtom ≤ a.toNat ∧ Counts (some t') (if client then users else addUser users a) := by
  simp only [AtomTable.addAtom] at ht
  split at ht
  · cases ht
    exact .inl ⟨rfl, h⟩
  split at ht
  · cases ht
    exact .inl ⟨rfl, h⟩
  split at ht
  · rename_i i hfind
    have hmatch := List.find?_some hfind
    cases he : t.entry i with
    | none => simp [he] at hmatch
    | some e =>
      have hlt := Nat.lt_of_lt_of_le (AtomTable.lt_length_of_entry he) t.length_le
      have hatom := AtomTable.atomOfIndex_toNat hlt
      have hmin : minStrAtom ≤ (atomOfIndex i).toNat := by
        rw [hatom]
        exact AtomTable.minStrAtom_le_add _
      cases hb : t.bump i client with
      | error x =>
        rw [hb] at ht
        cases ht
      | ok u =>
        rw [hb] at ht
        obtain ⟨rfl, _, rfl⟩ : atomOfIndex i = a ∧ none = error ∧ u = t' := by
          simpa [bind, Except.bind] using ht
        exact .inr ⟨hmin, h.bump hmin (by rw [hatom, Nat.add_sub_cancel]) he hb⟩
  · split at ht
    · split at ht
      · rename_i i u hadd
        simp only [Except.ok.injEq, Prod.mk.injEq] at ht
        obtain ⟨rfl, _, rfl⟩ := ht
        have hi := (AtomTable.addAtomEntry_spec hadd).1
        refine .inr ⟨?_, h.create hadd _⟩
        rw [AtomTable.atomOfIndex_toNat hi]
        exact AtomTable.minStrAtom_le_add _
      · cases ht
        exact .inl ⟨rfl, h⟩
    · cases ht
      exact .inl ⟨rfl, h⟩

theorem atomEntry_freeEntry (hmin : minStrAtom ≤ a.toNat) (hi : a.toNat - minStrAtom = i)
    (he : t.entry i = some e) (b : Atom) :
    (t.freeEntry i e).atomEntry b = if b = a then none else t.atomEntry b :=
  AtomTable.atomEntry_setEntry hmin hi (AtomTable.lt_length_of_entry he) none b

/-- Freeing an entry that nobody uses. -/
theorem freeEntry (h : Counts (some t) users) (hmin : minStrAtom ≤ a.toNat)
    (hi : a.toNat - minStrAtom = i) (he : t.entry i = some e) (hunused : users a = 0) :
    Counts (some (t.freeEntry i e)) users :=
  of_update h (fun _ _ => rfl) (atomEntry_freeEntry hmin hi he)
    ⟨(fun _ h => by cases h), (fun _ h => by cases h), (fun _ h => by cases h), fun _ _ => hunused⟩

/-- A user that goes away. -/
theorem release (h : Counts (some t) (addUser users a)) :
    Counts (some (t.deleteAtom a true).2) users := by
  rw [AtomTable.deleteAtom]
  cases hget : t.getAtomEntry a with
  | none =>
    have hnone := AtomTable.getAtomEntry_eq_none hget
    refine h.congr fun b hb => ?_
    have hne : b ≠ a := by
      rintro rfl
      have hzero := (h b).unused hb (by rw [entryIn_some, hnone])
      simp [addUser] at hzero
    simp [addUser, hne]
  | some i =>
    obtain ⟨hmin, hi, e, he, hat⟩ := AtomTable.getAtomEntry_eq_some hget
    have ha := h a
    rw [entryIn_some, hat] at ha
    have hcount := ha.count e rfl
    have howned := ha.owned e rfl
    have hpos := ha.positive e rfl
    simp only [addUser, if_true] at hcount
    push_cast at hcount
    simp only [he, Bool.not_true, Bool.and_false, Bool.false_eq_true, if_false]
    split
    · refine of_update h (a := a) ?_ (atomEntry_freeEntry hmin hi he) ?_
      · intro b hb
        simp [addUser, hb]
      · exact ⟨(fun _ h => by cases h), (fun _ h => by cases h), (fun _ h => by cases h), fun _ _ => by omega⟩
    · refine of_update h (a := a) ?_
        (AtomTable.atomEntry_setEntry hmin hi (AtomTable.lt_length_of_entry he) _) ?_
      · intro b hb
        simp [addUser, hb]
      · refine ⟨?_, ?_, ?_, fun _ h => (by cases h)⟩
        · rintro x ⟨⟩
          simp only [if_true]
          omega
        · rintro x ⟨⟩
          exact howned
        · rintro x ⟨⟩
          simp only
          omega

/-- A client that deletes an atom it holds. -/
theorem deleteAtom (h : Counts (some t) users)
    (hheld : ∀ e, t.atomEntry a = some e → e.pinned = false → e.deletes < e.adds) :
    Counts (some (t.deleteAtom a false).2) users := by
  rw [AtomTable.deleteAtom]
  cases hget : t.getAtomEntry a with
  | none => exact h
  | some i =>
    obtain ⟨hmin, hi, e, he, hat⟩ := AtomTable.getAtomEntry_eq_some hget
    have ha := h a
    rw [entryIn_some, hat] at ha
    have hcount := ha.count e rfl
    have hpos := ha.positive e rfl
    simp only [he, Bool.not_false, Bool.and_true]
    by_cases hpin : e.pinned = true
    · rw [if_pos hpin]
      exact h
    · rw [if_neg hpin]
      have hlt := hheld e hat (Bool.not_eq_true _ ▸ hpin)
      split
      · exact h.freeEntry hmin hi he (by omega)
      · refine of_update h (fun _ _ => rfl)
          (AtomTable.atomEntry_setEntry hmin hi (AtomTable.lt_length_of_entry he) _) ?_
        refine ⟨?_, ?_, ?_, fun _ h => (by cases h)⟩
        · rintro x ⟨⟩
          simp only [Bool.false_eq_true, if_false]
          push_cast
          omega
        · rintro x ⟨⟩
          simp only [Bool.false_eq_true, if_false]
          omega
        · rintro x ⟨⟩
          simp only
          omega

theorem pin (h : Counts (some t) users) (hget : t.getAtomEntry a = some i)
    (he : t.entry i = some e) (pinned : Bool) :
    Counts (some (t.setEntry i (some { e with pinned := pinned }))) users := by
  obtain ⟨hmin, hi, e', he', hat⟩ := AtomTable.getAtomEntry_eq_some hget
  obtain rfl : e = e' := Option.some.inj (he.symm.trans he')
  have ha := h a
  rw [entryIn_some, hat] at ha
  refine of_update h (fun _ _ => rfl)
    (AtomTable.atomEntry_setEntry hmin hi (AtomTable.lt_length_of_entry he) _) ?_
  refine ⟨?_, ?_, ?_, fun _ h => (by cases h)⟩
  · rintro x ⟨⟩
    exact ha.count e rfl
  · rintro x ⟨⟩
    exact ha.owned e rfl
  · rintro x ⟨⟩
    exact ha.positive e rfl

/-- Emptying the table when nobody uses the entries that are freed. -/
theorem emptyBelow (ifPinned : Bool) (n : ℕ) (hn : n ≤ maxAtoms) (h : Counts (some t) users)
    (hunused : ∀ a e, t.atomEntry a = some e → (!e.pinned || ifPinned) = true → users a = 0) :
    Counts (some (t.emptyBelow ifPinned n)) users ∧
      ∀ a, (t.emptyBelow ifPinned n).atomEntry a = none ∨
        (t.emptyBelow ifPinned n).atomEntry a = t.atomEntry a := by
  induction n with
  | zero => exact ⟨h, fun a => .inr rfl⟩
  | succ n ih =>
    obtain ⟨hcounts, hsame⟩ := ih (by omega)
    simp only [AtomTable.emptyBelow]
    cases he : (t.emptyBelow ifPinned n).entry n with
    | none => exact ⟨hcounts, hsame⟩
    | some e =>
      simp only
      split
      · rename_i hfree
        have hatom := AtomTable.atomOfIndex_toNat (i := n) (by omega)
        have hmin : minStrAtom ≤ (atomOfIndex n).toNat := by
          rw [hatom]
          exact AtomTable.minStrAtom_le_add _
        have hi : (atomOfIndex n).toNat - minStrAtom = n := by rw [hatom, Nat.add_sub_cancel]
        have hat : (t.emptyBelow ifPinned n).atomEntry (atomOfIndex n) = some e := by
          rw [AtomTable.atomEntry, if_pos hmin, hi, he]
        have hzero : users (atomOfIndex n) = 0 := by
          rcases hsame (atomOfIndex n) with hnone | heq
          · rw [hat] at hnone
            cases hnone
          · exact hunused _ e (heq ▸ hat) hfree
        refine ⟨hcounts.freeEntry hmin hi he hzero, fun b => ?_⟩
        rw [atomEntry_freeEntry hmin hi he]
        split
        · exact .inl rfl
        · exact hsame b
      · exact ⟨hcounts, hsame⟩

end Counts

end Wine.Atoms
