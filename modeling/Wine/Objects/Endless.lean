import Wine.Objects.Lookup

/-!
# Lookups that do not end

The namespaces that the server can build hold links that lead back to themselves, so that a lookup
need not end. It ends exactly when it meets no such link.
-/

namespace Wine.Objects
open Wine.Lib
open Wine.Server (ObjId)

variable {cm : CaseMap}

/-! ## The root directory -/

def HasRoot (s : State) : Prop := ∃ entries, s.object rootDirectory = some (.directory entries)

theorem HasRoot.not_follows {s : State} (h : HasRoot s) (attr : Attributes) (target : Name) :
    ¬ Follows s attr rootDirectory target := by
  rintro ⟨ho, -⟩
  obtain ⟨entries, hd⟩ := h
  rw [hd] at ho
  cases ho

theorem object_append {s : State} {o : ObjId} {obj : Object} (h : s.object o = some obj)
    (n : NamedObject) : State.object ⟨s.objects ++ [some n]⟩ o = some obj := by
  have hlt : o < s.objects.length := by
    by_contra hge
    rw [State.object, List.getElem?_eq_none (Nat.not_lt.mp hge)] at h
    cases h
  simpa only [State.object, List.getElem?_append_left hlt] using h

theorem object_set (s : State) (o dir : ObjId) (n : NamedObject) (hdir : dir < s.objects.length) :
    State.object ⟨s.objects.set dir (some n)⟩ o =
      if dir = o then some n.obj else s.object o := by
  simp only [State.object, List.getElem?_set]
  by_cases ho : dir = o
  · subst ho
    simp [hdir]
  · simp only [if_neg ho]

theorem HasRoot.allocObject {s : State} (h : HasRoot s) {obj : Object} {parent : Option ObjId}
    {mem : Bool} {r : State × ObjId × Bool}
    (hr : Objects.allocObject s obj parent mem = some (.ok r)) : HasRoot r.1 := by
  unfold Objects.allocObject at hr
  split at hr
  · simp only [Option.some.injEq, Except.ok.injEq] at hr
    subst hr
    obtain ⟨entries, hd⟩ := h
    exact ⟨entries, object_append hd _⟩
  · simp only [Option.some.injEq, reduceCtorEq] at hr

/-- A container that holds more names is of the same kind. -/
def KeepsDirectory (container : Container) : Prop :=
  ∀ entries ns put, container (.directory entries) = some (ns, put) →
    ∀ ns', ∃ entries', put ns' = .directory entries'

theorem keepsDirectory_asDirectory : KeepsDirectory asDirectory := by
  intro entries ns put h ns'
  simp only [asDirectory, Option.some.injEq, Prod.mk.injEq] at h
  exact ⟨ns', by rw [← h.2]⟩

theorem keepsDirectory_asNamedPipeDevice : KeepsDirectory asNamedPipeDevice :=
  fun _ _ _ h => (by cases h)

theorem keepsDirectory_asMailslotDevice : KeepsDirectory asMailslotDevice :=
  fun _ _ _ h => (by cases h)

section
variable {fuel : ℕ} {s : State} {root : Option ObjId} {name : Name} {attr : Attributes}
  {r : State × ObjId × Bool}

theorem HasRoot.createIn (h : HasRoot s) {container : Container} (hc : KeepsDirectory container)
    {keep : Bool} {obj : Object} {mem : Bool}
    (hr : Objects.createIn cm fuel s root name attr container keep obj mem = some (.ok r)) :
    HasRoot r.1 := by
  unfold Objects.createIn at hr
  split at hr
  · exact h.allocObject hr
  · split at hr
    · cases hr
    · simp only [Option.some.injEq, reduceCtorEq] at hr
    · rename_i o newName _
      split at hr
      · split at hr
        · simp only [Option.some.injEq, Except.ok.injEq] at hr
          subst hr
          exact h
        · split at hr <;> simp only [Option.some.injEq, reduceCtorEq] at hr
      · split at hr
        · simp only [Option.some.injEq, reduceCtorEq] at hr
        · rename_i ns put hput
          obtain ⟨holder, ho, hcont⟩ := Option.bind_eq_some_iff.mp hput
          have hlt : o < s.objects.length := by
            by_contra hge
            rw [State.object, List.getElem?_eq_none (Nat.not_lt.mp hge)] at ho
            cases ho
          refine HasRoot.allocObject ?_ hr
          obtain ⟨entries, hd⟩ := h
          unfold HasRoot
          rw [object_set s rootDirectory o _ hlt]
          by_cases hroot : o = rootDirectory
          · subst hroot
            obtain rfl := Option.some.inj (hd.symm.trans ho)
            obtain ⟨entries', he⟩ := hc entries ns put hcont
              (setObjectName cm ns newName.chars s.objects.length)
            exact ⟨entries', by rw [if_pos rfl, he]⟩
          · exact ⟨entries, by rw [if_neg hroot, hd]⟩

theorem hasRoot_withRoot {request : Created}
    (hreq : ∀ r, request = some (.ok r) → HasRoot r.1)
    (hr : withRoot s root request = some (.ok r)) : HasRoot r.1 := by
  unfold withRoot at hr
  split at hr
  · exact hreq r hr
  · split at hr
    · simp only [Option.some.injEq, reduceCtorEq] at hr
    · exact hreq r hr

end

theorem HasRoot.releaseObject {s : State} (h : HasRoot s) (o : ObjId) :
    HasRoot (Objects.releaseObject s o) := by
  unfold Objects.releaseObject
  split
  · exact h
  · rename_i hno
    have ho : o ≠ rootDirectory := fun hroot => hno (Or.inl hroot)
    obtain ⟨entries, hd⟩ := h
    refine ⟨entries.remove o, ?_⟩
    simp only [State.object, List.getElem?_map, List.getElem?_set, if_neg ho] at hd ⊢
    cases hget : s.objects[rootDirectory]? with
    | none =>
      rw [hget] at hd
      cases hd
    | some slot =>
      cases slot with
      | none =>
        rw [hget] at hd
        cases hd
      | some n =>
        rw [hget] at hd
        simp only [Option.join_some, Option.map_some, Option.some.injEq] at hd
        simp only [Option.map_some, Option.join_some, hd, Object.remove]

theorem HasRoot.perform {s : State} (h : HasRoot s) {fuel : ℕ} {a : Action}
    {r : State × ObjId × Bool} (hr : Objects.perform cm fuel s a = some (.ok r)) : HasRoot r.1 := by
  cases a with
  | createDirectory root name attr hashSize mem =>
    exact hasRoot_withRoot (fun _ hr => h.createIn keepsDirectory_asDirectory hr) hr
  | createSymlink root name attr target mem =>
    refine hasRoot_withRoot (fun r hr => ?_) hr
    unfold createSymlink at hr
    split at hr
    · simp only [Option.some.injEq, reduceCtorEq] at hr
    · exact h.createIn keepsDirectory_asDirectory hr
  | createObject root name attr ops mem =>
    exact hasRoot_withRoot (fun _ hr => h.createIn keepsDirectory_asDirectory hr) hr
  | createNamedPipe root name attr mem =>
    exact hasRoot_withRoot (fun _ hr => h.createIn keepsDirectory_asNamedPipeDevice hr) hr
  | createMailslot root name attr mem =>
    refine hasRoot_withRoot (fun r hr => ?_) hr
    unfold createMailslot at hr
    split at hr
    · simp only [Option.some.injEq, reduceCtorEq] at hr
    · exact h.createIn keepsDirectory_asMailslotDevice hr
  | createNamedPipeDevice root name mem => exact h.createIn keepsDirectory_asDirectory hr
  | createMailslotDevice root name mem => exact h.createIn keepsDirectory_asDirectory hr
  | releaseObject o =>
    simp only [Objects.perform, Option.some.injEq, Except.ok.injEq] at hr
    subst hr
    exact h.releaseObject o

theorem run_hasRoot {as : List (ℕ × Action)} {s : State}
    (hr : Run (step cm) (fun _ _ => True) State.initial as s) : HasRoot s := by
  refine hr.invariant ⟨_, rfl⟩ fun t a t' ht _ hst => ?_
  unfold step at hst
  split at hst
  · cases hst
  · cases hst
    exact ht
  · rename_i r hperf
    cases hst
    exact ht.perform hperf

/-- In every namespace that requests build from the first directories, a lookup ends exactly when
none of the links that it meets leads back to itself. -/
theorem lookup_ends_iff {as : List (ℕ × Action)} {s : State}
    (hr : Run (step cm) (fun _ _ => True) State.initial (initDirectories ++ as) s)
    (attr : Attributes) (root : Option ObjId) (name : UnicodeStr) :
    (∃ fuel found, findObjectDir cm s attr fuel root name = some found) ↔
      ∀ link, Meets cm s attr root name link → Acyclic (Asks cm s attr) link :=
  find_ends_iff (fun target => (run_hasRoot hr).not_follows attr target) root name

def isLink (s : State) (o : ObjId) (target : Name) : Bool :=
  match s.object o with
  | some (.symlink t) => decide (t = target)
  | _ => false

theorem object_of_isLink {s : State} {o : ObjId} {target : Name} (h : isLink s o target = true) :
    s.object o = some (.symlink target) := by
  unfold isLink at h
  split at h
  · rename_i t ho
    rw [ho, of_decide_eq_true h]
  · cases h

/-- A link to the devices, behind which the path ends. -/
theorem lookup_ends_sample : ∃ s,
    Run (step asciiCaseMap) (fun _ _ => True) State.initial
      (initDirectories ++ [(9, .createSymlink none (wide "\\foo") 0 (wide "\\Device") true)]) s ∧
    findObjectDir asciiCaseMap s 0 9 none (some (wide "\\foo")) = some (.ok (2, none)) ∧
    ∀ link, Meets asciiCaseMap s 0 none (some (wide "\\foo")) link →
      Acyclic (Asks asciiCaseMap s 0) link := by
  obtain ⟨s, hr, hp⟩ := run_of_execTo (f := step asciiCaseMap) (q := fun _ _ => True)
    (g := fun _ _ => true) (s := State.initial)
    (p := fun s => decide (findObjectDir asciiCaseMap s 0 9 none (some (wide "\\foo")) =
      some (.ok (2, none))))
    (l := initDirectories ++ [(9, .createSymlink none (wide "\\foo") 0 (wide "\\Device") true)])
    (fun _ _ _ => trivial) (by decide +kernel)
  have hp := of_decide_eq_true hp
  exact ⟨s, hr, hp, (lookup_ends_iff hr 0 none (some (wide "\\foo"))).mp ⟨9, _, hp⟩⟩

/-- A client creates a link to itself and looks it up. -/
theorem lookup_endless : ¬ ∀ (as : List (ℕ × Action)) (s : State),
    Run (step asciiCaseMap) (fun _ _ => True) State.initial (initDirectories ++ as) s →
    ∀ attr root name, ∃ fuel found, findObjectDir asciiCaseMap s attr fuel root name =
      some found := by
  intro hall
  obtain ⟨s, hr, hp⟩ := run_of_execTo (f := step asciiCaseMap) (q := fun _ _ => True)
    (g := fun _ _ => true) (s := State.initial)
    (p := fun s => isLink s 11 (wide "\\foo") &&
      decide (plainLookup asciiCaseMap s 0 rootDirectory (some (wide "foo")) = .ok (some (11, none))))
    (l := initDirectories ++ [(9, .createSymlink none (wide "\\foo") 0 (wide "\\foo") true)])
    (fun _ _ _ => trivial) (by decide +kernel)
  simp only [Bool.and_eq_true, decide_eq_true_eq] at hp
  have hroot := (run_hasRoot hr).not_follows 0
  have hfollows : Follows s 0 11 (backslash :: wide "foo") := ⟨object_of_isLink hp.1, rfl⟩
  have hwalks : Walks asciiCaseMap s 0 rootDirectory (some (wide "foo")) 11 none :=
    (Walks.refl _ _).name hroot hp.2
  have hasks : Asks asciiCaseMap s 0 11 11 :=
    ⟨wide "foo", none, _, hfollows, by decide, hwalks, hfollows⟩
  have hmeets : Meets asciiCaseMap s 0 none (some (wide "\\foo")) 11 :=
    ⟨rootDirectory, some (wide "foo"), none, _, rfl, by decide, hwalks, hfollows⟩
  have hacyc := (find_ends_iff hroot none _).mp (hall _ s hr 0 none (some (wide "\\foo"))) 11 hmeets
  exact hacyc 11 .refl (.single hasks)

end Wine.Objects
