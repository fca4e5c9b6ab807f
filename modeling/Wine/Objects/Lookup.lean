import Wine.Lib.Cycles
import Wine.Objects.Namespace

/-!
# The end of a lookup

`Walks` says where the lookup of a path comes by, without any bound on the links it follows. A lookup
ends exactly when no link that it meets leads, through the targets of links, to a link that is met
while its own target is looked up.
-/

namespace Wine.Objects
open Wine.Lib Relation
open Wine.Server (ObjId)

/-- The link is followed to its target. -/
def Follows (s : State) (attr : Attributes) (link : ObjId) (target : Name) : Prop :=
  s.object link = some (.symlink target) ∧ attr &&& objOpenlink = 0

def plainLookup (cm : CaseMap) (s : State) (attr : Attributes) (obj : ObjId) (name : UnicodeStr) :
    Lookup :=
  match s.object obj with
  | some (.directory entries) => directoryLookupName cm entries name attr
  | some (.namedPipeDevice names) | some (.mailslotDevice names) => deviceLookupName cm names name attr
  | _ => .ok none

/-- The lookup of a path ends at the object, which finds nothing more. -/
def Stops (cm : CaseMap) (s : State) (attr : Attributes) (obj : ObjId) (name : UnicodeStr) : Prop :=
  (∀ target, ¬ Follows s attr obj target) ∧ plainLookup cm s attr obj name = .ok none

/-- The lookup of the second name from the first object comes to the second object with the rest of
the name. -/
inductive Walks (cm : CaseMap) (s : State) (attr : Attributes) :
    ObjId → UnicodeStr → ObjId → UnicodeStr → Prop
  | refl (p : ObjId) (m : UnicodeStr) : Walks cm s attr p m p m
  | name {p q r : ObjId} {m k l : UnicodeStr} : Walks cm s attr p m q k →
      (∀ target, ¬ Follows s attr q target) → plainLookup cm s attr q k = .ok (some (r, l)) →
      Walks cm s attr p m r l
  | rootLink {p q : ObjId} {m k : UnicodeStr} : Walks cm s attr p m q k →
      Follows s attr q [backslash] → Walks cm s attr p m rootDirectory k
  | link {p q r : ObjId} {m k l : UnicodeStr} {rest : Name} : Walks cm s attr p m q k →
      Follows s attr q (backslash :: rest) → rest ≠ [] →
      Walks cm s attr rootDirectory (some rest) r l → Stops cm s attr r l → l.chars = [] →
      Walks cm s attr p m r k

/-- The lookup of the target of `a` comes to the link `b`. -/
def Asks (cm : CaseMap) (s : State) (attr : Attributes) (a b : ObjId) : Prop :=
  ∃ rest k target, Follows s attr a (backslash :: rest) ∧ rest ≠ [] ∧
    Walks cm s attr rootDirectory (some rest) b k ∧ Follows s attr b target

/-- The lookup of a path comes to the link `b`. -/
def Meets (cm : CaseMap) (s : State) (attr : Attributes) (root : Option ObjId) (name : UnicodeStr)
    (b : ObjId) : Prop :=
  ∃ p m k target, findStart root name = .ok (p, m) ∧ m.chars ≠ [] ∧ Walks cm s attr p m b k ∧
    Follows s attr b target

variable {cm : CaseMap} {s : State} {attr : Attributes}

theorem Walks.trans {p q r : ObjId} {m k l : UnicodeStr} (h : Walks cm s attr p m q k)
    (h' : Walks cm s attr q k r l) : Walks cm s attr p m r l := by
  induction h' with
  | refl => exact h
  | name _ hf hp ih => exact (ih h).name hf hp
  | rootLink _ hf ih => exact (ih h).rootLink hf
  | link _ hf hr hw hs hl ih => exact (ih h).link hf hr hw hs hl

/-! ## One round of the loop -/

theorem findLoop_plain {q : ObjId} (hq : ∀ target, ¬ Follows s attr q target) (n : ℕ)
    (k : UnicodeStr) : findLoop cm s attr (n + 1) q k =
      match plainLookup cm s attr q k with
      | .error e => some (.error e)
      | .ok none => some (.ok (q, k))
      | .ok (some (r, l)) => findLoop cm s attr n r l := by
  have hl : lookupName cm s (findObjectDirWith (findLoop cm s attr n) none) q k attr =
      some (plainLookup cm s attr q k) := by
    unfold lookupName plainLookup
    cases ho : s.object q with
    | none => rfl
    | some obj =>
      cases obj with
      | symlink target =>
        have hopen : attr &&& objOpenlink ≠ 0 := fun h => hq target ⟨ho, h⟩
        simp only [symlinkLookupName, if_pos hopen]
      | directory _ => rfl
      | namedPipeDevice _ => rfl
      | mailslotDevice _ => rfl
      | other _ => rfl
  rw [findLoop, hl]
  cases plainLookup cm s attr q k with
  | error e => rfl
  | ok r =>
    cases r with
    | none => rfl
    | some r => rfl

theorem findLoop_follows {q : ObjId} {target : Name} (hq : Follows s attr q target) (n : ℕ)
    (k : UnicodeStr) : findLoop cm s attr (n + 1) q k =
      match findObjectDirWith (findLoop cm s attr n) none (some target) with
      | none => none
      | some (.error e) => some (.error e)
      | some (.ok (r, l)) =>
        if l.chars ≠ [] then some (.error statusObjectPathNotFound)
        else findLoop cm s attr n r k := by
  have hopen : ¬ attr &&& objOpenlink ≠ 0 := not_not.mpr hq.2
  rw [findLoop, lookupName, hq.1]
  simp only [symlinkLookupName, if_neg hopen]
  cases findObjectDirWith (findLoop cm s attr n) none (some target) with
  | none => rfl
  | some r =>
    cases r with
    | error e => rfl
    | ok r =>
      by_cases hl : r.2.chars ≠ []
      · simp only [Option.map_some, if_pos hl]
      · simp only [Option.map_some, if_neg hl]

theorem findTarget_eq (loop : ObjId → UnicodeStr → Option Found) {rest : Name} (hr : rest ≠ []) :
    findObjectDirWith loop none (some (backslash :: rest)) = loop rootDirectory (some rest) := by
  simp only [findObjectDirWith, findStart, UnicodeStr.chars, Option.getD_some, ne_eq,
    not_true_eq_false, if_false]
  exact if_neg hr

theorem findTarget_root (loop : ObjId → UnicodeStr → Option Found) :
    findObjectDirWith loop none (some [backslash]) = some (.ok (rootDirectory, some [])) := by
  rfl

/-- A target that is not below the root directory is an error. -/
theorem findTarget_cases (target : Name) : (∃ e, ∀ loop : ObjId → UnicodeStr → Option Found,
      findObjectDirWith loop none (some target) = some (.error e)) ∨ target = [backslash] ∨
    ∃ rest, rest ≠ [] ∧ target = backslash :: rest := by
  cases target with
  | nil => exact Or.inl ⟨_, fun _ => rfl⟩
  | cons c rest =>
    by_cases hc : c = backslash
    · subst hc
      by_cases hr : rest = []
      · exact Or.inr (Or.inl (by rw [hr]))
      · exact Or.inr (Or.inr ⟨rest, hr, rfl⟩)
    · refine Or.inl ⟨statusObjectPathSyntaxBad, fun loop => ?_⟩
      simp only [findObjectDirWith, findStart, UnicodeStr.chars, Option.getD_some, ne_eq, hc,
        not_false_eq_true, if_true]

/-! ## More fuel -/

theorem findLoop_succ {n : ℕ} {q : ObjId} {k : UnicodeStr} {x : Found}
    (h : findLoop cm s attr n q k = some x) : findLoop cm s attr (n + 1) q k = some x := by
  induction n generalizing q k x with
  | zero => cases h
  | succ n ih =>
    by_cases hq : ∃ target, Follows s attr q target
    · obtain ⟨target, hq⟩ := hq
      rw [findLoop_follows hq] at h ⊢
      have htarget : ∀ y, findObjectDirWith (findLoop cm s attr n) none (some target) = some y →
          findObjectDirWith (findLoop cm s attr (n + 1)) none (some target) = some y := by
        intro y hy
        obtain ⟨e, he⟩ | rfl | ⟨rest, hr, rfl⟩ := findTarget_cases target
        · rwa [he] at hy ⊢
        · rwa [findTarget_root] at hy ⊢
        · rw [findTarget_eq _ hr] at hy ⊢
          exact ih hy
      cases hf : findObjectDirWith (findLoop cm s attr n) none (some target) with
      | none => simp only [hf, reduceCtorEq] at h
      | some y =>
        rw [htarget y hf]
        rw [hf] at h
        cases y with
        | error e => exact h
        | ok r =>
          by_cases hl : r.2.chars ≠ []
          · simpa only [if_pos hl] using h
          · simp only [if_neg hl] at h ⊢
            exact ih h
    · rw [findLoop_plain (not_exists.mp hq)] at h ⊢
      cases hp : plainLookup cm s attr q k with
      | error e => simpa only [hp] using h
      | ok r =>
        cases r with
        | none => simpa only [hp] using h
        | some r =>
          simp only [hp] at h ⊢
          exact ih h

theorem findLoop_mono {n n' : ℕ} (hn : n ≤ n') {q : ObjId} {k : UnicodeStr} {x : Found}
    (h : findLoop cm s attr n q k = some x) : findLoop cm s attr n' q k = some x := by
  induction hn with
  | refl => exact h
  | step _ ih => exact findLoop_succ ih

theorem findLoop_unique {n n' : ℕ} {q : ObjId} {k : UnicodeStr} {x y : Found}
    (h : findLoop cm s attr n q k = some x) (h' : findLoop cm s attr n' q k = some y) : x = y := by
  have hx := findLoop_mono (Nat.le_max_left n n') h
  have hy := findLoop_mono (Nat.le_max_right n n') h'
  exact Option.some.inj (hx.symm.trans hy)

/-! ## The loop and the walk -/

theorem findLoop_of_stops {q : ObjId} {k : UnicodeStr} (h : Stops cm s attr q k) (n : ℕ) :
    findLoop cm s attr (n + 1) q k = some (.ok (q, k)) := by
  rw [findLoop_plain h.1, h.2]

/-- What the loop returns is where the walk stops. -/
theorem walks_of_findLoop {n : ℕ} {p q : ObjId} {m k : UnicodeStr}
    (h : findLoop cm s attr n p m = some (.ok (q, k))) :
    Walks cm s attr p m q k ∧ Stops cm s attr q k := by
  induction n generalizing p q m k with
  | zero => cases h
  | succ n ih =>
    by_cases hp : ∃ target, Follows s attr p target
    · obtain ⟨target, hp⟩ := hp
      rw [findLoop_follows hp] at h
      obtain ⟨e, he⟩ | rfl | ⟨rest, hr, rfl⟩ := findTarget_cases target
      · simp only [he, Option.some.injEq, reduceCtorEq] at h
      · simp only [findTarget_root] at h
        have := ih h
        exact ⟨((Walks.refl p m).rootLink hp).trans this.1, this.2⟩
      · rw [findTarget_eq _ hr] at h
        cases hf : findLoop cm s attr n rootDirectory (some rest) with
        | none => simp only [hf, reduceCtorEq] at h
        | some x =>
          cases x with
          | error e => simp only [hf, Option.some.injEq, reduceCtorEq] at h
          | ok r =>
            simp only [hf] at h
            by_cases hl : r.2.chars ≠ []
            · simp only [if_pos hl, Option.some.injEq, reduceCtorEq] at h
            · simp only [if_neg hl] at h
              obtain ⟨hw, hs⟩ := ih hf
              have := ih h
              exact ⟨((Walks.refl p m).link hp hr hw hs (not_not.mp hl)).trans this.1, this.2⟩
    · have hp := not_exists.mp hp
      rw [findLoop_plain hp] at h
      cases hl : plainLookup cm s attr p m with
      | error e => simp only [hl, Option.some.injEq, reduceCtorEq] at h
      | ok r =>
        cases r with
        | none =>
          simp only [hl, Option.some.injEq, Except.ok.injEq, Prod.mk.injEq] at h
          obtain ⟨rfl, rfl⟩ := h
          exact ⟨Walks.refl p m, hp, hl⟩
        | some r =>
          simp only [hl] at h
          have := ih h
          exact ⟨((Walks.refl p m).name hp hl).trans this.1, this.2⟩

/-- The loop from the start of a walk returns what the loop from its end does. -/
theorem Walks.findLoop {p q : ObjId} {m k : UnicodeStr} (h : Walks cm s attr p m q k) :
    ∀ {n : ℕ} {x : Found}, Objects.findLoop cm s attr n q k = some x →
      ∃ n', Objects.findLoop cm s attr n' p m = some x := by
  induction h with
  | refl => exact fun hx => ⟨_, hx⟩
  | name _ hq hl ih =>
    intro n x hx
    refine ih (n := n + 1) ?_
    rw [findLoop_plain hq, hl]
    exact hx
  | rootLink _ hq ih =>
    intro n x hx
    refine ih (n := n + 1) ?_
    rw [findLoop_follows hq, findTarget_root]
    exact hx
  | link _ hq hr _ hs hl ih ihTarget =>
    intro n x hx
    obtain ⟨n₁, hn₁⟩ := ihTarget (findLoop_of_stops hs 0)
    refine ih (n := max n₁ n + 1) ?_
    rw [findLoop_follows hq, findTarget_eq _ hr, findLoop_mono (Nat.le_max_left n₁ n) hn₁]
    simp only [hl, ne_eq, not_true_eq_false, if_false]
    exact findLoop_mono (Nat.le_max_right n₁ n) hx

/-- The loop from the end of a walk needs no more fuel than the one from its start. -/
theorem Walks.findLoop_end {p q : ObjId} {m k : UnicodeStr} (h : Walks cm s attr p m q k) :
    ∀ {n : ℕ} {x : Found}, Objects.findLoop cm s attr n p m = some x →
      Objects.findLoop cm s attr n q k = some x := by
  induction h with
  | refl => exact fun hx => hx
  | name _ hq hl ih =>
    intro n x hx
    have hq' := ih hx
    cases n with
    | zero => cases hq'
    | succ n =>
      rw [findLoop_plain hq, hl] at hq'
      exact findLoop_succ hq'
  | rootLink _ hq ih =>
    intro n x hx
    have hq' := ih hx
    cases n with
    | zero => cases hq'
    | succ n =>
      rw [findLoop_follows hq, findTarget_root] at hq'
      exact findLoop_succ hq'
  | @link p q r m k l rest _ hq hr hw hs hl ih _ =>
    intro n x hx
    have hq' := ih hx
    cases n with
    | zero => cases hq'
    | succ n =>
      rw [findLoop_follows hq, findTarget_eq _ hr] at hq'
      obtain ⟨n₁, hn₁⟩ := hw.findLoop (findLoop_of_stops hs 0)
      cases hf : Objects.findLoop cm s attr n rootDirectory (some rest) with
      | none => simp only [hf, reduceCtorEq] at hq'
      | some y =>
        obtain rfl := findLoop_unique hf hn₁
        simp only [hf, hl, ne_eq, not_true_eq_false, if_false] at hq'
        exact findLoop_succ hq'

/-! ## Links that end -/

/-- The lookup of the target of the link ends with fuel `n`. -/
def LinkEnds (cm : CaseMap) (s : State) (attr : Attributes) (n : ℕ) (link : ObjId) : Prop :=
  ∃ target x, Follows s attr link target ∧
    findObjectDirWith (findLoop cm s attr n) none (some target) = some x

theorem linkEnds_of_findLoop {n : ℕ} {q : ObjId} {k : UnicodeStr} {x : Found} {target : Name}
    (h : findLoop cm s attr n q k = some x) (hq : Follows s attr q target) :
    ∃ n' < n, LinkEnds cm s attr n' q := by
  cases n with
  | zero => cases h
  | succ n =>
    rw [findLoop_follows hq] at h
    cases hf : findObjectDirWith (findLoop cm s attr n) none (some target) with
    | none => simp only [hf, reduceCtorEq] at h
    | some y => exact ⟨n, Nat.lt_succ_self n, target, y, hq, hf⟩

/-- A link that is met while a target is looked up is given less fuel. -/
theorem LinkEnds.of_asks {n : ℕ} {a b : ObjId} (h : LinkEnds cm s attr n a)
    (hab : Asks cm s attr a b) : ∃ n' < n, LinkEnds cm s attr n' b := by
  obtain ⟨target, x, ha, hx⟩ := h
  obtain ⟨rest, k, target', ha', hr, hw, hb⟩ := hab
  have ht : target = backslash :: rest := by
    have := ha.1.symm.trans ha'.1
    simpa only [Option.some.injEq, Object.symlink.injEq] using this
  rw [ht, findTarget_eq _ hr] at hx
  exact linkEnds_of_findLoop (hw.findLoop_end hx) hb

theorem LinkEnds.acc {n : ℕ} {a : ObjId} (h : LinkEnds cm s attr n a) :
    Acc (flip (Asks cm s attr)) a := by
  induction n using Nat.strong_induction_on generalizing a with
  | _ n ih =>
    refine ⟨a, fun b hab => ?_⟩
    obtain ⟨n', hn, hb⟩ := h.of_asks hab
    exact ih n' hn hb

/-- Every round that follows no link shortens the name. -/
theorem length_of_plainLookup {q r : ObjId} {k l : UnicodeStr}
    (h : plainLookup cm s attr q k = .ok (some (r, l))) : l.chars.length < k.chars.length := by
  have hname : ∀ {ns : Namespace} {o : ObjId} {m : UnicodeStr} {a : Attributes},
      findObject cm ns m a = some o → m.chars ≠ [] := by
    intro ns o m a hm hnil
    simp only [findObject, if_pos hnil, reduceCtorEq] at hm
  have hdevice : ∀ {ns : Namespace}, deviceLookupName cm ns k attr = .ok (some (r, l)) →
      l.chars.length < k.chars.length := by
    intro ns hd
    simp only [deviceLookupName, Except.ok.injEq, Option.map_eq_some_iff, Prod.mk.injEq] at hd
    obtain ⟨found, hf, -, rfl⟩ := hd
    have hk := List.length_pos_iff.mpr (hname hf)
    cases k with
    | none => exact hk
    | some k => exact hk
  unfold plainLookup at h
  split at h
  · simp only [directoryLookupName] at h
    split at h
    · rename_i entries _ found hf
      have hn := List.length_pos_iff.mpr (hname hf)
      have hsplit := congrArg List.length
        (List.takeWhile_append_dropWhile (p := fun c => decide (c ≠ backslash)) (l := k.chars))
      simp only [UnicodeStr.chars, Option.getD_some, List.length_append] at hn hsplit
      simp only [Except.ok.injEq, Option.some.injEq, Prod.mk.injEq] at h
      obtain ⟨-, rfl⟩ := h
      split
      · simp only [UnicodeStr.chars, Option.getD_some, List.length_drop]
        omega
      · simp only [UnicodeStr.chars, Option.getD_none, List.length_nil]
        omega
    · split at h
      · split at h
        · cases h
        · split at h <;> cases h
      · cases h
  · exact hdevice h
  · exact hdevice h
  · cases h

/-- Where all links on the way end, so does the loop. The induction is on the length of the name; a
link leaves the name as it is but leads to an object that is not followed. -/
theorem findLoop_ends (hroot : ∀ target, ¬ Follows s attr rootDirectory target) {q : ObjId}
    {k : UnicodeStr} (h : ∀ b l target, Walks cm s attr q k b l → Follows s attr b target →
      ∃ n, LinkEnds cm s attr n b) : ∃ n x, findLoop cm s attr n q k = some x := by
  induction hn : k.chars.length using Nat.strong_induction_on generalizing q k with
  | _ len ih =>
    have hplain : ∀ {r : ObjId}, (∀ target, ¬ Follows s attr r target) → Walks cm s attr q k r k →
        ∃ n x, findLoop cm s attr n r k = some x := by
      intro r hr hw
      cases hl : plainLookup cm s attr r k with
      | error e => exact ⟨1, _, by rw [findLoop_plain hr, hl]⟩
      | ok found =>
        cases found with
        | none => exact ⟨1, _, by rw [findLoop_plain hr, hl]⟩
        | some found =>
          have hw' := hw.name hr hl
          obtain ⟨n, x, hx⟩ := ih _ (hn ▸ length_of_plainLookup hl)
            (fun b l target hb => h b l target (hw'.trans hb)) rfl
          exact ⟨n + 1, x, by rw [findLoop_plain hr, hl]; exact hx⟩
    by_cases hq : ∃ target, Follows s attr q target
    · obtain ⟨target, hq⟩ := hq
      obtain ⟨n, target', x, hq', hx⟩ := h q k target (Walks.refl q k) hq
      obtain ⟨e, he⟩ | rfl | ⟨rest, hr, rfl⟩ := findTarget_cases target'
      · exact ⟨1, _, by rw [findLoop_follows hq', he]⟩
      · obtain ⟨n', x', hx'⟩ := hplain hroot ((Walks.refl q k).rootLink hq')
        exact ⟨n' + 1, x', by rw [findLoop_follows hq', findTarget_root]; exact hx'⟩
      · rw [findTarget_eq _ hr] at hx
        cases x with
        | error e => exact ⟨n + 1, _, by rw [findLoop_follows hq', findTarget_eq _ hr, hx]⟩
        | ok found =>
          by_cases hl : found.2.chars ≠ []
          · refine ⟨n + 1, .error statusObjectPathNotFound, ?_⟩
            rw [findLoop_follows hq', findTarget_eq _ hr, hx]
            exact if_pos hl
          · obtain ⟨hw, hs⟩ := walks_of_findLoop hx
            have hw' := (Walks.refl q k).link hq' hr hw hs (not_not.mp hl)
            obtain ⟨n', x', hx'⟩ := hplain hs.1 hw'
            refine ⟨max n n' + 1, x', ?_⟩
            rw [findLoop_follows hq', findTarget_eq _ hr, findLoop_mono (Nat.le_max_left n n') hx]
            simp only [if_neg hl]
            exact findLoop_mono (Nat.le_max_right n n') hx'
    · exact hplain (not_exists.mp hq) (Walks.refl q k)

theorem linkEnds_of_acc (hroot : ∀ target, ¬ Follows s attr rootDirectory target) {a : ObjId}
    {target : Name} (h : Acc (flip (Asks cm s attr)) a) (ha : Follows s attr a target) :
    ∃ n, LinkEnds cm s attr n a := by
  induction h generalizing target with
  | intro a _ ih =>
    obtain ⟨e, he⟩ | rfl | ⟨rest, hr, rfl⟩ := findTarget_cases target
    · exact ⟨0, target, _, ha, he _⟩
    · exact ⟨0, _, _, ha, findTarget_root _⟩
    · obtain ⟨n, x, hx⟩ := findLoop_ends (k := some rest) hroot fun b l target hw hb =>
        ih b ⟨rest, l, target, ha, hr, hw, hb⟩ hb
      exact ⟨n, _, x, ha, by rw [findTarget_eq _ hr, hx]⟩

theorem finite_asks (a : ObjId) : {b | TransGen (Asks cm s attr) a b}.Finite := by
  refine (Set.finite_lt_nat s.objects.length).subset fun b hb => ?_
  obtain ⟨c, -, rest, k, target, -, -, -, hlink, -⟩ := TransGen.tail'_iff.mp hb
  by_contra hlt
  rw [State.object, List.getElem?_eq_none (Nat.not_lt.mp hlt)] at hlink
  cases hlink

theorem find_ends_iff (hroot : ∀ target, ¬ Follows s attr rootDirectory target)
    (root : Option ObjId) (name : UnicodeStr) :
    (∃ n x, findObjectDir cm s attr n root name = some x) ↔
      ∀ b, Meets cm s attr root name b → Acyclic (Asks cm s attr) b := by
  constructor
  · rintro ⟨n, x, hx⟩ b ⟨p, m, k, target, hstart, hm, hw, hb⟩
    simp only [findObjectDir, findObjectDirWith, hstart, if_neg hm] at hx
    obtain ⟨n', -, hends⟩ := linkEnds_of_findLoop (hw.findLoop_end hx) hb
    exact acyclic_of_acc hends.acc
  · intro h
    cases hstart : findStart root name with
    | error e => exact ⟨0, _, by simp only [findObjectDir, findObjectDirWith, hstart]; rfl⟩
    | ok found =>
      by_cases hm : found.2.chars = []
      · refine ⟨0, .ok found, ?_⟩
        simp only [findObjectDir, findObjectDirWith, hstart, if_pos hm]
      · obtain ⟨n, x, hx⟩ := findLoop_ends (q := found.1) (k := found.2) hroot
          fun b l target hw hb => linkEnds_of_acc hroot
            (acc_of_acyclic (finite_asks b) (h b ⟨_, _, l, target, hstart, hm, hw, hb⟩)) hb
        refine ⟨n, x, ?_⟩
        simp only [findObjectDir, findObjectDirWith, hstart, if_neg hm, hx]

end Wine.Objects
