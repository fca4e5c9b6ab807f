import Wine.Ole32.Properties

/-!
# The enumeration of a storage

The elements of a storage are the nodes of a tree of properties. The enumerator walks it in order with a
stack of the nodes that it has still to visit: below a node on the stack are the ones that come after it and
its right subtree.
-/

namespace Wine.Ole32

def propertyNull : BitVec 32 := 0xffffffff

def enumStatStgSizeIncrement : ℕ := 10

inductive EnumFault
  | assertion
  | overflow
  | endless
  deriving DecidableEq

inductive HResult
  | ok
  | sFalse
  | invalidArg
  deriving DecidableEq

/-- `IEnumSTATSTGImpl`, with the top of the stack first. -/
structure Enumerator where
  firstPropertyNode : BitVec 32
  stackToVisit : List (BitVec 32)
  stackMaxSize : ℕ

/-! ## The stack -/

/-- The store of `IEnumSTATSTGImpl_PushSearchNode`, in a stack that grows if it is full. -/
def Enumerator.push (e : Enumerator) (node : BitVec 32) : Except EnumFault Enumerator :=
  let stackMaxSize :=
    if e.stackToVisit.length = e.stackMaxSize then e.stackMaxSize + enumStatStgSizeIncrement
    else e.stackMaxSize
  if e.stackToVisit.length < stackMaxSize then
    .ok { e with stackToVisit := node :: e.stackToVisit, stackMaxSize := stackMaxSize }
  else .error .overflow

/-- `IEnumSTATSTGImpl_PushSearchNode`, with at most so many calls. -/
def pushSearchNode (st : PropertyStorage) :
    ℕ → Enumerator → BitVec 32 → Except EnumFault Enumerator
  | 0, _, _ => .error .endless
  | calls + 1, e, nodeToPush =>
    if nodeToPush = propertyNull then .ok e
    else do
      let e ← e.push nodeToPush
      match st.readProperty nodeToPush with
      | none => .ok e
      | some rootProperty =>
        if rootProperty.sizeOfNameString = 0 then .error .assertion
        else pushSearchNode st calls e rootProperty.previousProperty

/-- `IEnumSTATSTGImpl_PopSearchNode`: the node, and the enumerator without it. -/
def Enumerator.top (e : Enumerator) : BitVec 32 := e.stackToVisit.headD propertyNull

def Enumerator.pop (e : Enumerator) : Enumerator := { e with stackToVisit := e.stackToVisit.tail }

/-! ## The methods -/

/-- The loop of `Next` and of `Skip`: `n` elements are missing, and a property that cannot be read leaves
`currentProperty` as it is. The result has the properties met. -/
def walk (st : PropertyStorage) (calls : ℕ) :
    ℕ → Enumerator → StgProperty → Except EnumFault (Enumerator × List StgProperty)
  | 0, e, _ => .ok (e, [])
  | n + 1, e, currentProperty =>
    if e.top = propertyNull then .ok (e, [])
    else do
      let currentProperty := (st.readProperty e.top).getD currentProperty
      let e ← pushSearchNode st calls e.pop currentProperty.nextProperty
      let (e, met) ← walk st calls n e currentProperty
      return (e, currentProperty :: met)

/-- `IEnumSTATSTGImpl_Next`; the pointers are given or not, and `currentProperty` is uninitialised. -/
def next (st : PropertyStorage) (calls : ℕ) (currentProperty : StgProperty) (celt : BitVec 32)
    (rgelt pceltFetched : Bool) (e : Enumerator) :
    Except EnumFault (Enumerator × HResult × List StgProperty) :=
  if !rgelt ∨ (celt ≠ 1 ∧ !pceltFetched) then .ok (e, .invalidArg, [])
  else do
    let (e, fetched) ← walk st calls celt.toNat e currentProperty
    return (e, if fetched.length = celt.toNat then .ok else .sFalse, fetched)

/-- `IEnumSTATSTGImpl_Skip`, with the elements skipped. -/
def skip (st : PropertyStorage) (calls : ℕ) (currentProperty : StgProperty) (celt : BitVec 32)
    (e : Enumerator) : Except EnumFault (Enumerator × HResult × List StgProperty) := do
  let (e, fetched) ← walk st calls celt.toNat e currentProperty
  return (e, if fetched.length = celt.toNat then .ok else .sFalse, fetched)

/-- `IEnumSTATSTGImpl_Reset` -/
def reset (st : PropertyStorage) (calls : ℕ) (e : Enumerator) : Except EnumFault Enumerator :=
  let e := { e with stackToVisit := [] }
  match st.readProperty e.firstPropertyNode with
  | none => .ok e
  | some rootProperty =>
    if rootProperty.sizeOfNameString = 0 then .error .assertion
    else pushSearchNode st calls e rootProperty.dirProperty

/-- `IEnumSTATSTGImpl_Construct` -/
def constructEnumerator (st : PropertyStorage) (calls : ℕ) (firstPropertyNode : BitVec 32) :
    Except EnumFault Enumerator :=
  reset st calls ⟨firstPropertyNode, [], enumStatStgSizeIncrement⟩

inductive EnumOp
  | next (celt : BitVec 32) (rgelt pceltFetched : Bool)
  | skip (celt : BitVec 32)
  | reset

/-- One call, with its result and the elements delivered or skipped. -/
def callEnum (st : PropertyStorage) (calls : ℕ) (currentProperty : StgProperty) (e : Enumerator) :
    EnumOp → Except EnumFault (Enumerator × HResult × List StgProperty)
  | .next celt rgelt pceltFetched => next st calls currentProperty celt rgelt pceltFetched e
  | .skip celt => skip st calls currentProperty celt e
  | .reset => do return (← reset st calls e, .ok, [])

/-- The results of a sequence of calls. -/
def runEnum (st : PropertyStorage) (calls : ℕ) (currentProperty : StgProperty) :
    Enumerator → List EnumOp → Except EnumFault (List (HResult × List StgProperty))
  | _, [] => .ok []
  | e, op :: ops => do
    let (e, result) ← callEnum st calls currentProperty e op
    return result :: (← runEnum st calls currentProperty e ops)

/-! ## Names -/

/-- The characters of a name up to the `NUL`. -/
def nameChars : List (BitVec 8) → List (BitVec 16)
  | low :: high :: bytes =>
    let c := high ++ low
    if c = 0 then [] else c :: nameChars bytes
  | _ => []

def StgProperty.chars (p : StgProperty) : List (BitVec 16) := nameChars p.name.1

/-- `propertyNameCmp`; `lstrcmpiW` is a parameter. -/
def propertyNameCmp (lstrcmpiW : List (BitVec 16) → List (BitVec 16) → ℤ)
    (newProperty currentProperty : List (BitVec 16)) : ℤ :=
  let diff : ℤ := newProperty.length - currentProperty.length
  if diff = 0 then lstrcmpiW newProperty currentProperty else diff

/-! ## The tree -/

inductive PropertyTree
  | leaf
  | node (previous : PropertyTree) (property : StgProperty) (next : PropertyTree)

namespace PropertyTree

/-- The properties in order. -/
def listing : PropertyTree → List StgProperty
  | leaf => []
  | node previous property next => previous.listing ++ property :: next.listing

/-- The properties before a node are less and the ones behind it are greater. -/
def Ordered (lt : StgProperty → StgProperty → Prop) : PropertyTree → Prop
  | leaf => True
  | node previous property next => previous.Ordered lt ∧ next.Ordered lt ∧
      (∀ p ∈ previous.listing, lt p property) ∧ ∀ p ∈ next.listing, lt property p

end PropertyTree

/-- The tree hangs on the index: its nodes are properties in use. -/
def Hangs (st : PropertyStorage) : BitVec 32 → PropertyTree → Prop
  | index, .leaf => index = propertyNull
  | index, .node previous property next => index ≠ propertyNull ∧
      st.readProperty index = some property ∧ property.sizeOfNameString ≠ 0 ∧
      Hangs st property.previousProperty previous ∧ Hangs st property.nextProperty next

/-- What the calls have to give, when the first list is still to come and the second one is all. -/
def listed (all : List StgProperty) : List StgProperty → List EnumOp → List (HResult × List StgProperty)
  | _, [] => []
  | rest, .next celt rgelt pceltFetched :: ops =>
    if !rgelt ∨ (celt ≠ 1 ∧ !pceltFetched) then (.invalidArg, []) :: listed all rest ops
    else (if rest.length < celt.toNat then .sFalse else .ok, rest.take celt.toNat) ::
      listed all (rest.drop celt.toNat) ops
  | rest, .skip celt :: ops =>
    (if rest.length < celt.toNat then .sFalse else .ok, rest.take celt.toNat) ::
      listed all (rest.drop celt.toNat) ops
  | _, .reset :: ops => (.ok, []) :: listed all all ops

/-- The number of calls that push a subtree, and at most as many for every subtree in it. -/
def PropertyTree.calls : PropertyTree → ℕ
  | leaf => 1
  | node previous _ next => max (previous.calls + 1) next.calls

/-- The nodes on the stack with their right subtrees are what is still to come, and so many calls push any
of the subtrees. -/
inductive Stacked (st : PropertyStorage) (calls : ℕ) : List (BitVec 32) → List StgProperty → Prop
  | nil : Stacked st calls [] []
  | cons {index : BitVec 32} {property : StgProperty} {right : PropertyTree}
      {stack : List (BitVec 32)} {rest : List StgProperty} (hne : index ≠ propertyNull)
      (hread : st.readProperty index = some property) (hnext : Hangs st property.nextProperty right)
      (hcalls : right.calls ≤ calls) (hrest : Stacked st calls stack rest) :
      Stacked st calls (index :: stack) (property :: (right.listing ++ rest))

/-- What holds between calls. -/
structure Enumerates (st : PropertyStorage) (calls : ℕ) (first : BitVec 32) (rest : List StgProperty)
    (e : Enumerator) : Prop where
  first : e.firstPropertyNode = first
  fits : e.stackToVisit.length ≤ e.stackMaxSize
  stacked : Stacked st calls e.stackToVisit rest

variable {st : PropertyStorage} {first index : BitVec 32} {e : Enumerator} {t : PropertyTree}
  {rest : List StgProperty} {calls n k : ℕ} {root : StgProperty}

/-! ## Pushing -/

/-- The stack with a larger capacity, if it has to grow. -/
theorem push_ok (node : BitVec 32) (h : e.stackToVisit.length ≤ e.stackMaxSize) :
    ∃ size, e.stackToVisit.length < size ∧
      e.push node = .ok ⟨e.firstPropertyNode, node :: e.stackToVisit, size⟩ := by
  unfold Enumerator.push
  dsimp only
  split
  · next hfull =>
    rw [hfull, if_pos (Nat.lt_add_of_pos_right (by decide))]
    exact ⟨_, Nat.lt_add_of_pos_right (by decide), rfl⟩
  · next hroom =>
    have hlt := Nat.lt_of_le_of_ne h hroom
    rw [if_pos hlt]
    exact ⟨_, hlt, rfl⟩

/-- Pushing a subtree puts its properties before what is still to come. -/
theorem pushSearchNode_spec (t : PropertyTree) (ht : Hangs st index t) (hk : t.calls ≤ k)
    (hcalls : t.calls ≤ calls) (he : Enumerates st calls first rest e) :
    ∃ e', pushSearchNode st k e index = .ok e' ∧
      Enumerates st calls first (t.listing ++ rest) e' := by
  induction t generalizing index k e rest with
  | leaf =>
    obtain ⟨k, rfl⟩ := Nat.exists_eq_add_of_le' hk
    have hnull : index = propertyNull := ht
    exact ⟨e, if_pos hnull, he⟩
  | node previous property right ihp _ =>
    obtain ⟨hne, hread, hname, hprev, hnext⟩ := ht
    have hdepth : previous.calls + 1 ≤ k := Nat.le_trans (Nat.le_max_left _ _) hk
    have hleft : previous.calls ≤ calls :=
      Nat.le_of_succ_le (Nat.le_trans (Nat.le_max_left _ _) hcalls)
    have hright : right.calls ≤ calls := Nat.le_trans (Nat.le_max_right _ _) hcalls
    cases k with
    | zero => exact absurd hdepth (Nat.not_succ_le_zero _)
    | succ k =>
      obtain ⟨size, hsize, hpush⟩ := push_ok index he.fits
      have he' : Enumerates st calls first (property :: (right.listing ++ rest))
          ⟨e.firstPropertyNode, index :: e.stackToVisit, size⟩ :=
        ⟨he.first, hsize, .cons hne hread hnext hright he.stacked⟩
      obtain ⟨e', hrun, hrest⟩ := ihp hprev (Nat.le_of_succ_le_succ hdepth) hleft he'
      refine ⟨e', ?_, ?_⟩
      · rw [pushSearchNode, if_neg hne, hpush]
        change (match st.readProperty index with
          | none => _
          | some rootProperty => _) = _
        rw [hread]
        exact (if_neg hname).trans hrun
      · rw [PropertyTree.listing, List.append_assoc, List.cons_append]
        exact hrest

/-! ## Walking -/

/-- The loop meets what is still to come, as far as it goes. -/
theorem walk_spec (n : ℕ) (currentProperty : StgProperty) (he : Enumerates st calls first rest e) :
    ∃ e', walk st calls n e currentProperty = .ok (e', rest.take n) ∧
      Enumerates st calls first (rest.drop n) e' := by
  induction n generalizing e rest currentProperty with
  | zero => exact ⟨e, by rw [walk, List.take_zero], by rwa [List.drop_zero]⟩
  | succ n ih =>
    obtain ⟨hfirst, hfits, hstacked⟩ := he
    obtain ⟨first', stack, size⟩ := e
    cases hstacked with
    | nil =>
      refine ⟨⟨first', [], size⟩, ?_, hfirst, hfits, ?_⟩
      · have htop : Enumerator.top ⟨first', [], size⟩ = propertyNull := rfl
        rw [walk, if_pos htop, List.take_nil]
      · rw [List.drop_nil]
        exact .nil
    | @cons index property right stack rest hne hread hnext hcalls hrest =>
      have hpop : Enumerates st calls first rest ⟨first', stack, size⟩ :=
        ⟨hfirst, Nat.le_of_succ_le hfits, hrest⟩
      obtain ⟨e', hpush, he'⟩ := pushSearchNode_spec right hnext hcalls hcalls hpop
      obtain ⟨e'', hwalk, he''⟩ := ih property he'
      refine ⟨e'', ?_, he''⟩
      have htop : Enumerator.top ⟨first', index :: stack, size⟩ = index := rfl
      have hnode : Enumerator.pop ⟨first', index :: stack, size⟩ = ⟨first', stack, size⟩ := rfl
      rw [walk, htop, if_neg hne, hread, hnode, Option.getD_some]
      change (pushSearchNode st calls ⟨first', stack, size⟩ property.nextProperty >>= fun e =>
        walk st calls n e property >>= fun r => .ok (r.1, property :: r.2)) = _
      rw [hpush]
      change (walk st calls n e' property >>= fun r => .ok (r.1, property :: r.2)) = _
      rw [hwalk]
      rfl

/-- All properties come after a reset. -/
theorem reset_spec (hroot : st.readProperty first = some root) (hname : root.sizeOfNameString ≠ 0)
    (ht : Hangs st root.dirProperty t) (hcalls : t.calls ≤ calls) (hfirst : e.firstPropertyNode = first) :
    ∃ e', reset st calls e = .ok e' ∧ Enumerates st calls first t.listing e' := by
  subst hfirst
  have hempty : Enumerates st calls e.firstPropertyNode [] { e with stackToVisit := [] } :=
    ⟨rfl, Nat.zero_le _, .nil⟩
  obtain ⟨e', hpush, he'⟩ := pushSearchNode_spec t ht hcalls hcalls hempty
  rw [List.append_nil] at he'
  refine ⟨e', ?_, he'⟩
  unfold reset
  dsimp only
  rw [hroot]
  exact (if_neg hname).trans hpush

/-! ## Runs -/

theorem result_eq (rest : List StgProperty) (n : ℕ) :
    (if (rest.take n).length = n then HResult.ok else .sFalse) =
      if rest.length < n then .sFalse else .ok := by
  rw [List.length_take]
  by_cases h : rest.length < n
  · rw [if_neg (by omega), if_pos h]
  · rw [if_pos (by omega), if_neg h]

theorem run_spec (hroot : st.readProperty first = some root) (hname : root.sizeOfNameString ≠ 0)
    (ht : Hangs st root.dirProperty t) (hcalls : t.calls ≤ calls) (currentProperty : StgProperty)
    (ops : List EnumOp) (he : Enumerates st calls first rest e) :
    runEnum st calls currentProperty e ops = .ok (listed t.listing rest ops) := by
  induction ops generalizing e rest with
  | nil => rfl
  | cons op ops ih =>
    cases op with
    | next celt rgelt pceltFetched =>
      by_cases hargs : !rgelt ∨ (celt ≠ 1 ∧ !pceltFetched)
      · rw [runEnum, callEnum, next, if_pos hargs, listed, if_pos hargs]
        change (runEnum st calls currentProperty e ops >>= fun r => .ok ((.invalidArg, []) :: r)) = _
        rw [ih he]
        rfl
      · obtain ⟨e', hwalk, he'⟩ := walk_spec celt.toNat currentProperty he
        rw [runEnum, callEnum, next, if_neg hargs, hwalk, listed, if_neg hargs, ← result_eq]
        change (runEnum st calls currentProperty e' ops >>= fun r => .ok (_ :: r)) = _
        rw [ih he']
        rfl
    | skip celt =>
      obtain ⟨e', hwalk, he'⟩ := walk_spec celt.toNat currentProperty he
      rw [runEnum, callEnum, skip, hwalk, listed, ← result_eq]
      change (runEnum st calls currentProperty e' ops >>= fun r => .ok (_ :: r)) = _
      rw [ih he']
      rfl
    | reset =>
      obtain ⟨e', hreset, he'⟩ := reset_spec hroot hname ht hcalls he.first
      rw [runEnum, callEnum, hreset, listed]
      change (runEnum st calls currentProperty e' ops >>= fun r => .ok (_ :: r)) = _
      rw [ih he']
      rfl

/-! ## Order -/

theorem propertyNameCmp_trans {lstrcmpiW : List (BitVec 16) → List (BitVec 16) → ℤ}
    (htrans : ∀ a b c, lstrcmpiW a b < 0 → lstrcmpiW b c < 0 → lstrcmpiW a c < 0)
    {a b c : List (BitVec 16)} (hab : propertyNameCmp lstrcmpiW a b < 0)
    (hbc : propertyNameCmp lstrcmpiW b c < 0) : propertyNameCmp lstrcmpiW a c < 0 := by
  unfold propertyNameCmp at *
  dsimp only at *
  split at hab
  · split at hbc
    · rw [if_pos (by omega)]
      exact htrans a b c hab hbc
    · rw [if_neg (by omega)]
      omega
  · rw [if_neg (by split at hbc <;> omega)]
    split at hbc <;> omega

theorem pairwise_listing {lt : StgProperty → StgProperty → Prop}
    (htrans : ∀ p q r, lt p q → lt q r → lt p r) (h : t.Ordered lt) : t.listing.Pairwise lt := by
  induction t with
  | leaf => exact .nil
  | node previous property right ihp ihr =>
    obtain ⟨hp, hr, hless, hgreater⟩ := h
    rw [PropertyTree.listing, List.pairwise_append]
    refine ⟨ihp hp, List.pairwise_cons.mpr ⟨hgreater, ihr hr⟩, fun p hpmem q hq => ?_⟩
    rcases List.mem_cons.mp hq with rfl | hq
    · exact hless p hpmem
    · exact htrans p property q (hless p hpmem) (hgreater q hq)

/-- A storage with one element, which is called a. -/
def oneElement : PropertyStorage where
  rootBlockChain i :=
    if i % 128 = 0x40 then 4
    else if 0x44 ≤ i % 128 ∧ i % 128 < 0x4c then 0xff
    else if i = 0x4c then 1
    else if i = 0x80 then 0x61
    else 0
  size := 256
  filename _ := 0
  rootPropertySetIndex := 0

def compareChars (a b : List (BitVec 16)) : ℤ :=
  if a.map BitVec.toNat < b.map BitVec.toNat then -1
  else if b.map BitVec.toNat < a.map BitVec.toNat then 1
  else 0

theorem compareChars_neg (a b : List (BitVec 16)) :
    compareChars a b < 0 ↔ a.map BitVec.toNat < b.map BitVec.toNat := by
  unfold compareChars
  split
  · next h => exact iff_of_true (by decide) h
  · next h => exact iff_of_false (by split <;> decide) h

theorem compareChars_trans (a b c : List (BitVec 16)) (hab : compareChars a b < 0)
    (hbc : compareChars b c < 0) : compareChars a c < 0 := by
  rw [compareChars_neg] at *
  exact List.lt_trans hab hbc

end Wine.Ole32
