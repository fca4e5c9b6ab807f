import Mathlib.Data.Fintype.Pigeonhole
import Wine.Ole32.Depot
import Wine.Ole32.Enumeration

/-!
# Chains of blocks

The block allocation table says which block follows which one. A chain is what one gets to from its head; it
may end with the end marker, at a block without an entry, or not at all. In the same way the links between
properties need not be a tree, and then the enumerator may go on for ever.
-/

namespace Wine.Ole32.Chains

/-- The block allocation table as it can be read: block `n` has its entry at `n`, and there are fewer blocks
than the markers. -/
structure Table where
  entry : ℕ → Option ℕ
  size : ℕ
  beyond : ∀ i, size ≤ i → entry i = none
  size_le : size ≤ 0x3ffffff0

/-- The offset of an entry in the table is a `ULONG`. -/
def slot (blockIndex : ℕ) : ℕ := blockIndex % 2 ^ 30

/-- `StorageImpl_GetNextBlockInChain` -/
def Table.getNext (t : Table) (blockIndex : ℕ) : Option ℕ := t.entry (slot blockIndex)

/-- What `BlockChainStream_Construct` finds out. -/
structure Found where
  numBlocks : ℕ
  tailIndex : ℕ
  deriving DecidableEq

/-- The loop of `BlockChainStream_Construct`, in which at most so many links are followed. The result is
`none` for a chain that breaks off. -/
def constructLoop (t : Table) : ℕ → ℕ → Found → Option (Option Found)
  | 0, blockIndex, found =>
    if blockIndex = blockEndOfChain then some (some found)
    else if t.getNext blockIndex = none then some none
    else none
  | links + 1, blockIndex, found =>
    if blockIndex = blockEndOfChain then some (some found)
    else
      match t.getNext blockIndex with
      | none => some none
      | some next => constructLoop t links next ⟨found.numBlocks + 1, blockIndex⟩

/-- `BlockChainStream_Construct` -/
def construct (t : Table) (links head : ℕ) : Option (Option Found) :=
  constructLoop t links head ⟨0, blockEndOfChain⟩

/-- The loop of `BlockChainStream_GetCount`. -/
def countLoop (t : Table) : ℕ → ℕ → ℕ → Option ℕ
  | 0, blockIndex, count =>
    if blockIndex = blockEndOfChain then some count
    else if t.getNext blockIndex = none then some 0
    else none
  | links + 1, blockIndex, count =>
    if blockIndex = blockEndOfChain then some count
    else
      match t.getNext blockIndex with
      | none => some 0
      | some next => countLoop t links next (count + 1)

/-- `BlockChainStream_GetCount` -/
def getCount (t : Table) (links head : ℕ) : Option ℕ := countLoop t links head 0

/-- The block that so many links lead to. -/
def blockAfter (t : Table) (head : ℕ) : ℕ → Option ℕ
  | 0 => some head
  | n + 1 => (blockAfter t head n).bind fun b => if b = blockEndOfChain then none else t.getNext b

/-- The chain comes to no block twice. -/
def Acyclic (t : Table) (head : ℕ) : Prop :=
  ∀ m n b, m < n → blockAfter t head m = some b → blockAfter t head n ≠ some b

/-- The end marker, or a block without an entry. -/
def Stops (t : Table) (b : ℕ) : Prop := b = blockEndOfChain ∨ t.getNext b = none

variable {t : Table} {head b c m n links : ℕ}

/-! ## Links -/

theorem getNext_end (t : Table) : t.getNext blockEndOfChain = none := by
  refine t.beyond _ (Nat.le_trans t.size_le ?_)
  decide

theorem blockAfter_succ (h : blockAfter t head n = some b) (hb : b ≠ blockEndOfChain) :
    blockAfter t head (n + 1) = t.getNext b := by
  rw [blockAfter, h, Option.bind_some, if_neg hb]

theorem blockAfter_of_none (h : blockAfter t head n = none) (k : ℕ) :
    blockAfter t head (n + k) = none := by
  induction k with
  | zero => exact h
  | succ k ih => rw [← Nat.add_assoc, blockAfter, ih, Option.bind_none]

/-- What follows a block does not depend on how one has come to it. -/
theorem blockAfter_add (h : blockAfter t head n = some b) (k : ℕ) :
    blockAfter t head (n + k) = blockAfter t b k := by
  induction k with
  | zero => exact h
  | succ k ih => rw [← Nat.add_assoc, blockAfter, ih, blockAfter]

/-- There is no link at the end. -/
theorem blockAfter_stop (h : blockAfter t head n = some b) (hb : Stops t b) :
    blockAfter t head (n + 1) = none := by
  rw [blockAfter, h, Option.bind_some]
  split
  · rfl
  · next hne => exact hb.resolve_left hne

/-! ## The loops -/

/-- The loops end exactly if so many links lead to a stop. -/
theorem constructLoop_isSome (found : Found) : (constructLoop t links head found).isSome ↔
    ∃ n b, n ≤ links ∧ blockAfter t head n = some b ∧ Stops t b := by
  induction links generalizing head found with
  | zero =>
    rw [constructLoop]
    by_cases hend : head = blockEndOfChain
    · rw [if_pos hend]
      exact iff_of_true rfl ⟨0, head, Nat.le_refl 0, rfl, .inl hend⟩
    · rw [if_neg hend]
      by_cases hnext : t.getNext head = none
      · rw [if_pos hnext]
        exact iff_of_true rfl ⟨0, head, Nat.le_refl 0, rfl, .inr hnext⟩
      · rw [if_neg hnext]
        refine iff_of_false Bool.false_ne_true ?_
        rintro ⟨n, b, hn, hb, hstop⟩
        obtain rfl := Nat.le_zero.mp hn
        obtain rfl := Option.some.inj hb
        exact hstop.elim hend hnext
  | succ links ih =>
    rw [constructLoop]
    by_cases hend : head = blockEndOfChain
    · rw [if_pos hend]
      exact iff_of_true rfl ⟨0, head, Nat.zero_le _, rfl, .inl hend⟩
    · rw [if_neg hend]
      cases hnext : t.getNext head with
      | none => exact iff_of_true rfl ⟨0, head, Nat.zero_le _, rfl, .inr hnext⟩
      | some c =>
        have hfirst : blockAfter t head 1 = some c := (blockAfter_succ rfl hend).trans hnext
        have hrest := fun n => blockAfter_add hfirst n
        refine (ih _).trans ?_
        constructor
        · rintro ⟨n, b, hn, hb, hstop⟩
          exact ⟨1 + n, b, by omega, (hrest n).trans hb, hstop⟩
        · rintro ⟨n, b, hn, hb, hstop⟩
          cases n with
          | zero =>
            obtain rfl := Option.some.inj hb
            refine absurd hstop (not_or.mpr ⟨hend, fun h => ?_⟩)
            rw [h] at hnext
            cases hnext
          | succ n =>
            refine ⟨n, b, Nat.le_of_succ_le_succ hn, ?_, hstop⟩
            rw [← hrest n, Nat.add_comm 1 n]
            exact hb

/-- Counting goes as far as constructing. -/
theorem countLoop_isSome (count : ℕ) (found : Found) :
    (countLoop t links head count).isSome = (constructLoop t links head found).isSome := by
  induction links generalizing head count found with
  | zero =>
    rw [countLoop, constructLoop]
    split
    · rfl
    · split <;> rfl
  | succ links ih =>
    rw [countLoop, constructLoop]
    split
    · rfl
    · cases t.getNext head with
      | none => rfl
      | some c => exact ih _ _

/-! ## Cycles -/

/-- Blocks with one entry have the same successor. -/
theorem acyclic_slot (h : Acyclic t head) (hmn : m < n) (hm : blockAfter t head m = some b)
    (hn : blockAfter t head n = some c) (hc : ¬Stops t c) : slot b ≠ slot c := by
  intro hslot
  have hsame : t.getNext b = t.getNext c := by rw [Table.getNext, hslot, Table.getNext]
  have hbne : b ≠ blockEndOfChain := by
    rintro rfl
    exact hc (.inr (hsame ▸ getNext_end t))
  have hcne : c ≠ blockEndOfChain := fun h => hc (.inl h)
  obtain ⟨d, hd⟩ := Option.ne_none_iff_exists'.mp fun h => hc (.inr h)
  refine h (m + 1) (n + 1) d (Nat.succ_lt_succ hmn) ?_ ?_
  · rw [blockAfter_succ hm hbne, hsame, hd]
  · rw [blockAfter_succ hn hcne, hd]

/-- A chain that comes to no block twice stops within as many links as the table has entries. -/
theorem stops_of_acyclic (h : Acyclic t head) :
    ∃ n b, n ≤ t.size ∧ blockAfter t head n = some b ∧ Stops t b := by
  by_contra hnot
  have hnone : ∀ n b, n ≤ t.size → blockAfter t head n = some b → ¬Stops t b :=
    fun n b hn hb hstop => hnot ⟨n, b, hn, hb, hstop⟩
  -- so many links lead to blocks with entries of their own
  have hall : ∀ n ≤ t.size, ∃ b, blockAfter t head n = some b ∧ ¬Stops t b := by
    intro n hn
    induction n with
    | zero => exact ⟨head, rfl, hnone 0 head hn rfl⟩
    | succ n ih =>
      obtain ⟨b, hb, hgoes⟩ := ih (Nat.le_of_succ_le hn)
      obtain ⟨c, hc⟩ := Option.ne_none_iff_exists'.mp fun h => hgoes (.inr h)
      have hnext := (blockAfter_succ hb fun h => hgoes (.inl h)).trans hc
      exact ⟨c, hnext, hnone (n + 1) c hn hnext⟩
  choose f hf hgoes using fun i : Fin (t.size + 1) => hall i (Nat.le_of_lt_succ i.isLt)
  have hlt (i : Fin (t.size + 1)) : slot (f i) < t.size := by
    by_contra hge
    exact hgoes i (.inr (t.beyond _ (Nat.le_of_not_lt hge)))
  obtain ⟨i, j, hne, heq⟩ := Fintype.exists_ne_map_eq_of_card_lt
    (fun i : Fin (t.size + 1) => (⟨slot (f i), hlt i⟩ : Fin t.size)) (by simp)
  have hslot : slot (f i) = slot (f j) := congrArg Fin.val heq
  rcases Nat.lt_or_gt_of_ne (fun h => hne (Fin.ext h)) with hij | hij
  · exact acyclic_slot h hij (hf i) (hf j) (hgoes j) hslot
  · exact acyclic_slot h hij (hf j) (hf i) (hgoes i) hslot.symm

/-- A chain that comes back to a block goes on for ever. -/
theorem acyclic_of_stops (hb : blockAfter t head n = some b) (hstop : Stops t b) : Acyclic t head := by
  intro i j c hij hi hj
  have hend := blockAfter_stop hb hstop
  have hperiod := blockAfter_add hi
  have hperiod' := blockAfter_add hj
  -- the links from the first visit to the stop lead there from the second one too
  have hin : i ≤ n := by
    by_contra hlt
    have hnone := blockAfter_of_none hend (i - (n + 1))
    rw [show n + 1 + (i - (n + 1)) = i by omega, hi] at hnone
    cases hnone
  have hlate : blockAfter t head (j + (n - i)) = some b := by
    rw [hperiod', ← hperiod, show i + (n - i) = n by omega, hb]
  have hnone := blockAfter_of_none hend (j + (n - i) - (n + 1))
  rw [show n + 1 + (j + (n - i) - (n + 1)) = j + (n - i) by omega, hlate] at hnone
  cases hnone

/-- Constructing a chain and counting its blocks end within as many links as there are blocks exactly if the
chain comes to no block twice. -/
theorem construct_isSome_iff (t : Table) (head : ℕ) :
    ((construct t t.size head).isSome ∧ (getCount t t.size head).isSome) ↔ Acyclic t head := by
  rw [construct, getCount, countLoop_isSome 0 ⟨0, blockEndOfChain⟩, and_self, constructLoop_isSome]
  constructor
  · rintro ⟨n, b, -, hb, hstop⟩
    exact acyclic_of_stops hb hstop
  · exact stops_of_acyclic

/-! ## Storages -/

/-- The number of properties that there are. -/
def propertyCount (st : PropertyStorage) : ℕ := st.size / propsetBlockSize

/-- Calls of `Next` for one element, until there is none. -/
def drain (st : PropertyStorage) (calls : ℕ) (currentProperty : StgProperty) :
    ℕ → Enumerator → Except EnumFault (List StgProperty)
  | 0, _ => .error .endless
  | n + 1, e => do
    let (e, _, fetched) ← next st calls currentProperty 1 true true e
    if fetched = [] then return []
    else return fetched ++ (← drain st calls currentProperty n e)

/-- The elements of the storage are the nodes of a tree, no more than there are properties. -/
def IsTree (st : PropertyStorage) (first : BitVec 32) : Prop :=
  ∀ root, st.readProperty first = some root → root.sizeOfNameString ≠ 0 ∧
    ∃ tree, Hangs st root.dirProperty tree ∧ tree.listing.length ≤ propertyCount st

/-- The enumeration ends within as many calls as there are properties, and the one that finds no more; and
so do the pushes of each of them. -/
def EnumerationEnds (st : PropertyStorage) (first : BitVec 32) (currentProperty : StgProperty) : Prop :=
  ∃ e elements, constructEnumerator st (propertyCount st + 1) first = .ok e ∧
    drain st (propertyCount st + 1) currentProperty (propertyCount st + 1) e = .ok elements ∧
    elements.length ≤ propertyCount st

/-- The links of properties lead from one index to the other. -/
inductive Reaches (st : PropertyStorage) : BitVec 32 → BitVec 32 → Prop
  | here (i : BitVec 32) : Reaches st i i
  | previous {i j : BitVec 32} {p : StgProperty} :
      st.readProperty i = some p → Reaches st p.previousProperty j → Reaches st i j
  | next {i j : BitVec 32} {p : StgProperty} :
      st.readProperty i = some p → Reaches st p.nextProperty j → Reaches st i j

/-- The properties that the links lead to can be read. -/
def Readable (st : PropertyStorage) (first : BitVec 32) : Prop :=
  ∀ root, st.readProperty first = some root → ∀ i, Reaches st root.dirProperty i →
    i ≠ propertyNull → st.readProperty i ≠ none

variable {st : PropertyStorage} {first index : BitVec 32} {tree : PropertyTree} {e : Enumerator}
  {rest : List StgProperty} {calls : ℕ}

theorem calls_le (tree : PropertyTree) : tree.calls ≤ tree.listing.length + 1 := by
  induction tree with
  | leaf => exact Nat.le_refl 1
  | node previous property right ihp ihr =>
    rw [PropertyTree.calls, PropertyTree.listing, List.length_append, List.length_cons]
    omega

theorem drain_spec (currentProperty : StgProperty) (he : Enumerates st calls first rest e)
    (hn : rest.length < n) : drain st calls currentProperty n e = .ok rest := by
  induction n generalizing e rest with
  | zero => exact absurd hn (Nat.not_lt_zero _)
  | succ n ih =>
    obtain ⟨e', hwalk, he'⟩ := walk_spec 1 currentProperty he
    have hnext : next st calls currentProperty 1 true true e =
        .ok (e', if (rest.take 1).length = 1 then .ok else .sFalse, rest.take 1) := by
      rw [next, if_neg (by decide)]
      change (walk st calls 1 e currentProperty >>= fun r => _) = _
      rw [hwalk]
      rfl
    rw [drain, hnext]
    change (if rest.take 1 = [] then _ else _) = _
    cases rest with
    | nil => rfl
    | cons p rest =>
      rw [if_neg (show ¬List.take 1 (p :: rest) = [] from List.cons_ne_nil _ _)]
      change (drain st calls currentProperty n e' >>= fun r => .ok (p :: r)) = _
      rw [ih he' (Nat.lt_of_succ_lt_succ hn)]
      rfl

/-- The enumeration of a tree ends. -/
theorem ends_of_isTree (h : IsTree st first) (currentProperty : StgProperty) :
    EnumerationEnds st first currentProperty := by
  cases hroot : st.readProperty first with
  | none =>
    have hempty : Enumerates st (propertyCount st + 1) first []
        ⟨first, [], enumStatStgSizeIncrement⟩ := ⟨rfl, Nat.zero_le _, .nil⟩
    refine ⟨⟨first, [], enumStatStgSizeIncrement⟩, [], ?_, ?_, Nat.zero_le _⟩
    · unfold constructEnumerator reset
      dsimp only
      rw [hroot]
    · exact drain_spec currentProperty hempty (Nat.succ_pos _)
  | some root =>
    obtain ⟨hname, tree, htree, hle⟩ := h root hroot
    obtain ⟨e, he, hall⟩ := reset_spec hroot hname htree
      (Nat.le_trans (calls_le tree) (Nat.succ_le_succ hle))
      (rfl : Enumerator.firstPropertyNode ⟨first, [], enumStatStgSizeIncrement⟩ = first)
    exact ⟨e, tree.listing, he, drain_spec currentProperty hall (Nat.lt_succ_of_le hle), hle⟩

/-! ## Enumerations that end -/

/-- What the indices on the stack have still to give: each of them is a property in front of the tree that
hangs on its next one. -/
inductive Pending (st : PropertyStorage) : List (BitVec 32) → ℕ → Prop
  | nil : Pending st [] 0
  | cons {i : BitVec 32} {stack : List (BitVec 32)} {p : StgProperty} {tree : PropertyTree} {k : ℕ} :
      st.readProperty i = some p → Hangs st p.nextProperty tree → Pending st stack k →
      Pending st (i :: stack) (tree.listing.length + k + 1)

variable {i j dir : BitVec 32} {e' : Enumerator} {elements : List StgProperty}
  {currentProperty : StgProperty} {k : ℕ}

theorem Reaches.trans (h : Reaches st dir i) (h' : Reaches st i j) : Reaches st dir j := by
  induction h with
  | here => exact h'
  | previous hread _ ih => exact .previous hread (ih h')
  | next hread _ ih => exact .next hread (ih h')

theorem push_stack {node : BitVec 32} (h : e.push node = .ok e') :
    e'.stackToVisit = node :: e.stackToVisit := by
  unfold Enumerator.push at h
  dsimp only at h
  split at h
  all_goals
    split at h
    · obtain rfl := Except.ok.inj h
      rfl
    · cases h

/-- What is pushed hangs on the index, if it comes to an end. -/
theorem hangs_of_push {calls : ℕ} (h : pushSearchNode st calls e index = .ok e') :
    (∀ k, Pending st e'.stackToVisit k → ∃ tree m, Hangs st index tree ∧
      Pending st e.stackToVisit m ∧ k = tree.listing.length + m) ∧
    ∀ i ∈ e'.stackToVisit, i ∈ e.stackToVisit ∨ i ≠ propertyNull ∧ Reaches st index i := by
  induction calls generalizing e index with
  | zero => cases h
  | succ calls ih =>
    rw [pushSearchNode] at h
    split at h
    · next hnull =>
      obtain rfl := Except.ok.inj h
      exact ⟨fun k hk => ⟨.leaf, k, hnull, hk, (Nat.zero_add k).symm⟩, fun i hi => .inl hi⟩
    · next hne =>
      cases hpush : e.push index with
      | error fault =>
        rw [hpush] at h
        cases h
      | ok e₁ =>
        rw [hpush] at h
        have hstack := push_stack hpush
        cases hread : st.readProperty index with
        | none =>
          rw [hread] at h
          change Except.ok e₁ = Except.ok e' at h
          obtain rfl := Except.ok.inj h
          rw [hstack]
          refine ⟨fun k hk => ?_, fun i hi => ?_⟩
          · cases hk with
            | cons hsome => rw [hread] at hsome; cases hsome
          · rcases List.mem_cons.mp hi with rfl | hi
            · exact .inr ⟨hne, .here i⟩
            · exact .inl hi
        | some rootProperty =>
          rw [hread] at h
          change (if rootProperty.sizeOfNameString = 0 then .error .assertion
            else pushSearchNode st calls e₁ rootProperty.previousProperty) = Except.ok e' at h
          split at h
          · cases h
          · next hname =>
            obtain ⟨htrees, hreach⟩ := ih h
            rw [hstack] at htrees hreach
            refine ⟨fun k hk => ?_, fun i hi => ?_⟩
            · obtain ⟨previous, m, hprevious, hm, rfl⟩ := htrees k hk
              cases hm with
              | cons hread' hnext hrest =>
                rw [hread] at hread'
                obtain rfl := Option.some.inj hread'
                refine ⟨.node previous rootProperty _, _, ⟨hne, hread, hname, hprevious, hnext⟩, hrest, ?_⟩
                rw [PropertyTree.listing, List.length_append, List.length_cons]
                omega
            · rcases hreach i hi with hi | ⟨hnull, hfrom⟩
              · rcases List.mem_cons.mp hi with rfl | hi
                · exact .inr ⟨hne, .here i⟩
                · exact .inl hi
              · exact .inr ⟨hnull, .previous hread hfrom⟩

theorem drain_cases (h : drain st calls currentProperty (n + 1) e = .ok elements) :
    e.top = propertyNull ∧ elements = [] ∨ e.top ≠ propertyNull ∧ ∃ e' rest,
      pushSearchNode st calls e.pop ((st.readProperty e.top).getD currentProperty).nextProperty =
        .ok e' ∧
      drain st calls currentProperty n e' = .ok rest ∧ elements.length = rest.length + 1 := by
  rw [drain, next, if_neg (by decide)] at h
  change ((walk st calls 1 e currentProperty >>= fun r => _) >>= fun r => _) = _ at h
  rw [walk] at h
  split at h
  · next htop => exact .inl ⟨htop, (Except.ok.inj h).symm⟩
  · next htop =>
    refine .inr ⟨htop, ?_⟩
    dsimp only at h
    cases hpush : pushSearchNode st calls e.pop
        ((st.readProperty e.top).getD currentProperty).nextProperty with
    | error fault =>
      rw [hpush] at h
      cases h
    | ok e' =>
      rw [hpush] at h
      change (drain st calls currentProperty n e' >>= fun rest =>
        .ok ((st.readProperty e.top).getD currentProperty :: rest)) = _ at h
      cases hrest : drain st calls currentProperty n e' with
      | error fault =>
        rw [hrest] at h
        cases h
      | ok rest =>
        rw [hrest] at h
        obtain rfl := Except.ok.inj h
        exact ⟨e', rest, rfl, hrest, rfl⟩

/-- The calls that have ended have gone through trees. -/
theorem pending_of_drain
    (hread : ∀ i, Reaches st dir i → i ≠ propertyNull → st.readProperty i ≠ none)
    (hstack : ∀ i ∈ e.stackToVisit, i ≠ propertyNull ∧ Reaches st dir i)
    (h : drain st calls currentProperty n e = .ok elements) :
    Pending st e.stackToVisit elements.length ∧ elements.length < n := by
  induction n generalizing e elements with
  | zero => cases h
  | succ n ih =>
    rcases drain_cases h with ⟨htop, rfl⟩ | ⟨htop, e', rest, hpush, hrest, hlen⟩
    · refine ⟨?_, Nat.succ_pos n⟩
      obtain ⟨first, stack, size⟩ := e
      cases stack with
      | nil => exact .nil
      | cons i stack => exact absurd htop (hstack i List.mem_cons_self).1
    · obtain ⟨htrees, hreach⟩ := hangs_of_push hpush
      obtain ⟨first, stack, size⟩ := e
      cases stack with
      | nil => exact absurd rfl htop
      | cons i stack =>
        obtain ⟨hnull, hfrom⟩ := hstack i List.mem_cons_self
        obtain ⟨p, hp⟩ := Option.ne_none_iff_exists'.mp (hread i hfrom hnull)
        change ∀ k, Pending st e'.stackToVisit k → ∃ tree m,
          Hangs st ((st.readProperty i).getD currentProperty).nextProperty tree ∧ Pending st stack m ∧
          k = tree.listing.length + m at htrees
        change ∀ j ∈ e'.stackToVisit, j ∈ stack ∨ j ≠ propertyNull ∧
          Reaches st ((st.readProperty i).getD currentProperty).nextProperty j at hreach
        rw [hp, Option.getD_some] at htrees hreach
        have hstack' : ∀ j ∈ e'.stackToVisit, j ≠ propertyNull ∧ Reaches st dir j := by
          intro j hj
          rcases hreach j hj with hj | ⟨hjnull, hjfrom⟩
          · exact hstack j (List.mem_cons_of_mem i hj)
          · exact ⟨hjnull, hfrom.trans (.next hp hjfrom)⟩
        obtain ⟨hpending, hlt⟩ := ih hstack' hrest
        obtain ⟨tree, m, htree, hm, hsum⟩ := htrees _ hpending
        refine ⟨?_, by omega⟩
        rw [hlen, hsum]
        exact .cons hp htree hm

/-- Where what the links lead to can be read, an enumeration that ends has gone through a tree. -/
theorem isTree_of_ends (hread : Readable st first) (h : EnumerationEnds st first currentProperty) :
    IsTree st first := by
  intro root hroot
  obtain ⟨e, elements, hconstruct, hdrain, hle⟩ := h
  unfold constructEnumerator reset at hconstruct
  dsimp only at hconstruct
  rw [hroot] at hconstruct
  dsimp only at hconstruct
  split at hconstruct
  · cases hconstruct
  · next hname =>
    obtain ⟨htrees, hreach⟩ := hangs_of_push hconstruct
    obtain ⟨hpending, -⟩ := pending_of_drain (hread root hroot)
      (fun i hi => (hreach i hi).resolve_left List.not_mem_nil) hdrain
    obtain ⟨tree, m, htree, hm, hsum⟩ := htrees _ hpending
    exact ⟨hname, tree, htree, by omega⟩

theorem selfLinked_beyond (i : ℕ) (hi : 8 ≤ i) : (if i < 8 then some i else none) = none :=
  if_neg (Nat.not_lt.mpr hi)

/-- Eight blocks, each with a link to itself. -/
def selfLinked : Table := ⟨fun i => if i < 8 then some i else none, 8, selfLinked_beyond, by decide⟩

end Wine.Ole32.Chains
