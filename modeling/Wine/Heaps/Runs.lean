import Wine.Heaps.Honest
import Wine.Lib.Runs

/-!
# Programs on a heap

A program allocates, reallocates and frees blocks and writes into those that it has. Beside the heap
stands the size that each block was last asked for, which is what the program may rely on; the heap
itself only clears and copies by the sizes of its arenas.
-/

namespace Wine.Heaps
open Wine.Lib Reading

inductive HeapCall where
  | allocate (e : Outcomes) (flags : CallFlags) (size : ℕ)
  | reAllocate (e : Outcomes) (flags : CallFlags) (ptr size : ℕ)
  | free (e : Outcomes) (ptr : ℕ)
  | write (ptr offset : ℕ) (value : BitVec 8)

/-- A heap, and the size that the block at a pointer was asked for. -/
structure Program where
  heap : Heap
  asked : ℕ → Option ℕ

namespace Program

variable (u : Program)

/-- A block that is returned takes the place of the one at `old`; there is no block at `0`. -/
def answer (old size : ℕ) : Answer × Heap → Except Unit Program
  | (.block ptr, h) =>
    .ok ⟨h, fun i => if i = ptr then some size else if i = old then none else u.asked i⟩
  | (.null, h) => .ok ⟨h, u.asked⟩
  | (.raised, h) => .ok ⟨h, u.asked⟩
  | (.wild, _) => .error ()

def step : HeapCall → Except Unit Program
  | .allocate e flags size => u.answer 0 size (u.heap.rtlAllocateHeap e flags size)
  | .reAllocate e flags ptr size => u.answer ptr size (u.heap.rtlReAllocateHeap e flags ptr size)
  | .free e ptr =>
    .ok ⟨(u.heap.rtlFreeHeap e ptr).2, fun i => if i = ptr then none else u.asked i⟩
  | .write ptr offset value =>
    .ok ⟨{ u.heap with mem := store u.heap.mem (ptr + offset) [value] }, u.asked⟩

/-- The program passes and writes its own blocks only, and a range that is reserved is free memory. -/
def Legal : HeapCall → Prop
  | .allocate e _ size =>
    ∀ a, e.reserve = some a → Fresh u.heap a (newTotalSize (roundedSize size))
  | .reAllocate e _ ptr size => (∃ s, u.asked ptr = some s) ∧ size < sizeLimit ∧
    ∀ a, e.reserve = some a → Fresh u.heap a (newTotalSize (roundedSize size))
  | .free _ ptr => ∃ s, u.asked ptr = some s
  | .write ptr offset _ => ∃ s, u.asked ptr = some s ∧ offset < s

end Program

/-- The calls that are answered honestly. -/
def Heap.Sound (h : Heap) : HeapCall → Prop
  | .allocate e _ size => size ≤ maxRequest ∨ h.Refuses e (roundedSize size)
  | .reAllocate e flags ptr size =>
    size ≤ maxRequest ∧ ¬ (h.GrowthFails e (ptr - 8) (roundedSize size) ∧ h.GoesOn (ptr - 8)) ∨
      maxRequest < size ∧ size ≤ 0xfffffff8 ∧ (flags.reallocInPlaceOnly = true ∨
        h.flags.reallocInPlaceOnly = true ∨ h.Refuses e (roundedSize size))
  | .free _ _ => True
  | .write _ _ _ => True

/-- The size is below 2 GB, and memory can be committed. -/
def Modest : HeapCall → Prop
  | .allocate e _ size => size < 0x80000000 ∧ e.commit = true
  | .reAllocate e _ _ size => size < 0x80000000 ∧ e.commit = true
  | .free _ _ => True
  | .write _ _ _ => True

/-- What a reallocation from `s` to `size` bytes that clears memory is for. -/
def ZeroGrown (m m' : Memory) (ptr ptr' s size : ℕ) : Prop :=
  (∀ i < s, m' (ptr' + i) = m (ptr + i)) ∧ ∀ i, s ≤ i → i < size → m' (ptr' + i) = 0

/-- The bytes of the block that lie behind the `s` bytes that it was asked for are zero, as far as the
new size reaches. -/
def Heap.SlackClear (h : Heap) (ptr s size : ℕ) : Prop :=
  ∀ i, s ≤ i → i < size → i < sizeOf (word h.mem (ptr - 8)) → h.mem (ptr + i) = 0

variable {h h' : Heap} {ts ts' ts₁ ts₂ : List Tile} {s : SubHeap} {xs ys : List Piece} {m : Memory}
  {e : Outcomes} {flags : CallFlags} {u u' : Program} {call : HeapCall} {calls : List HeapCall}
  {a p q n k old ptr ptr' size asked : ℕ} {zero : Bool}

theorem sound_of_modest (hmodest : Modest call) : h.Sound call := by
  have hmax : maxRequest = 0xfffeffd0 := rfl
  cases call with
  | allocate e flags size =>
    left
    have hsize := hmodest.1
    omega
  | reAllocate e flags ptr size =>
    left
    obtain ⟨hsize, hcommit⟩ := hmodest
    refine ⟨by omega, ?_⟩
    rintro ⟨⟨-, s, -, -, -, hno⟩, -⟩
    rw [hcommit] at hno
    cases hno
  | free e ptr => trivial
  | write ptr offset value => trivial

/-- A grown block is as it should be when the slack of the old one was clear. -/
theorem ReAllocated.zeroGrown_iff (R : ReAllocated h ts p n true size h' ts' q k)
    (hdata : sizeOf (word h.mem p) = n - 8) (hasked : asked + 8 ≤ n) (hgrow : asked < size) :
    ZeroGrown h.mem h'.mem (p + 8) (q + 8) asked size ↔ h.SlackClear (p + 8) asked size := by
  have hroom := R.room
  constructor
  · rintro ⟨-, hclear⟩ i hi hi' hin
    rw [Nat.add_sub_cancel, hdata] at hin
    rw [← R.kept i hin (by omega)]
    exact hclear i hi hi'
  · intro hslack
    refine ⟨fun i hi => R.kept i (by omega) (by omega), ?_⟩
    intro i hi hi'
    by_cases hin : i < n - 8
    · rw [R.kept i hin (by omega)]
      exact hslack i hi hi' (by rwa [Nat.add_sub_cancel, hdata])
    · have hround := (roundedSize_spec R.toServes.le_maxRequest).1
      exact R.cleared rfl (by omega) i (by omega) (by omega)

namespace Tiled

theorem rtlFreeHeap (H : Tiled h ts) (hwhole : ∀ t ∈ ts, Whole t.2) (hused : UsedIn ts p n)
    (e : Outcomes) : ∃ ts', Tiled (h.rtlFreeHeap e (p + 8)).2 ts' ∧ (∀ t ∈ ts', Whole t.2) ∧
      PreservesBut p h ts (h.rtlFreeHeap e (p + 8)).2 ts' ∧ (Covered ts → Covered ts') := by
  obtain ⟨ts₁, s, xs, ys, ts₂, rfl, hp⟩ := hused.split
  have hs := H.blockSubHeap hp (hwhole _ Arranged.tile_mem)
  have hzero : p + 8 ≠ 0 := Nat.succ_ne_zero _
  simp only [Heap.rtlFreeHeap, arenaInuseSize, Nat.add_sub_cancel, if_neg hzero, hs]
  exact H.makeInUseBlockFree hp hwhole e

/-- A sound reallocation fails, with every block where it was, or it returns the block. -/
theorem sound_reAlloc (H : Tiled h ts) (hwhole : ∀ t ∈ ts, Whole t.2) (hused : UsedIn ts p n)
    (hfresh : ∀ a, e.reserve = some a → Fresh h a (newTotalSize (roundedSize size)))
    (hsound : h.Sound (.reAllocate e flags (p + 8) size)) :
    ((h.rtlReAllocateHeap e flags (p + 8) size).1.Failed ∧
        ∃ ts', Tiled (h.rtlReAllocateHeap e flags (p + 8) size).2 ts' ∧ (∀ t ∈ ts', Whole t.2) ∧
          (∀ r j, UsedIn ts r j → ∃ j', j ≤ j' ∧ UsedIn ts' r j') ∧
          (e.commit = true → (h.rtlReAllocateHeap e flags (p + 8) size).2 = h ∧ ts' = ts)) ∨
      ∃ q k h' ts', h.rtlReAllocateHeap e flags (p + 8) size = (.block (q + 8), h') ∧
        ReAllocated h ts p n (flags.zeroMemory || h.flags.zeroMemory) size h' ts' q k := by
  have hsame : (h.rtlReAllocateHeap e flags (p + 8) size).2 = h →
      ∃ ts', Tiled (h.rtlReAllocateHeap e flags (p + 8) size).2 ts' ∧ (∀ t ∈ ts', Whole t.2) ∧
        (∀ r j, UsedIn ts r j → ∃ j', j ≤ j' ∧ UsedIn ts' r j') ∧
        (e.commit = true → (h.rtlReAllocateHeap e flags (p + 8) size).2 = h ∧ ts' = ts) := by
    intro heq
    rw [heq]
    exact ⟨ts, H, hwhole, fun r j hr => ⟨j, Nat.le_refl j, hr⟩, fun _ => ⟨rfl, rfl⟩⟩
  simp only [Heap.Sound, Nat.add_sub_cancel] at hsound
  rcases hsound with ⟨hsize, hend⟩ | ⟨hlarge, hle, hrefuses⟩
  · rcases H.rtlReAllocateHeap hwhole hused hsize hfresh flags with ⟨hf, heq | hfails⟩ | hR
    · exact .inl ⟨hf, hsame heq⟩
    · left
      refine ⟨hf, ?_⟩
      obtain ⟨ts₁, s, xs, k, zs, ts₂, rfl, hp, hcall⟩ :=
        H.rtlReAllocateHeap_of_growthFails flags hwhole hused hfails
      rw [hcall]
      have hlast : zs = [] := by
        by_contra hne
        obtain ⟨c, zs, rfl⟩ := List.exists_cons_of_ne_nil hne
        have hc := (behind_next H.toArranged hwhole hp).1
        apply hend ⟨hfails, (goesOn_iff H.toArranged hp).mpr ?_⟩
        rw [totalOf_cons]
        omega
      subst hlast
      obtain ⟨hT, hwhole'⟩ := H.takeNext_last hwhole hp
      refine ⟨_, hT, hwhole', fun r j hr => ?_, fun hcommit => ?_⟩
      swap
      · obtain ⟨-, s', -, -, -, hno⟩ := hfails
        rw [hcommit] at hno
        cases hno
      rw [usedIn_middle, usedOf_append] at hr
      rcases hr with hr | hr
      · exact ⟨j, Nat.le_refl j, usedIn_middle.mpr (.inl hr)⟩
      · rcases List.mem_append.mp hr with hr | hr
        · refine ⟨j, Nat.le_refl j, usedIn_middle.mpr (.inr ?_)⟩
          rw [usedOf_append]
          exact List.mem_append_left _ hr
        · obtain ⟨rfl, rfl⟩ := Prod.mk.inj (List.mem_singleton.mp hr)
          exact ⟨j + k, Nat.le_add_right j k, usedIn_place rfl⟩
    · exact .inr hR
  · left
    obtain ⟨s, hcall⟩ := H.rtlReAllocateHeap_eq_moveBlock hwhole hused hlarge hle e flags
    have hf : (h.rtlReAllocateHeap e flags (p + 8) size).1.Failed := by
      rw [hcall, failed_moveBlock_iff, Bool.or_eq_true, or_assoc,
        H.findFreeBlock_eq_none_iff (heapMinDataSize_le_roundedSize size)]
      exact hrefuses
    refine ⟨hf, hsame ?_⟩
    rw [hcall] at hf ⊢
    exact failed_moveBlock hf

end Tiled

/-- The blocks of a program are in use, each with room for what it was asked for. -/
structure Tracks (u : Program) (ts : List Tile) : Prop where
  tiled : Tiled u.heap ts
  whole : ∀ t ∈ ts, Whole t.2
  live : ∀ ptr s, u.asked ptr = some s → ∃ p n, ptr = p + 8 ∧ UsedIn ts p n ∧ s + 8 ≤ n

/-- What is needed of the memory is committed, and the headers of the blocks say what was asked for.
-/
structure Snug (u : Program) (ts : List Tile) : Prop where
  covered : Covered ts
  unused : ∀ p n s, u.asked (p + 8) = some s → UsedIn ts p n →
    load u.heap.mem (p + 7) 1 = n - 8 - s

/-- The call is about the block at `ptr`. -/
def HeapCall.About : HeapCall → ℕ → Prop
  | .allocate _ _ _, _ => False
  | .reAllocate _ _ old _, ptr => ptr = old
  | .free _ old, ptr => ptr = old
  | .write old _ _, ptr => ptr = old

/-- The program still has the blocks that the call is not about, with the contents they had. -/
def Program.Keeps (u : Program) (call : HeapCall) (u' : Program) : Prop :=
  ∀ ptr s, u.asked ptr = some s → ¬ call.About ptr →
    u'.asked ptr = some s ∧ ∀ i < s, u'.heap.mem (ptr + i) = u.heap.mem (ptr + i)

/-- What a call leads to. -/
structure Stepped (u : Program) (ts : List Tile) (call : HeapCall) (u' : Program)
    (ts' : List Tile) : Prop where
  tracks : Tracks u' ts'
  snug : Modest call → Snug u ts → Snug u' ts'
  keeps : Modest call → u.Keeps call u'

/-- The blocks in use but for the one at `old` are as they were. -/
structure KeepsBut (old : ℕ) (u : Program) (ts : List Tile) (h : Heap) (ts' : List Tile) : Prop where
  used : ∀ r j, r + 8 ≠ old → UsedIn ts r j → UsedIn ts' r j
  data : ∀ r j, r + 8 ≠ old → UsedIn ts r j → ∀ i, r + 4 ≤ i → i < r + j → h.mem i = u.heap.mem i

theorem Preserves.keepsBut (hp : Preserves u.heap ts h ts') (old : ℕ) : KeepsBut old u ts h ts' :=
  ⟨fun r j _ => hp.used r j, fun r j _ => hp.data r j⟩

theorem PreservesBut.keepsBut (hp : PreservesBut p u.heap ts h ts') :
    KeepsBut (p + 8) u ts h ts' :=
  ⟨fun r j hne => hp.used r j (by omega), fun r j hne => hp.data r j (by omega)⟩

theorem Arranged.usedIn_unique (H : Arranged h ts) (hn : UsedIn ts p n) (hk : UsedIn ts p k) :
    n = k := by
  obtain ⟨hn', hn24⟩ := H.sizeOf_used hn
  obtain ⟨hk', hk24⟩ := H.sizeOf_used hk
  omega

namespace Tracks

theorem init (H : Tiled h ts) (hwhole : ∀ t ∈ ts, Whole t.2) : Tracks ⟨h, fun _ => none⟩ ts :=
  ⟨H, hwhole, fun _ _ hs => by cases hs⟩

/-- A call that returns no block may only leave blocks larger. -/
theorem no_block (I : Tracks u ts) (H : Tiled h ts') (hwhole : ∀ t ∈ ts', Whole t.2)
    (hused : ∀ r j, UsedIn ts r j → ∃ j', j ≤ j' ∧ UsedIn ts' r j') : Tracks ⟨h, u.asked⟩ ts' := by
  refine ⟨H, hwhole, ?_⟩
  intro ptr s hs
  obtain ⟨p, n, rfl, hp, hroom⟩ := I.live ptr s hs
  obtain ⟨n', hle, hp'⟩ := hused p n hp
  exact ⟨p, n', rfl, hp', Nat.le_trans hroom hle⟩

theorem unchanged (I : Tracks u ts) : Stepped u ts call u ts :=
  ⟨I, fun _ S => S, fun _ _ _ hs _ => ⟨hs, fun _ _ => rfl⟩⟩

/-- What a block that the program keeps looks like afterwards. -/
theorem kept (I : Tracks u ts) (K : KeepsBut old u ts h ts') {ptr s : ℕ}
    (hs : u.asked ptr = some s) (hne : ptr ≠ old) :
    ∃ p n, ptr = p + 8 ∧ UsedIn ts p n ∧ UsedIn ts' p n ∧ s + 8 ≤ n ∧
      load h.mem (p + 7) 1 = load u.heap.mem (p + 7) 1 ∧
      ∀ i < s, h.mem (ptr + i) = u.heap.mem (ptr + i) := by
  obtain ⟨p, n, rfl, hp, hroom⟩ := I.live ptr s hs
  have hn := (I.tiled.sizeOf_used hp).2
  refine ⟨p, n, rfl, hp, K.used p n hne hp, hroom, ?_, ?_⟩
  · exact load_congr fun i hi hi' => K.data p n hne hp i (by omega) (by omega)
  · exact fun i hi => K.data p n hne hp (p + 8 + i) (by omega) (by omega)

/-- A block that is returned is tracked; the one at `old` is no more. -/
theorem block (I : Tracks u ts) (S : Serves h ts' q k size) (K : KeepsBut old u ts h ts')
    (hnew : ∀ r j, r + 8 ≠ old → UsedIn ts r j → r ≠ q)
    (hunused : load h.mem (q + 7) 1 = k - 8 - size) (hcov : Covered ts → Covered ts')
    (habout : ∀ ptr, ¬ call.About ptr → ptr = old → u.asked ptr = none) :
    Stepped u ts call
      ⟨h, fun i => if i = q + 8 then some size else if i = old then none else u.asked i⟩ ts' := by
  refine ⟨⟨S.tiled, S.whole, ?_⟩, fun _ N => ⟨hcov N.covered, ?_⟩, fun _ => ?_⟩
  · intro ptr s hs
    simp only at hs
    split at hs
    · next heq =>
      cases hs
      exact ⟨q, k, heq, S.used, S.room⟩
    · split at hs
      · cases hs
      · next hold =>
        obtain ⟨p, n, rfl, -, hp, hroom, -⟩ := I.kept K hs hold
        exact ⟨p, n, rfl, hp, hroom⟩
  · intro p n s hs hp
    simp only at hs
    split at hs
    · next heq =>
      obtain rfl : p = q := by omega
      cases hs
      rw [S.tiled.usedIn_unique hp S.used]
      exact hunused
    · split at hs
      · cases hs
      · next hold =>
        obtain ⟨p', n', heq, hp₀, hp', -, hload, -⟩ := I.kept K hs hold
        obtain rfl : p = p' := by omega
        rw [S.tiled.usedIn_unique hp hp', ← N.unused p n' s hs hp₀]
        exact hload
  · intro ptr s hs hno
    have hold : ptr ≠ old := by
      intro heq
      rw [habout ptr hno heq] at hs
      cases hs
    obtain ⟨p, n, rfl, hp, -, -, -, hdata⟩ := I.kept K hs hold
    have hne := hnew p n hold hp
    exact ⟨(if_neg (by omega)).trans ((if_neg hold).trans hs), hdata⟩

theorem of_failed {r : Answer × Heap} (hf : r.1.Failed) :
    u.answer old size r = .ok ⟨r.2, u.asked⟩ := by
  obtain ⟨answer, h⟩ := r
  rcases hf with hf | hf <;>
  · simp only at hf
    subst hf
    rfl

theorem step_allocate (I : Tracks u ts) (hlegal : u.Legal (.allocate e flags size))
    (hsound : u.heap.Sound (.allocate e flags size)) :
    ∃ u' ts', u.step (.allocate e flags size) = .ok u' ∧
      Stepped u ts (.allocate e flags size) u' ts' := by
  rw [Program.step]
  by_cases hf : (u.heap.rtlAllocateHeap e flags size).1.Failed
  · rw [of_failed hf, rtlAllocateHeap_of_failed hf]
    exact ⟨_, ts, rfl, I.unchanged⟩
  · have hsize : size ≤ maxRequest := by
      rcases hsound with hsize | hrefuses
      · exact hsize
      · rw [← I.tiled.findFreeBlock_eq_none_iff (heapMinDataSize_le_roundedSize size),
          ← failed_rtlAllocateHeap_iff] at hrefuses
        exact absurd hrefuses hf
    rcases I.tiled.rtlAllocateHeap I.whole hsize hlegal flags with
      hno | ⟨p, n, ts', hr, S, hpres, hnew, hcov, hunused⟩
    · exact absurd hno.1 hf
    · rw [← Prod.eta (u.heap.rtlAllocateHeap e flags size), hr]
      refine ⟨_, ts', rfl, I.block S (hpres.keepsBut 0) (fun r j _ => hnew r j) hunused hcov ?_⟩
      rintro ptr - rfl
      by_contra hsome
      obtain ⟨s, hs⟩ := Option.ne_none_iff_exists'.mp hsome
      obtain ⟨p, n, heq, -⟩ := I.live 0 s hs
      omega

theorem step_reAllocate (I : Tracks u ts) (hlegal : u.Legal (.reAllocate e flags ptr size))
    (hsound : u.heap.Sound (.reAllocate e flags ptr size)) :
    ∃ u' ts', u.step (.reAllocate e flags ptr size) = .ok u' ∧
      Stepped u ts (.reAllocate e flags ptr size) u' ts' := by
  obtain ⟨⟨s, hs⟩, -, hfresh⟩ := hlegal
  obtain ⟨p, n, rfl, hp, -⟩ := I.live ptr s hs
  rw [Program.step]
  rcases I.tiled.sound_reAlloc I.whole hp hfresh hsound with
    ⟨hf, ts', H, hwhole, hused, hsame⟩ | ⟨q, k, h', ts', heq, R⟩
  · rw [of_failed hf]
    refine ⟨_, ts', rfl, I.no_block H hwhole hused, fun hmodest S => ?_, fun hmodest => ?_⟩
    · obtain ⟨heq, rfl⟩ := hsame hmodest.2
      rw [heq]
      exact S
    · obtain ⟨heq, rfl⟩ := hsame hmodest.2
      rw [heq]
      exact fun _ _ hs' _ => ⟨hs', fun _ _ => rfl⟩
  · rw [heq]
    refine ⟨_, ts', rfl, I.block R.toServes R.others.keepsBut ?_ R.unused R.covered ?_⟩
    · exact fun r j hne => R.new r j (by omega)
    · exact fun ptr hno heq => absurd heq hno

theorem step_free (I : Tracks u ts) (hlegal : u.Legal (.free e ptr)) :
    ∃ u' ts', u.step (.free e ptr) = .ok u' ∧ Stepped u ts (.free e ptr) u' ts' := by
  obtain ⟨s, hs⟩ := hlegal
  obtain ⟨p, n, rfl, hp, -⟩ := I.live ptr s hs
  obtain ⟨ts', H, hwhole, hbut, hcov⟩ := I.tiled.rtlFreeHeap I.whole hp e
  have K := hbut.keepsBut
  refine ⟨_, ts', rfl, ⟨H, hwhole, ?_⟩, fun _ N => ⟨hcov N.covered, ?_⟩, fun _ => ?_⟩
  · intro i s' hi
    simp only at hi
    split at hi
    · cases hi
    · next hne =>
      obtain ⟨r, j, rfl, -, hr, hroom, -⟩ := I.kept K hi hne
      exact ⟨r, j, rfl, hr, hroom⟩
  · intro r j s' hi hr
    simp only at hi
    split at hi
    · cases hi
    · next hne =>
      obtain ⟨r', j', heq, hr₀, hr', -, hload, -⟩ := I.kept K hi hne
      obtain rfl : r = r' := by omega
      rw [H.usedIn_unique hr hr', ← N.unused r j' s' hi hr₀]
      exact hload
  · intro i s' hi hno
    obtain ⟨r, j, -, -, -, -, -, hdata⟩ := I.kept K hi hno
    exact ⟨(if_neg hno).trans hi, hdata⟩

theorem step_write {offset : ℕ} {value : BitVec 8} (I : Tracks u ts)
    (hlegal : u.Legal (.write ptr offset value)) :
    ∃ u' ts', u.step (.write ptr offset value) = .ok u' ∧
      Stepped u ts (.write ptr offset value) u' ts' := by
  obtain ⟨s, hs, hin⟩ := hlegal
  obtain ⟨p, n, rfl, hp, hroom⟩ := I.live ptr s hs
  have hout : ∀ i, i < p + 8 ∨ p + n ≤ i → store u.heap.mem (p + 8 + offset) [value] i =
      u.heap.mem i := by
    intro i hi
    apply store_of_not_mem
    rw [List.length_singleton]
    omega
  obtain ⟨H, hbut⟩ := I.tiled.write_used_spec hp fun i hi => hout i (by omega)
  refine ⟨_, ts, rfl, ⟨H, I.whole, I.live⟩, fun _ N => ⟨N.covered, ?_⟩, fun _ => ?_⟩
  · intro r j s' hi hr
    rw [← N.unused r j s' hi hr]
    have hj := (I.tiled.sizeOf_used hr).2
    by_cases hne : r = p
    · subst hne
      exact load_congr fun i _ _ => hout i (by omega)
    · exact load_congr fun i _ _ => hbut.data r j hne hr i (by omega) (by omega)
  · intro i s' hi hno
    obtain ⟨r, j, -, -, -, -, -, hdata⟩ := I.kept hbut.keepsBut hi hno
    exact ⟨hi, hdata⟩

/-- A legal and sound call is answered, and the program's blocks stay tracked. -/
theorem step (I : Tracks u ts) (hlegal : u.Legal call) (hsound : u.heap.Sound call) :
    ∃ u' ts', u.step call = .ok u' ∧ Stepped u ts call u' ts' := by
  cases call with
  | allocate e flags size => exact I.step_allocate hlegal hsound
  | reAllocate e flags ptr size => exact I.step_reAllocate hlegal hsound
  | free e ptr => exact I.step_free hlegal
  | write ptr offset value => exact I.step_write hlegal

end Tracks

/-- Every state that legal and sound calls lead to from a consistent heap is tracked. -/
theorem tracks_of_run (H : Tiled h ts) (hwhole : ∀ t ∈ ts, Whole t.2)
    (hrun : Run Program.step (fun u call => u.Legal call ∧ u.heap.Sound call) ⟨h, fun _ => none⟩ calls
      u) : ∃ ts', Tracks u ts' := by
  apply hrun.invariant (I := fun u => ∃ ts', Tracks u ts')
  · exact ⟨ts, Tracks.init H hwhole⟩
  · rintro u call u' ⟨ts', I⟩ ⟨hlegal, hsound⟩ hstep
    obtain ⟨u'', ts'', heq, hstepped⟩ := I.step hlegal hsound
    obtain rfl := Except.ok.inj (hstep.symm.trans heq)
    exact ⟨ts'', hstepped.tracks⟩

/-- For every run of a program from a consistent heap, and the growing reallocation of one of its
blocks that clears memory and succeeds: what the caller asked for is kept and what it asks for more is
zero exactly when the bytes behind what it asked for were zero before. -/
theorem zeroing_reAlloc_iff (H : Tiled h ts) (hwhole : ∀ t ∈ ts, Whole t.2)
    (hrun : Run Program.step (fun u call => u.Legal call ∧ u.heap.Sound call) ⟨h, fun _ => none⟩ calls
      u)
    (hlegal : u.Legal (.reAllocate e flags ptr size))
    (hsound : u.heap.Sound (.reAllocate e flags ptr size)) (hasked : u.asked ptr = some asked)
    (hgrow : asked < size) (hzero : (flags.zeroMemory || u.heap.flags.zeroMemory) = true)
    (hblock : u.heap.rtlReAllocateHeap e flags ptr size = (.block ptr', h')) :
    ZeroGrown u.heap.mem h'.mem ptr ptr' asked size ↔ u.heap.SlackClear ptr asked size := by
  obtain ⟨ts', I⟩ := tracks_of_run H hwhole hrun
  obtain ⟨p, n, rfl, hp, hroom⟩ := I.live ptr asked hasked
  rcases I.tiled.sound_reAlloc I.whole hp hlegal.2.2 hsound with
    ⟨hf, -⟩ | ⟨q, k, h'', ts'', heq, R⟩
  · rw [hblock] at hf
    rcases hf with hf | hf <;> cases hf
  · rw [hblock] at heq
    obtain ⟨hanswer, rfl⟩ := Prod.mk.inj heq
    obtain rfl := Answer.block.inj hanswer
    rw [hzero] at R
    exact R.zeroGrown_iff (I.tiled.sizeOf_used hp).1 hroom hgrow

/-- Memory can be committed, and no sub-heap is made. -/
def sampleOutcomes : Outcomes := ⟨true, none, false, false⟩

theorem sound_sampleOutcomes (h : Heap) (hsize : size ≤ maxRequest) :
    h.Sound (.reAllocate sampleOutcomes flags ptr size) := by
  refine .inl ⟨hsize, ?_⟩
  rintro ⟨⟨-, s, -, -, -, hcommit⟩, -⟩
  cases hcommit

/-- A block in the sample heap that was asked for 16 bytes, and of these the fifth written. -/
theorem exists_writtenRun : ∃ calls u p n ts,
    Run Program.step (fun u call => u.Legal call ∧ u.heap.Sound call) ⟨sampleHeap, fun _ => none⟩
      calls u ∧ u.asked (p + 8) = some 16 ∧ Serves u.heap ts p n 16 ∧
      u.heap.mem (p + 8 + 4) = 0xff := by
  rcases tiled_sampleHeap.rtlAllocateHeap (e := sampleOutcomes) whole_sampleHeap
    (show 16 ≤ maxRequest by decide) (fun _ ha => by cases ha) ⟨false, false, false⟩ with
    ⟨hf, -⟩ | ⟨p, n, ts, hr, S, -, -⟩
  · exact absurd hf (not_failed_sampleHeap (by decide) _)
  · generalize hcall : sampleHeap.rtlAllocateHeap sampleOutcomes ⟨false, false, false⟩ 16 = r at hr S
    obtain ⟨answer, h⟩ := r
    simp only at hr S
    subst hr
    have hlegal : (⟨sampleHeap, fun _ => none⟩ : Program).Legal
        (.allocate sampleOutcomes ⟨false, false, false⟩ 16) := fun _ ha => by cases ha
    have hsmall : 16 ≤ maxRequest := by decide
    have hstep : (⟨sampleHeap, fun _ => none⟩ : Program).step
        (.allocate sampleOutcomes ⟨false, false, false⟩ 16) =
          .ok ⟨h, fun i => if i = p + 8 then some 16 else if i = 0 then none else none⟩ := by
      rw [Program.step, hcall]
      rfl
    have hwrite : (⟨h, fun i => if i = p + 8 then some 16 else if i = 0 then none else none⟩ :
        Program).Legal (.write (p + 8) 4 0xff) := ⟨16, if_pos rfl, by decide⟩
    have hout : ∀ i, i < p + 7 ∨ p + n ≤ i → store h.mem (p + 8 + 4) [0xff] i = h.mem i := by
      intro i hi
      have hroom := S.room
      apply store_of_not_mem
      rw [List.length_singleton]
      omega
    have H := (S.tiled.write_used_spec S.used hout).1
    have hrun : Run Program.step (fun u call => u.Legal call ∧ u.heap.Sound call)
        ⟨sampleHeap, fun _ => none⟩ [.allocate sampleOutcomes ⟨false, false, false⟩ 16]
        ⟨h, fun i => if i = p + 8 then some 16 else if i = 0 then none else none⟩ :=
      .single (And.intro hlegal (Or.inl hsmall)) hstep
    refine ⟨_, _, p, n, ts, hrun.snoc (And.intro hwrite trivial) rfl, if_pos rfl,
      ⟨?_, S.whole, S.used, S.room⟩, ?_⟩
    · exact H
    · simp [store]

/-- A block that is shrunk to four bytes and grown to eight: the fifth has stayed. -/
theorem exists_slackRun : ∃ calls u ptr ptr' h',
    Run Program.step (fun u call => u.Legal call ∧ u.heap.Sound call) ⟨sampleHeap, fun _ => none⟩
      calls u ∧ u.Legal (.reAllocate sampleOutcomes ⟨false, true, false⟩ ptr 8) ∧
      u.asked ptr = some 4 ∧
      u.heap.rtlReAllocateHeap sampleOutcomes ⟨false, true, false⟩ ptr 8 = (.block ptr', h') ∧
      h'.mem (ptr' + 4) = 0xff := by
  obtain ⟨calls, u, p, n, ts, hrun, hasked, S, hmem⟩ := exists_writtenRun
  have hn := S.room
  have hround : roundedSize 4 = 16 := by decide
  have hround' : roundedSize 8 = 16 := by decide
  rcases S.tiled.rtlReAllocateHeap (e := sampleOutcomes) S.whole S.used
    (show 4 ≤ maxRequest by decide) (fun _ ha => by cases ha) ⟨false, false, false⟩ with
    ⟨hf, -⟩ | ⟨q, k, h, ts₁, hcall, R⟩
  · exact absurd hf (S.tiled.not_failed_of_le S.whole S.used (by omega) _ _)
  · have hk := (R.tiled.sizeOf_used R.used).2
    rcases R.tiled.rtlReAllocateHeap (e := sampleOutcomes) R.whole R.used
      (show 8 ≤ maxRequest by decide) (fun _ ha => by cases ha) ⟨false, true, false⟩ with
      ⟨hf, -⟩ | ⟨q', k', h', ts₂, hcall', R'⟩
    · exact absurd hf (R.tiled.not_failed_of_le R.whole R.used (by omega) _ _)
    · have hk' := (R'.tiled.sizeOf_used R'.used).2
      have hlegal : u.Legal (.reAllocate sampleOutcomes ⟨false, false, false⟩ (p + 8) 4) :=
        ⟨⟨16, hasked⟩, by decide, fun _ ha => by cases ha⟩
      have hsound : u.heap.Sound (.reAllocate sampleOutcomes ⟨false, false, false⟩ (p + 8) 4) :=
        sound_sampleOutcomes u.heap (by decide)
      have hstep : u.step (.reAllocate sampleOutcomes ⟨false, false, false⟩ (p + 8) 4) = .ok ⟨h,
          fun i => if i = q + 8 then some 4 else if i = p + 8 then none else u.asked i⟩ := by
        rw [Program.step, hcall]
        rfl
      have hrun' := hrun.snoc (And.intro hlegal hsound) hstep
      refine ⟨_, _, q + 8, q' + 8, h', hrun', ?_, if_pos rfl, hcall', ?_⟩
      · exact ⟨⟨4, if_pos rfl⟩, by decide, fun _ ha => by cases ha⟩
      · rw [R'.kept 4 (by omega) (by omega), R.kept 4 (by omega) (by omega), hmem]

theorem zeroing_reAlloc_sample : ∃ (u : Program) (ptr ptr' : ℕ) (h' : Heap),
    u.asked ptr = some 4 ∧
      (ZeroGrown u.heap.mem h'.mem ptr ptr' 4 8 ↔ u.heap.SlackClear ptr 4 8) := by
  obtain ⟨calls, u, ptr, ptr', h', hrun, hlegal, hasked, hcall, -⟩ := exists_slackRun
  exact ⟨u, ptr, ptr', h', hasked, zeroing_reAlloc_iff tiled_sampleHeap whole_sampleHeap hrun hlegal
    (sound_sampleOutcomes u.heap (by decide)) hasked (by decide) rfl hcall⟩

theorem not_zeroing_reAlloc : ¬ ∀ (h : Heap) (ts : List Tile) (calls : List HeapCall) (u : Program)
    (e : Outcomes) (flags : CallFlags) (ptr ptr' size asked : ℕ) (h' : Heap),
    Tiled h ts → (∀ t ∈ ts, Whole t.2) →
    Run Program.step (fun u call => u.Legal call ∧ u.heap.Sound call) ⟨h, fun _ => none⟩ calls u →
    u.Legal (.reAllocate e flags ptr size) → u.heap.Sound (.reAllocate e flags ptr size) →
    u.asked ptr = some asked → asked < size →
    (flags.zeroMemory || u.heap.flags.zeroMemory) = true →
    u.heap.rtlReAllocateHeap e flags ptr size = (.block ptr', h') →
    ZeroGrown u.heap.mem h'.mem ptr ptr' asked size := by
  intro hall
  obtain ⟨calls, u, ptr, ptr', h', hrun, hlegal, hasked, hcall, hmem⟩ := exists_slackRun
  have hgrown := hall _ _ calls u _ _ ptr ptr' 8 4 h' tiled_sampleHeap whole_sampleHeap hrun hlegal
    (sound_sampleOutcomes u.heap (by decide)) hasked (by decide) rfl hcall
  rw [hgrown.2 4 (Nat.le_refl 4) (by decide)] at hmem
  revert hmem
  decide

end Wine.Heaps
