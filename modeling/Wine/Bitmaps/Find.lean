import Wine.Bitmaps.Ranges

/-!
# Searching a bitmap from a hint

The search starts at the hint and, once it has come to the end of the bitmap, goes on from the start
to the hint. The sum of hint and count that tells whether the hint is too far is a 32 bit sum: a hint
that makes it wrap is taken as it is, and no position is tried when it lies behind the bitmap.
-/

namespace Wine.Bitmaps
open Wine.Lib

/-- `~0U` -/
def notFound : ℕ := ulongLimit - 1

/-- The loop of the searches. -/
def findFrom (test : ℕ → Bool) (ulPos ulEnd ulHint : ℕ) : ℕ :=
  if ulPos < ulEnd then
    if test ulPos then ulPos
    else if ulPos = ulEnd - 1 ∧ ulHint ≠ 0 then findFrom test 0 ulHint 0
    else findFrom test (ulPos + 1) ulEnd ulHint
  else notFound
termination_by (ulHint, ulEnd - ulPos)
decreasing_by
  · rename_i h
    exact Prod.Lex.left _ _ (Nat.pos_of_ne_zero h.2)
  · exact Prod.Lex.right _ (by omega)

/-- `RtlFindSetBits` and `RtlFindClearBits`, for the test that they make at each position. -/
def findBits (test : ℕ → Bool) (b : Bitmap) (ulCount ulHint : ℕ) : ℕ :=
  if ulCount = 0 ∨ b.sizeOfBitMap < ulCount then notFound
  else
    let hint := if b.sizeOfBitMap < (ulHint + ulCount) % ulongLimit then 0 else ulHint
    findFrom test hint b.sizeOfBitMap hint

def rtlFindSetBits (b : Bitmap) (ulCount ulHint : ℕ) : ℕ :=
  findBits (fun ulPos => rtlAreBitsSet b ulPos ulCount) b ulCount ulHint

def rtlFindClearBits (b : Bitmap) (ulCount ulHint : ℕ) : ℕ :=
  findBits (fun ulPos => rtlAreBitsClear b ulPos ulCount) b ulCount ulHint

def rtlFindSetBitsAndClear (b : Bitmap) (ulCount ulHint : ℕ) : ℕ × Bitmap :=
  let ulPos := rtlFindSetBits b ulCount ulHint
  (ulPos, if ulPos ≠ notFound then rtlClearBits b ulPos ulCount else b)

def rtlFindClearBitsAndSet (b : Bitmap) (ulCount ulHint : ℕ) : ℕ × Bitmap :=
  let ulPos := rtlFindClearBits b ulCount ulHint
  (ulPos, if ulPos ≠ notFound then rtlSetBits b ulPos ulCount else b)

variable {b : Bitmap} {p q e c n hint i : ℕ} {v : Bool}

/-- The loop returns a position that passes the test, or none of those it is meant to try does. -/
theorem findFrom_cases (test : ℕ → Bool) (q e hint : ℕ) :
    (∃ p, findFrom test q e hint = p ∧ test p = true) ∨
    findFrom test q e hint = notFound ∧ (∀ p, q ≤ p → p < e → test p = false) ∧
      (q < e → ∀ p < hint, test p = false) := by
  induction q, e, hint using findFrom.induct test with
  | case1 q e hint hq htest =>
    left
    refine ⟨q, ?_, htest⟩
    rw [findFrom, if_pos hq, if_pos htest]
  | case2 q e hint hq htest hwrap ih =>
    rw [findFrom, if_pos hq, if_neg htest, if_pos hwrap]
    refine ih.imp_right ?_
    rintro ⟨hnone, hstart, -⟩
    refine ⟨hnone, ?_, fun _ p hp => hstart p (Nat.zero_le p) hp⟩
    intro p hp hp'
    have heq : p = q := by omega
    rw [heq]
    exact Bool.eq_false_iff.mpr htest
  | case3 q e hint hq htest hwrap ih =>
    rw [findFrom, if_pos hq, if_neg htest, if_neg hwrap]
    refine ih.imp_right ?_
    clear ih
    rintro ⟨hnone, hrest, hback⟩
    refine ⟨hnone, ?_, ?_⟩
    · intro p hp hp'
      rcases Nat.eq_or_lt_of_le hp with rfl | hp
      · exact Bool.eq_false_iff.mpr htest
      · exact hrest p hp hp'
    · intro _ p hp
      exact hback (by omega) p hp
  | case4 q e hint hq =>
    right
    refine ⟨?_, fun p hp hp' => absurd (Nat.lt_of_le_of_lt hp hp') hq, fun h => absurd h hq⟩
    rw [findFrom, if_neg hq]

/-- A run of `count` bits equal to `v` starts at `p`. -/
def RunAt (v : Bool) (b : Bitmap) (count p : ℕ) : Prop :=
  Within b p count ∧ ∀ i, p ≤ i → i < p + count → b.bit i = v

theorem RunAt.ne_notFound (h : RunAt v b c p) : p ≠ notFound := by
  have hsize := b.size_lt
  obtain ⟨⟨hpos, hle⟩, -⟩ := h
  unfold notFound
  omega

/-- The search that looks for bits equal to `v`. -/
def findRun (v : Bool) : Bitmap → ℕ → ℕ → ℕ := if v then rtlFindSetBits else rtlFindClearBits

/-- The test of the position. -/
def testRun (v : Bool) (b : Bitmap) (ulCount ulPos : ℕ) : Bool :=
  if v then rtlAreBitsSet b ulPos ulCount else rtlAreBitsClear b ulPos ulCount

theorem testRun_iff : testRun v b c p = true ↔ RunAt v b c p := by
  cases v with
  | false => exact rtlAreBitsClear_iff
  | true => exact rtlAreBitsSet_iff

theorem findRun_eq : findRun v b c n = findBits (testRun v b c) b c n := by
  cases v with
  | false => rfl
  | true => rfl

/-- What a search returns is the start of a run, or `~0` and there is no run anywhere. -/
def FindExact (v : Bool) (b : Bitmap) (count result : ℕ) : Prop :=
  (result = notFound ↔ ¬∃ p, RunAt v b count p) ∧ (result ≠ notFound → RunAt v b count result)

/-- The hint does not lie behind the bitmap with a sum that wraps, unless there is nothing to find. -/
def HintFits (v : Bool) (b : Bitmap) (count hint : ℕ) : Prop :=
  hint + count < ulongLimit ∨ hint < b.sizeOfBitMap ∨ ¬∃ p, RunAt v b count p

theorem findExact_of_runAt (h : RunAt v b c p) : FindExact v b c p :=
  ⟨iff_of_false h.ne_notFound (not_not_intro ⟨p, h⟩), fun _ => h⟩

theorem findExact_of_none (h : ¬∃ p, RunAt v b c p) : FindExact v b c notFound :=
  ⟨iff_of_true rfl h, fun hne => absurd rfl hne⟩

theorem findExact_findFrom (hhint : hint < b.sizeOfBitMap) :
    FindExact v b c (findFrom (testRun v b c) hint b.sizeOfBitMap hint) := by
  rcases findFrom_cases (testRun v b c) hint b.sizeOfBitMap hint with
    ⟨p, heq, hp⟩ | ⟨heq, hrest, hback⟩
  · rw [heq]
    exact findExact_of_runAt (testRun_iff.mp hp)
  · rw [heq]
    apply findExact_of_none
    rintro ⟨p, hp⟩
    have hlt : p < b.sizeOfBitMap := by
      obtain ⟨⟨hpos, hle⟩, -⟩ := hp
      omega
    have htest := testRun_iff.mpr hp
    by_cases h : p < hint
    · rw [hback hhint p h] at htest
      cases htest
    · rw [hrest p (Nat.le_of_not_lt h) hlt] at htest
      cases htest

/-- A search is right exactly when its hint fits. -/
theorem findExact_iff (hcount : 0 < c) (hsize : c ≤ b.sizeOfBitMap) (hhint : hint < ulongLimit) :
    FindExact v b c (findRun v b c hint) ↔ HintFits v b c hint := by
  have hlt := b.size_lt
  rw [findRun_eq, findBits, if_neg (by omega)]
  dsimp only
  by_cases hwrap : hint + c < ulongLimit
  · rw [Nat.mod_eq_of_lt hwrap]
    refine iff_of_true ?_ (Or.inl hwrap)
    split
    · exact findExact_findFrom (by omega)
    · exact findExact_findFrom (by omega)
  · have hmod : (hint + c) % ulongLimit = hint + c - ulongLimit := by
      rw [Nat.mod_eq_sub_mod (Nat.le_of_not_lt hwrap), Nat.mod_eq_of_lt (by omega)]
    rw [hmod, if_neg (by omega)]
    by_cases hin : hint < b.sizeOfBitMap
    · exact iff_of_true (findExact_findFrom hin) (Or.inr (Or.inl hin))
    · rw [findFrom, if_neg hin]
      constructor
      · intro h
        exact Or.inr (Or.inr (h.1.mp rfl))
      · intro h
        exact findExact_of_none ((h.resolve_left hwrap).resolve_left hin)

/-- A call of `RtlFindClearBitsAndSet`. -/
structure Request where
  ulCount : ℕ
  ulHint : ℕ
  deriving DecidableEq, Repr

def Request.Valid (r : Request) (size : ℕ) : Prop :=
  0 < r.ulCount ∧ r.ulCount ≤ size ∧ r.ulHint < ulongLimit

instance (r : Request) (size : ℕ) : Decidable (r.Valid size) := by
  unfold Request.Valid
  infer_instance

def Bitmap.handOut (b : Bitmap) (r : Request) : ℕ × Bitmap :=
  rtlFindClearBitsAndSet b r.ulCount r.ulHint

/-- The bitmap after some calls. -/
def Bitmap.after (b : Bitmap) (rs : List Request) : Bitmap := rs.foldl (fun b r => (b.handOut r).2) b

/-- The call returns a clear run and sets exactly its bits, or there is no clear run. -/
def HandsOut (b : Bitmap) (r : Request) : Prop :=
  FindExact false b r.ulCount (b.handOut r).1 ∧
    ∀ i, (b.handOut r).2.bit i ↔ b.bit i ∨
      (b.handOut r).1 ≠ notFound ∧ (b.handOut r).1 ≤ i ∧ i < (b.handOut r).1 + r.ulCount

/-- The ranges that two calls, one after the other, hand out share no bit. -/
def Disjoint (b : Bitmap) (rs rs' : List Request) (r r' : Request) : Prop :=
  let first := ((b.after rs).handOut r).1
  let second := ((b.after (rs ++ r :: rs')).handOut r').1
  first = notFound ∨ second = notFound ∨ first + r.ulCount ≤ second ∨ second + r'.ulCount ≤ first

/-- Every call hands out a run, marks it and fails only when none is left; no two ranges overlap. -/
structure RunsExact (b : Bitmap) (rs : List Request) : Prop where
  exact : ∀ pre r post, rs = pre ++ r :: post → HandsOut (b.after pre) r
  disjoint : ∀ pre r mid r' post, rs = pre ++ r :: (mid ++ r' :: post) → Disjoint b pre mid r r'

/-- In the state before each call its hint fits. -/
def AllFit (b : Bitmap) (rs : List Request) : Prop :=
  ∀ pre r post, rs = pre ++ r :: post → HintFits false (b.after pre) r.ulCount r.ulHint

theorem findRun_cases (v : Bool) (b : Bitmap) (c hint : ℕ) :
    findRun v b c hint = notFound ∨ RunAt v b c (findRun v b c hint) := by
  rw [findRun_eq, findBits]
  split
  · exact Or.inl rfl
  · dsimp only
    rcases findFrom_cases (testRun v b c) _ b.sizeOfBitMap _ with ⟨p, heq, hp⟩ | ⟨heq, -⟩
    · right
      rw [heq]
      exact testRun_iff.mp hp
    · exact Or.inl heq

theorem handOut_fst {r : Request} : (b.handOut r).1 = findRun false b r.ulCount r.ulHint := rfl

theorem bit_handOut {r : Request} : (b.handOut r).2.bit i ↔ b.bit i ∨
    (b.handOut r).1 ≠ notFound ∧ (b.handOut r).1 ≤ i ∧ i < (b.handOut r).1 + r.ulCount := by
  change (if (b.handOut r).1 ≠ notFound then _ else b).bit i ↔ _
  split
  · next h =>
    have hrun : RunAt false b r.ulCount (b.handOut r).1 := (findRun_cases false b _ _).resolve_left h
    rw [bit_rtlSetBits, and_iff_right h]
    exact or_congr_right (and_iff_right hrun.1)
  · next h => exact (or_iff_left fun h' => h h'.1).symm

theorem handOut_size {r : Request} : (b.handOut r).2.sizeOfBitMap = b.sizeOfBitMap := by
  change (if (b.handOut r).1 ≠ notFound then _ else b).sizeOfBitMap = _
  split
  · exact rtlSetBits_size
  · rfl

theorem after_append {rs rs' : List Request} : b.after (rs ++ rs') = (b.after rs).after rs' :=
  List.foldl_append

theorem after_cons {r : Request} {rs : List Request} : b.after (r :: rs) = (b.handOut r).2.after rs :=
  rfl

theorem after_size {rs : List Request} : (b.after rs).sizeOfBitMap = b.sizeOfBitMap := by
  induction rs generalizing b with
  | nil => rfl
  | cons r rs ih => rw [after_cons, ih, handOut_size]

/-- A bit that is set stays set. -/
theorem bit_after {rs : List Request} (h : b.bit i = true) : (b.after rs).bit i = true := by
  induction rs generalizing b with
  | nil => exact h
  | cons r rs ih => exact ih (bit_handOut.mpr (Or.inl h))

/-- What has been handed out is not handed out again. -/
theorem disjoint_of_calls {pre mid : List Request} {r r' : Request} : Disjoint b pre mid r r' := by
  let b₁ := b.after pre
  let b₂ := b.after (pre ++ r :: mid)
  have hb₂ : b₂ = (b₁.handOut r).2.after mid := by
    change b.after (pre ++ r :: mid) = _
    rw [after_append, after_cons]
  rcases findRun_cases false b₁ r.ulCount r.ulHint with hnone | hrun
  · exact Or.inl hnone
  rcases findRun_cases false b₂ r'.ulCount r'.ulHint with
    hnone' | hrun'
  · exact Or.inr (Or.inl hnone')
  refine Or.inr (Or.inr ?_)
  change (b₁.handOut r).1 + r.ulCount ≤ (b₂.handOut r').1 ∨
    (b₂.handOut r').1 + r'.ulCount ≤ (b₁.handOut r).1
  rw [handOut_fst, handOut_fst]
  by_contra hmeet
  -- a bit of both ranges is set in between and clear afterwards
  have hset : ∀ i, findRun false b₁ r.ulCount r.ulHint ≤ i →
      i < findRun false b₁ r.ulCount r.ulHint + r.ulCount → b₂.bit i = true := by
    intro i hi hi'
    rw [hb₂]
    exact bit_after (bit_handOut.mpr (Or.inr ⟨hrun.ne_notFound, hi, hi'⟩))
  obtain ⟨hpos, -⟩ := hrun.1
  obtain ⟨hpos', -⟩ := hrun'.1
  obtain ⟨i, h₁, h₂, h₃, h₄⟩ : ∃ i, findRun false b₁ r.ulCount r.ulHint ≤ i ∧
      i < findRun false b₁ r.ulCount r.ulHint + r.ulCount ∧
      findRun false b₂ r'.ulCount r'.ulHint ≤ i ∧
      i < findRun false b₂ r'.ulCount r'.ulHint + r'.ulCount :=
    ⟨max (findRun false b₁ r.ulCount r.ulHint) (findRun false b₂ r'.ulCount r'.ulHint),
      by omega, by omega, by omega, by omega⟩
  have hclear := hrun'.2 i h₃ h₄
  rw [hset i h₁ h₂] at hclear
  cases hclear

/-- The searches are right exactly for the hints that fit, and so is every sequence of calls that find
and set a run. -/
theorem search_exact_iff (b : Bitmap) :
    (∀ v, ∀ r : Request, r.Valid b.sizeOfBitMap →
      (FindExact v b r.ulCount (findRun v b r.ulCount r.ulHint) ↔
        HintFits v b r.ulCount r.ulHint)) ∧
    ∀ rs : List Request, (∀ r ∈ rs, r.Valid b.sizeOfBitMap) → (RunsExact b rs ↔ AllFit b rs) := by
  refine ⟨fun v r hr => findExact_iff hr.1 hr.2.1 hr.2.2, ?_⟩
  intro rs hrs
  have hcall : ∀ pre r post, rs = pre ++ r :: post →
      (HandsOut (b.after pre) r ↔ HintFits false (b.after pre) r.ulCount r.ulHint) := by
    intro pre r post heq
    have hr : r.Valid (b.after pre).sizeOfBitMap := by
      rw [after_size]
      exact hrs r (heq ▸ List.mem_append_right _ List.mem_cons_self)
    rw [HandsOut, and_iff_left fun i => bit_handOut]
    exact findExact_iff hr.1 hr.2.1 hr.2.2
  constructor
  · intro h pre r post heq
    exact (hcall pre r post heq).mp (h.exact pre r post heq)
  · intro h
    exact ⟨fun pre r post heq => (hcall pre r post heq).mpr (h pre r post heq),
      fun _ _ _ _ _ _ => disjoint_of_calls⟩

/-- Thirty-two bits, of which only the first one is set. -/
def firstBitSet : Bitmap where
  sizeOfBitMap := 32
  buffer k := if k = 0 then 1#8 else 0#8
  size_lt := by decide

/-- A clear bit is sought from the second position on, and then again. -/
def twoRequests : List Request := [⟨1, 1⟩, ⟨1, 1⟩]

theorem twoRequests_valid : ∀ r ∈ twoRequests, r.Valid firstBitSet.sizeOfBitMap := by decide

theorem search_exact_sample :
    FindExact true firstBitSet 1 (findRun true firstBitSet 1 31) ∧
      (RunsExact firstBitSet twoRequests ↔ AllFit firstBitSet twoRequests) :=
  ⟨((search_exact_iff firstBitSet).1 true ⟨1, 31⟩ (by decide)).mpr (Or.inl (by decide)),
    (search_exact_iff firstBitSet).2 twoRequests twoRequests_valid⟩

/-- With the greatest hint the sum wraps and the bit that is set is not found. -/
theorem not_search_exact_wrapped :
    (⟨1, 0xffffffff⟩ : Request).Valid firstBitSet.sizeOfBitMap ∧
      ¬FindExact true firstBitSet 1 (findRun true firstBitSet 1 0xffffffff) := by
  refine ⟨by decide, ?_⟩
  rw [findExact_iff (by decide) (by decide) (by decide)]
  rintro (h | h | h)
  · exact absurd h (by decide)
  · exact absurd h (by decide)
  · exact h ⟨0, testRun_iff.mp (by decide)⟩

end Wine.Bitmaps
