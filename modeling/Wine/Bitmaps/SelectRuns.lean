import Wine.Bitmaps.Find
import Wine.Lib.Largest

/-!
# Selecting runs of a bitmap

`NTDLL_FindRuns` goes from run to run. When the longest runs are wanted and the array is full, the array
is sorted by decreasing length and a longer run takes the place of the last one. The run finder and
`qsort` are parameters.
-/

namespace Wine.Bitmaps
open Wine.Lib

/-- An `RTL_BITMAP_RUN`. -/
structure BitmapRun where
  startingIndex : ℕ
  numberOfBits : ℕ
  deriving DecidableEq, Repr, Inhabited

section Model

variable (fn : ℕ → BitmapRun) (qsort : List BitmapRun → List BitmapRun) (size ulCount : ℕ)

/-- The loop. The entries of `lpSeries` that have been written are a list; `fn` returns the position in
`startingIndex` and stores the length in `numberOfBits`. -/
def findRunsFrom (bLongest : Bool) : ℕ → ℕ → Bool → List BitmapRun → Option (List BitmapRun)
  | 0, _, _, _ => none
  | fuel + 1, ulPos, bNeedSort, lpSeries =>
    if ulPos < size then
      let run := fn ulPos
      let next := (run.startingIndex + run.numberOfBits) % ulongLimit
      if run.startingIndex = notFound then some lpSeries
      else if bLongest ∧ lpSeries.length = ulCount then
        let series := if bNeedSort then qsort lpSeries else lpSeries
        if (series.getD (ulCount - 1) default).numberOfBits < run.numberOfBits then
          let needSort := bNeedSort || decide (1 < ulCount) &&
            decide ((series.getD (ulCount - 2) default).numberOfBits < run.numberOfBits)
          findRunsFrom bLongest fuel next needSort (series.set (ulCount - 1) run)
        else findRunsFrom bLongest fuel next bNeedSort series
      else
        let series := lpSeries ++ [run]
        if bLongest = false ∧ series.length = ulCount then some series
        else findRunsFrom bLongest fuel next bNeedSort series
    else some lpSeries

/-- `NTDLL_FindRuns`: the number that is returned and the entries of the array that are written. -/
def ntdllFindRuns (bLongest : Bool) (fuel : ℕ) : Option (ℕ × List BitmapRun) :=
  if ulCount = 0 then some (notFound, [])
  else (findRunsFrom fn qsort size ulCount bLongest fuel 0 (decide (1 < ulCount)) []).map
    fun series => (series.length, series)

end Model

variable {v : Bool} {b : Bitmap} {fn : ℕ → BitmapRun} {qsort : List BitmapRun → List BitmapRun}
  {r r' : BitmapRun} {rs done todo series : List BitmapRun} {p i k : ℕ}

def BitmapRun.limit (r : BitmapRun) : ℕ := r.startingIndex + r.numberOfBits

/-- A run of bits equal to `v` that goes on neither before its start nor behind its end. -/
structure MaximalRun (v : Bool) (b : Bitmap) (r : BitmapRun) : Prop where
  run : RunAt v b r.numberOfBits r.startingIndex
  before : ∀ i, i + 1 = r.startingIndex → b.bit i = !v
  after : r.limit < b.sizeOfBitMap → b.bit r.limit = !v

/-- `ulPos` is not in the middle of a run. -/
def Boundary (v : Bool) (b : Bitmap) (ulPos : ℕ) : Prop :=
  ulPos = 0 ∨ b.bit ulPos = !v ∨ b.bit (ulPos - 1) = !v

/-- The first maximal run at or after a position is returned, or `~0`. -/
def IsFinder (v : Bool) (b : Bitmap) (fn : ℕ → BitmapRun) : Prop :=
  ∀ p < b.sizeOfBitMap, Boundary v b p →
    (fn p).startingIndex = notFound ∧ (∀ r, MaximalRun v b r → r.startingIndex < p) ∨
      MaximalRun v b (fn p) ∧ p ≤ (fn p).startingIndex ∧
        ∀ r, MaximalRun v b r → p ≤ r.startingIndex → (fn p).startingIndex ≤ r.startingIndex

/-- `NTDLL_RunSortFn` -/
def ntdllRunSortFn (lhs rhs : BitmapRun) : ℤ := if rhs.numberOfBits < lhs.numberOfBits then -1 else 1

/-- `qsort` sorts by decreasing length: no run is less than one that stands before it. -/
def SortsByLength (qsort : List BitmapRun → List BitmapRun) : Prop :=
  ∀ l, (qsort l).Perm l ∧ (qsort l).Pairwise fun r r' => ¬ntdllRunSortFn r' r < 0

theorem not_ntdllRunSortFn_neg : ¬ntdllRunSortFn r' r < 0 ↔ r'.numberOfBits ≤ r.numberOfBits := by
  unfold ntdllRunSortFn
  split <;> omega

/-- `rs` are the maximal runs from left to right. -/
structure Lists (v : Bool) (b : Bitmap) (rs : List BitmapRun) : Prop where
  mem : ∀ r, r ∈ rs ↔ MaximalRun v b r
  sorted : rs.Pairwise fun r r' => r.startingIndex < r'.startingIndex

theorem MaximalRun.pos (h : MaximalRun v b r) : 0 < r.numberOfBits := h.run.1.1

theorem MaximalRun.limit_le (h : MaximalRun v b r) : r.limit ≤ b.sizeOfBitMap := h.run.1.2

/-- Of two maximal runs the first one ends before the second one starts. -/
theorem MaximalRun.limit_le_start (h : MaximalRun v b r) (h' : MaximalRun v b r')
    (hlt : r.startingIndex < r'.startingIndex) : r.limit ≤ r'.startingIndex := by
  by_contra hin
  obtain ⟨i, hi⟩ : ∃ i, i + 1 = r'.startingIndex := ⟨r'.startingIndex - 1, by omega⟩
  have hclear := h'.before i hi
  rw [h.run.2 i (by omega) (by unfold BitmapRun.limit at hin; omega)] at hclear
  cases v <;> cases hclear

theorem MaximalRun.eq_of_start (h : MaximalRun v b r) (h' : MaximalRun v b r')
    (heq : r.startingIndex = r'.startingIndex) : r = r' := by
  have hnot : ∀ {r r'}, MaximalRun v b r → MaximalRun v b r' →
      r.startingIndex = r'.startingIndex → ¬r.numberOfBits < r'.numberOfBits := by
    intro r r' h h' heq hlt
    have hle := h'.limit_le
    unfold BitmapRun.limit at hle
    have hclear := h.after (by unfold BitmapRun.limit; omega)
    rw [BitmapRun.limit, h'.run.2 _ (by omega) (by omega)] at hclear
    cases v <;> cases hclear
  have hbits : r.numberOfBits = r'.numberOfBits :=
    Nat.le_antisymm (Nat.le_of_not_lt (hnot h' h heq.symm)) (Nat.le_of_not_lt (hnot h h' heq))
  cases r
  cases r'
  simp only at heq hbits
  rw [heq, hbits]

/-- The end of a run is not in the middle of a run. -/
theorem MaximalRun.boundary (h : MaximalRun v b r) (hlt : r.limit < b.sizeOfBitMap) :
    Boundary v b r.limit := Or.inr (Or.inl (h.after hlt))

theorem MaximalRun.next_eq (h : MaximalRun v b r) :
    (r.startingIndex + r.numberOfBits) % ulongLimit = r.limit := by
  have hsize := b.size_lt
  have hle := h.limit_le
  unfold BitmapRun.limit at hle ⊢
  exact Nat.mod_eq_of_lt (by omega)

/-- Where the loop stands: the runs before `p` are done, the others are to come. -/
structure Standing (v : Bool) (b : Bitmap) (done todo : List BitmapRun) (p : ℕ) : Prop where
  lists : Lists v b (done ++ todo)
  boundary : p < b.sizeOfBitMap → Boundary v b p
  before : ∀ r ∈ done, r.startingIndex < p
  after : ∀ r ∈ todo, p ≤ r.startingIndex

theorem Standing.start (h : Lists v b rs) : Standing v b [] rs 0 :=
  ⟨h, fun _ => Or.inl rfl, fun _ hr => absurd hr List.not_mem_nil, fun _ _ => Nat.zero_le _⟩

theorem Standing.next (h : Standing v b done (r :: todo) p) :
    Standing v b (done ++ [r]) todo r.limit := by
  have hr : MaximalRun v b r := (h.lists.mem r).mp (List.mem_append_right _ List.mem_cons_self)
  have hpos := hr.pos
  refine ⟨?_, hr.boundary, ?_, ?_⟩
  · rw [List.append_assoc]
    exact h.lists
  · intro r' hr'
    rcases List.mem_append.mp hr' with hr' | hr'
    · have hbefore := h.before r' hr'
      have hafter := h.after r List.mem_cons_self
      unfold BitmapRun.limit
      omega
    · rw [List.mem_singleton.mp hr', BitmapRun.limit]
      omega
  · intro r' hr'
    have hmax : MaximalRun v b r' :=
      (h.lists.mem r').mp (List.mem_append_right _ (List.mem_cons_of_mem _ hr'))
    obtain ⟨-, hsorted, -⟩ := List.pairwise_append.mp h.lists.sorted
    exact hr.limit_le_start hmax ((List.pairwise_cons.mp hsorted).1 r' hr')

/-- With no run to come, the finder finds none. -/
theorem Standing.finder_nil (h : Standing v b done [] p) (hfn : IsFinder v b fn)
    (hp : p < b.sizeOfBitMap) : (fn p).startingIndex = notFound := by
  rcases hfn p hp (h.boundary hp) with ⟨hnone, -⟩ | ⟨hmax, hle, -⟩
  · exact hnone
  · have hmem := (h.lists.mem (fn p)).mpr hmax
    rw [List.append_nil] at hmem
    exact absurd (h.before _ hmem) (by omega)

/-- The finder finds the first run to come. -/
theorem Standing.finder_cons (h : Standing v b done (r :: todo) p) (hfn : IsFinder v b fn) :
    p < b.sizeOfBitMap ∧ fn p = r := by
  have hr : MaximalRun v b r := (h.lists.mem r).mp (List.mem_append_right _ List.mem_cons_self)
  have hle := h.after r List.mem_cons_self
  have hpos := hr.pos
  have hlimit := hr.limit_le
  unfold BitmapRun.limit at hlimit
  have hp : p < b.sizeOfBitMap := by omega
  refine ⟨hp, ?_⟩
  rcases hfn p hp (h.boundary hp) with ⟨-, hnone⟩ | ⟨hmax, hle', hfirst⟩
  · exact absurd (hnone r hr) (by omega)
  · refine hmax.eq_of_start hr (Nat.le_antisymm (hfirst r hr hle) ?_)
    have hmem := (h.lists.mem (fn p)).mpr hmax
    rcases List.mem_append.mp hmem with hmem | hmem
    · exact absurd (h.before _ hmem) (by omega)
    · rcases List.mem_cons.mp hmem with heq | hmem
      · exact Nat.le_of_eq (congrArg _ heq.symm)
      · obtain ⟨-, hsorted, -⟩ := List.pairwise_append.mp h.lists.sorted
        exact Nat.le_of_lt ((List.pairwise_cons.mp hsorted).1 _ hmem)

/-- Without `bLongest` the runs are appended until there are enough. -/
theorem findRunsFrom_first (hfn : IsFinder v b fn) (h : Standing v b done todo p)
    (hk : series.length < k) (needSort : Bool) :
    findRunsFrom fn qsort b.sizeOfBitMap k false (todo.length + 1) p needSort series =
      some (series ++ todo.take (k - series.length)) := by
  induction todo generalizing done p series with
  | nil =>
    rw [findRunsFrom, List.take_nil, List.append_nil]
    split
    · next hp =>
      dsimp only
      rw [if_pos (h.finder_nil hfn hp)]
    · rfl
  | cons r todo ih =>
    obtain ⟨hp, hfirst⟩ := h.finder_cons hfn
    have hr : MaximalRun v b r := (h.lists.mem r).mp (List.mem_append_right _ List.mem_cons_self)
    have hlength : (series ++ [r]).length = series.length + 1 := List.length_append
    obtain ⟨n, hn⟩ : ∃ n, k - series.length = n + 1 := ⟨k - series.length - 1, by omega⟩
    rw [List.length_cons, findRunsFrom, if_pos hp]
    dsimp only
    rw [hfirst, if_neg hr.run.ne_notFound, if_neg (fun h => Bool.false_ne_true h.1), hn,
      List.take_succ_cons]
    split
    · next hfull =>
      rw [show n = 0 by omega, List.take_zero]
    · next hfull =>
      have hlt : (series ++ [r]).length < k := by
        have hne : (series ++ [r]).length ≠ k := fun heq => hfull ⟨rfl, heq⟩
        omega
      rw [hr.next_eq, ih h.next hlt, hlength, show k - (series.length + 1) = n by omega,
        List.append_assoc, List.cons_append, List.nil_append]

/-- The array that is compared with the next run has its shortest run at the end. -/
theorem exists_last (hsort : SortsByLength qsort) {needSort : Bool} (hneed : 1 < k → needSort = true)
    (hk : 0 < k) (hlength : series.length = k) :
    ∃ front y, (if needSort then qsort series else series) = front ++ [y] ∧
      (front ++ [y]).Perm series ∧ front.length = k - 1 ∧
      ∀ r ∈ front, y.numberOfBits ≤ r.numberOfBits := by
  obtain ⟨sorted, hsorted⟩ : ∃ sorted, (if needSort then qsort series else series) = sorted := ⟨_, rfl⟩
  have hperm : sorted.Perm series := by
    rw [← hsorted]
    split
    · exact (hsort series).1
    · exact List.Perm.refl series
  have hcount : sorted.length = k := hperm.length_eq.trans hlength
  have hne : sorted ≠ [] := by
    rintro rfl
    exact absurd hcount (by rw [List.length_nil]; omega)
  have hlast := List.dropLast_append_getLast hne
  refine ⟨sorted.dropLast, sorted.getLast hne, ?_, ?_, ?_, ?_⟩
  · rw [hlast]
    exact hsorted
  · rw [hlast]
    exact hperm
  · rw [List.length_dropLast, hcount]
  · intro r hr
    by_cases hone : 1 < k
    · rw [hneed hone, if_pos rfl] at hsorted
      have hpairs := (hsort series).2
      rw [hsorted, ← hlast] at hpairs
      exact not_ntdllRunSortFn_neg.mp
        ((List.pairwise_append.mp hpairs).2.2 r hr _ (List.mem_singleton.mpr rfl))
    · have hnil : sorted.dropLast.length = 0 := by
        rw [List.length_dropLast]
        omega
      rw [List.length_eq_zero_iff.mp hnil] at hr
      exact absurd hr List.not_mem_nil

/-- With `bLongest` the array holds the longest of the runs that are done. -/
theorem findRunsFrom_longest (hfn : IsFinder v b fn) (hsort : SortsByLength qsort) (hk : 0 < k)
    (h : Standing v b done todo p) (htop : IsTop BitmapRun.numberOfBits series done)
    (hlength : series.length = min k done.length) {needSort : Bool}
    (hneed : 1 < k → needSort = true) :
    ∃ result, findRunsFrom fn qsort b.sizeOfBitMap k true (todo.length + 1) p needSort series =
        some result ∧ IsTop BitmapRun.numberOfBits result (done ++ todo) ∧
      result.length = min k (done ++ todo).length := by
  induction todo generalizing done p series needSort with
  | nil =>
    refine ⟨series, ?_, by rwa [List.append_nil], by rwa [List.append_nil]⟩
    rw [findRunsFrom]
    split
    · next hp =>
      dsimp only
      rw [if_pos (h.finder_nil hfn hp)]
    · rfl
  | cons r todo ih =>
    obtain ⟨hp, hfirst⟩ := h.finder_cons hfn
    have hr : MaximalRun v b r := (h.lists.mem r).mp (List.mem_append_right _ List.mem_cons_self)
    have hdone : (done ++ [r]).length = done.length + 1 := List.length_append
    have hsplit : done ++ r :: todo = done ++ [r] ++ todo := by
      rw [List.append_assoc, List.cons_append, List.nil_append]
    rw [List.length_cons, findRunsFrom, if_pos hp]
    dsimp only
    rw [hfirst, if_neg hr.run.ne_notFound, hr.next_eq, hsplit]
    by_cases hfull : series.length = k
    · rw [if_pos ⟨rfl, hfull⟩]
      obtain ⟨front, y, hsorted, hperm, hfront, hmin⟩ := exists_last hsort hneed hk hfull
      have htop' : IsTop BitmapRun.numberOfBits (front ++ [y]) done := htop.perm hperm
      have hlast : (front ++ [y]).getD (k - 1) default = y := by
        rw [← hfront, List.getD_eq_getElem?_getD, List.getElem?_append_right (Nat.le_refl _),
          Nat.sub_self]
        rfl
      have hset : (front ++ [y]).set (k - 1) r = front ++ [r] := by
        rw [← hfront, List.set_append_right _ _ (Nat.le_refl _), Nat.sub_self]
        rfl
      have hcount : ∀ z, (front ++ [z]).length = min k (done ++ [r]).length := by
        intro z
        rw [List.length_append, hfront, hdone, List.length_singleton]
        omega
      rw [hsorted, hlast, hset]
      split
      · next hlonger =>
        refine ih h.next (htop'.replace hlonger hmin) (hcount r) fun hone => ?_
        rw [hneed hone, Bool.true_or]
      · next hlonger =>
        refine ih h.next (htop'.skip fun z hz => ?_) (hcount y) hneed
        rcases List.mem_append.mp hz with hz | hz
        · exact Nat.le_trans (Nat.le_of_not_lt hlonger) (hmin z hz)
        · rw [List.mem_singleton.mp hz]
          exact Nat.le_of_not_lt hlonger
    · rw [if_neg fun h => hfull h.2, if_neg fun h => Bool.false_ne_true h.1.symm]
      have hall : series.Perm done := by
        obtain ⟨rest, hrest, -⟩ := htop
        have hnil : rest = [] := by
          have hlen := hrest.length_eq
          rw [List.length_append] at hlen
          exact List.length_eq_zero_iff.mp (by omega)
        rw [hnil, List.append_nil] at hrest
        exact hrest.symm
      refine ih h.next ?_ ?_ hneed
      · exact (IsTop.refl _ (done ++ [r])).perm (hall.append_right [r])
      · rw [List.length_append, hdone, hall.length_eq, List.length_singleton]
        have hlen := hall.length_eq
        omega

/-- How many of the `n` bits from `p` on come before the first one that is not `v`. -/
def runFrom (v : Bool) (b : Bitmap) (p : ℕ) : ℕ → ℕ
  | 0 => 0
  | n + 1 => if b.bit p = v then runFrom v b (p + 1) n + 1 else 0

/-- A run starts at `p`. -/
def startsRun (v : Bool) (b : Bitmap) (p : ℕ) : Bool :=
  b.bit p == v && (p == 0 || b.bit (p - 1) == !v)

/-- The maximal runs from left to right. -/
def maximalRuns (v : Bool) (b : Bitmap) : List BitmapRun :=
  ((List.range b.sizeOfBitMap).filter (startsRun v b)).map fun p =>
    ⟨p, runFrom v b p (b.sizeOfBitMap - p)⟩

theorem runFrom_spec (n : ℕ) : runFrom v b p n ≤ n ∧
    (∀ i, p ≤ i → i < p + runFrom v b p n → b.bit i = v) ∧
      (runFrom v b p n < n → b.bit (p + runFrom v b p n) = !v) := by
  induction n generalizing p with
  | zero =>
    exact ⟨Nat.le_refl 0, fun i hi hi' => absurd hi' (by rw [runFrom]; omega), fun h => by cases h⟩
  | succ n ih =>
    obtain ⟨hle, hset, hends⟩ := ih (p := p + 1)
    rw [runFrom]
    split
    · next hp =>
      refine ⟨by omega, fun i hi hi' => ?_, fun h => ?_⟩
      · rcases Nat.eq_or_lt_of_le hi with rfl | hi
        · exact hp
        · exact hset i hi (by omega)
      · rw [show p + (runFrom v b (p + 1) n + 1) = p + 1 + runFrom v b (p + 1) n by omega]
        exact hends (by omega)
    · next hp =>
      refine ⟨Nat.zero_le _, fun i hi hi' => absurd hi' (by omega), fun _ => ?_⟩
      cases hv : b.bit p <;> cases v <;> simp_all

theorem maximalRun_of_starts (hp : p < b.sizeOfBitMap) (h : startsRun v b p = true) :
    MaximalRun v b ⟨p, runFrom v b p (b.sizeOfBitMap - p)⟩ := by
  obtain ⟨hle, hset, hends⟩ := runFrom_spec (v := v) (b := b) (p := p) (b.sizeOfBitMap - p)
  simp only [startsRun, Bool.and_eq_true, beq_iff_eq, Bool.or_eq_true] at h
  have hpos : 0 < runFrom v b p (b.sizeOfBitMap - p) := by
    rw [show b.sizeOfBitMap - p = b.sizeOfBitMap - p - 1 + 1 by omega, runFrom, if_pos h.1]
    exact Nat.succ_pos _
  refine ⟨⟨⟨hpos, by simp only; omega⟩, hset⟩, fun i hi => ?_, fun hlt => hends ?_⟩
  · simp only at hi
    rw [show i = p - 1 by omega]
    exact h.2.resolve_left (by omega)
  · unfold BitmapRun.limit at hlt
    simp only at hlt
    omega

theorem lists_maximalRuns (v : Bool) (b : Bitmap) : Lists v b (maximalRuns v b) := by
  refine ⟨fun r => ?_, ?_⟩
  · rw [maximalRuns, List.mem_map]
    constructor
    · rintro ⟨p, hp, rfl⟩
      obtain ⟨hlt, hstarts⟩ := List.mem_filter.mp hp
      exact maximalRun_of_starts (List.mem_range.mp hlt) hstarts
    · intro hr
      have hpos := hr.pos
      have hle := hr.limit_le
      unfold BitmapRun.limit at hle
      have hlt : r.startingIndex < b.sizeOfBitMap := by omega
      have hstarts : startsRun v b r.startingIndex = true := by
        simp only [startsRun, Bool.and_eq_true, beq_iff_eq, Bool.or_eq_true]
        refine ⟨hr.run.2 _ (Nat.le_refl _) (by omega), ?_⟩
        by_cases hzero : r.startingIndex = 0
        · exact Or.inl hzero
        · exact Or.inr (hr.before _ (by omega))
      exact ⟨r.startingIndex, List.mem_filter.mpr ⟨List.mem_range.mpr hlt, hstarts⟩,
        (maximalRun_of_starts hlt hstarts).eq_of_start hr rfl⟩
  · rw [maximalRuns, List.pairwise_map]
    exact List.pairwise_lt_range.filter _

theorem Lists.nodup (h : Lists v b rs) : rs.Nodup :=
  h.sorted.imp fun hlt heq => absurd hlt (by rw [heq]; exact Nat.lt_irrefl _)

/-- A finder for the set runs of `firstBitSet`, of which there is one. -/
def onlyRun (ulPos : ℕ) : BitmapRun := if ulPos = 0 then ⟨0, 1⟩ else ⟨notFound, 0⟩

def sortRuns (l : List BitmapRun) : List BitmapRun :=
  l.insertionSort fun r r' => r'.numberOfBits ≤ r.numberOfBits

theorem onlyRun_isFinder : IsFinder true firstBitSet onlyRun := by
  have hbits : ∀ i < 32, firstBitSet.bit i = true → i = 0 := by decide
  have hstart : ∀ r, MaximalRun true firstBitSet r → r.startingIndex = 0 := by
    intro r hr
    have hpos := hr.pos
    have hle : r.startingIndex + r.numberOfBits ≤ 32 := hr.limit_le
    exact hbits _ (by omega) (hr.run.2 _ (Nat.le_refl _) (by omega))
  have hmax : MaximalRun true firstBitSet ⟨0, 1⟩ := by
    have hrun : RunAt true firstBitSet 1 0 := testRun_iff.mp (by decide)
    exact ⟨hrun, fun i hi => (by cases hi), fun _ => by decide⟩
  intro p hp _
  by_cases hzero : p = 0
  · right
    rw [onlyRun, if_pos hzero, hzero]
    exact ⟨hmax, Nat.le_refl 0, fun r _ _ => Nat.zero_le _⟩
  · left
    rw [onlyRun, if_neg hzero]
    exact ⟨rfl, fun r hr => by rw [hstart r hr]; omega⟩

theorem sortRuns_sorts : SortsByLength sortRuns := by
  have : Std.Total fun r r' : BitmapRun => r'.numberOfBits ≤ r.numberOfBits :=
    ⟨fun r r' => Nat.le_total _ _⟩
  have : IsTrans BitmapRun fun r r' => r'.numberOfBits ≤ r.numberOfBits :=
    ⟨fun _ _ _ h h' => Nat.le_trans h' h⟩
  intro l
  refine ⟨List.perm_insertionSort _ l, (List.pairwise_insertionSort _ l).imp fun h => ?_⟩
  exact not_ntdllRunSortFn_neg.mpr h

end Wine.Bitmaps
