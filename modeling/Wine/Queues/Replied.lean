import Wine.Queues.Bits
import Wine.Queues.Custody

/-!
# The bit of replied results

`QS_SMRESULT` is to say that the result on top of the stack of a sender has been replied to. It is set
by the reply and cleared when the result is retrieved, but neither a new result on top of a replied one
clears it nor a cancelled one on top of a replied one sets it.
-/

namespace Wine.Queues
open Wine.Lib
open Wine.Server (Status)

variable {s s' : State} {q r : ℕ} {queue other : Queue} {res res' : MessageResult} {x : Option ℕ}
  {α : Type}

/-- The result on top of the stack of the queue has been replied to. -/
def State.TopReplied (s : State) (queue : Queue) : Prop :=
  ∃ r rest res, queue.sendResult = r :: rest ∧ s.results r = some res ∧ res.replied = true

/-- The bits of the queues but `x` say whether the top results are replied. -/
structure Tracks (x : Option ℕ) (s : State) : Prop where
  sent : ∀ q queue, s.queues q = some queue → ∀ r ∈ queue.sendResult,
    ∃ res, s.results r = some res ∧ res.sender = some q ∧ res.callbackMsg = none
  calls : ∀ q queue, s.queues q = some queue → ∀ r ∈ queue.callbackResult,
    r < s.next ∧ ∀ res, s.results r = some res → res.sender = none ∨ res.sender = some q
  nodup : ∀ q queue, s.queues q = some queue → queue.sendResult.Nodup
  fresh : ∀ r, s.next ≤ r → s.results r = none
  bit : ∀ q queue, s.queues q = some queue → x ≠ some q →
    (queue.Has qsSmresult ↔ s.TopReplied queue)

/-- Nobody waits for the result, or only for its callback message. -/
def Loose (r : ℕ) (s : State) : Prop :=
  ∀ q queue, s.queues q = some queue → r ∉ queue.sendResult

/-- The queue waits for the same results, and says the same of them. -/
structure Queue.Waits (queue other : Queue) : Prop where
  sends : other.sendResult = queue.sendResult
  calls : other.callbackResult = queue.callbackResult
  bit : other.Has qsSmresult ↔ queue.Has qsSmresult

/-! ## Changes of the state -/

theorem topReplied_congr (h : other.sendResult = queue.sendResult)
    (hr : ∀ r ∈ queue.sendResult, s'.results r = s.results r) :
    s'.TopReplied other ↔ s.TopReplied queue := by
  constructor
  · rintro ⟨r, rest, res, htop, hres, hrep⟩
    rw [h] at htop
    rw [hr r (by rw [htop]; exact List.mem_cons_self)] at hres
    exact ⟨r, rest, res, htop, hres, hrep⟩
  · rintro ⟨r, rest, res, htop, hres, hrep⟩
    rw [← hr r (by rw [htop]; exact List.mem_cons_self)] at hres
    rw [← h] at htop
    exact ⟨r, rest, res, htop, hres, hrep⟩

namespace Tracks

theorem of_eq (h : Tracks x s) (hq : s'.queues = s.queues) (hr : s'.results = s.results)
    (hn : s.next ≤ s'.next) : Tracks x s' where
  sent q queue hqq r hm := by
    rw [hr]
    exact h.sent q queue (by rw [← hq, hqq]) r hm
  calls q queue hqq r hm := by
    rw [hr]
    obtain ⟨hlt, hs⟩ := h.calls q queue (by rw [← hq, hqq]) r hm
    exact ⟨Nat.lt_of_lt_of_le hlt hn, hs⟩
  nodup q queue hqq := h.nodup q queue (by rw [← hq, hqq])
  fresh r hr' := by
    rw [hr]
    exact h.fresh r (Nat.le_trans hn hr')
  bit q queue hqq hx := by
    rw [h.bit q queue (by rw [← hq, hqq]) hx]
    exact (topReplied_congr rfl fun r _ => by rw [hr]).symm

/-- A queue changes that waits for the same results. Its bit matters if the bits are to be right. -/
theorem setWaits (h : Tracks x s) (hq : s.queues q = some queue)
    (hsends : other.sendResult = queue.sendResult)
    (hcalls : other.callbackResult = queue.callbackResult)
    (hbit : x = some q ∨ (other.Has qsSmresult ↔ queue.Has qsSmresult)) :
    Tracks x (s.setQueue q (some other)) := by
  have hcase : ∀ i queue', (s.setQueue q (some other)).queues i = some queue' →
      ∃ old, s.queues i = some old ∧ queue'.sendResult = old.sendResult ∧
        queue'.callbackResult = old.callbackResult ∧
        (x = some i ∨ (queue'.Has qsSmresult ↔ old.Has qsSmresult)) := by
    intro i queue' hi
    by_cases hiq : i = q
    · subst hiq
      rw [State.setQueue_self] at hi
      cases hi
      exact ⟨queue, hq, hsends, hcalls, hbit⟩
    · rw [State.setQueue_of_ne hiq] at hi
      exact ⟨queue', hi, rfl, rfl, .inr Iff.rfl⟩
  constructor
  · intro i queue' hi r hm
    obtain ⟨old, ho, hsame, -⟩ := hcase i queue' hi
    rw [hsame] at hm
    exact h.sent i old ho r hm
  · intro i queue' hi r hm
    obtain ⟨old, ho, -, hsame, -⟩ := hcase i queue' hi
    rw [hsame] at hm
    exact h.calls i old ho r hm
  · intro i queue' hi
    obtain ⟨old, ho, hsame, -⟩ := hcase i queue' hi
    rw [hsame]
    exact h.nodup i old ho
  · exact h.fresh
  · intro i queue' hi hx
    obtain ⟨old, ho, hsame, -, hhas⟩ := hcase i queue' hi
    rw [hhas.resolve_left hx, h.bit i old ho hx]
    exact (topReplied_congr hsame fun _ _ => rfl).symm

theorem setQueue (h : Tracks x s) (hq : s.queues q = some queue) (hw : queue.Waits other) :
    Tracks x (s.setQueue q (some other)) := h.setWaits hq hw.sends hw.calls (.inr hw.bit)

/-- The bit of the last queue is right again. -/
theorem done (h : Tracks (some q) s) (hq : s.queues q = some queue)
    (hbit : queue.Has qsSmresult ↔ s.TopReplied queue) : Tracks none s where
  sent := h.sent
  calls := h.calls
  nodup := h.nodup
  fresh := h.fresh
  bit i queue' hi _ := by
    by_cases hiq : i = q
    · subst hiq
      rw [hq] at hi
      cases hi
      exact hbit
    · exact h.bit i queue' hi fun heq => hiq (Option.some.inj heq).symm

theorem newQueue (h : Tracks x s) (q : ℕ) : Tracks x (s.setQueue q (some Queue.new)) := by
  have hcase : ∀ i queue', (s.setQueue q (some Queue.new)).queues i = some queue' →
      queue' = Queue.new ∨ s.queues i = some queue' := by
    intro i queue' hi
    by_cases hiq : i = q
    · subst hiq
      rw [State.setQueue_self] at hi
      exact .inl (Option.some.inj hi).symm
    · rw [State.setQueue_of_ne hiq] at hi
      exact .inr hi
  constructor
  · intro i queue' hi r hm
    obtain rfl | ho := hcase i queue' hi
    · cases hm
    · exact h.sent i queue' ho r hm
  · intro i queue' hi r hm
    obtain rfl | ho := hcase i queue' hi
    · cases hm
    · exact h.calls i queue' ho r hm
  · intro i queue' hi
    obtain rfl | ho := hcase i queue' hi
    · exact List.nodup_nil
    · exact h.nodup i queue' ho
  · exact h.fresh
  · intro i queue' hi hx
    obtain rfl | ho := hcase i queue' hi
    · refine iff_of_false (fun hbit => hbit (by decide)) ?_
      rintro ⟨r, rest, res, htop, -⟩
      cases htop
    · exact h.bit i queue' ho hx

theorem dropQueue (h : Tracks (some q) s) : Tracks none (s.setQueue q none) := by
  have hcase : ∀ i queue', (s.setQueue q none).queues i = some queue' →
      i ≠ q ∧ s.queues i = some queue' := by
    intro i queue' hi
    by_cases hiq : i = q
    · subst hiq
      rw [State.setQueue_self] at hi
      cases hi
    · rw [State.setQueue_of_ne hiq] at hi
      exact ⟨hiq, hi⟩
  constructor
  · exact fun i queue' hi => h.sent i queue' (hcase i queue' hi).2
  · exact fun i queue' hi => h.calls i queue' (hcase i queue' hi).2
  · exact fun i queue' hi => h.nodup i queue' (hcase i queue' hi).2
  · exact h.fresh
  · intro i queue' hi _
    obtain ⟨hiq, ho⟩ := hcase i queue' hi
    exact h.bit i queue' ho fun heq => hiq (Option.some.inj heq).symm

/-- A result changes with its place in the stack of its sender. -/
theorem setResult (h : Tracks x s) (hr : s.results r = some res) (hs : res'.sender = res.sender)
    (hc : res'.callbackMsg = res.callbackMsg) (hrep : res'.replied = res.replied) :
    Tracks x (s.setResult r (some res')) := by
  have hlt : r < s.next := by
    by_contra hle
    rw [h.fresh r (Nat.not_lt.mp hle)] at hr
    cases hr
  constructor
  · intro q queue hq i hm
    obtain ⟨old, ho, hsender, hcall⟩ := h.sent q queue hq i hm
    by_cases hi : i = r
    · subst hi
      rw [hr] at ho
      cases ho
      exact ⟨res', State.setResult_self, hs.trans hsender, hc.trans hcall⟩
    · exact ⟨old, (State.setResult_of_ne hi).trans ho, hsender, hcall⟩
  · intro q queue hq i hm
    obtain ⟨hlt', hold⟩ := h.calls q queue hq i hm
    refine ⟨hlt', fun new hnew => ?_⟩
    by_cases hi : i = r
    · subst hi
      rw [State.setResult_self] at hnew
      cases hnew
      rw [hs]
      exact hold res hr
    · rw [State.setResult_of_ne hi] at hnew
      exact hold new hnew
  · exact h.nodup
  · intro i hi
    have hne : i ≠ r := fun heq => absurd hlt (Nat.not_lt.mpr (heq ▸ hi))
    exact (State.setResult_of_ne hne).trans (h.fresh i hi)
  · intro q queue hq hx
    rw [h.bit q queue hq hx]
    constructor
    · rintro ⟨i, rest, old, htop, ho, hreplied⟩
      by_cases hi : i = r
      · subst hi
        rw [hr] at ho
        cases ho
        exact ⟨i, rest, res', htop, State.setResult_self, hrep.trans hreplied⟩
      · exact ⟨i, rest, old, htop, (State.setResult_of_ne hi).trans ho, hreplied⟩
    · rintro ⟨i, rest, new, htop, hnew, hreplied⟩
      by_cases hi : i = r
      · subst hi
        rw [State.setResult_self] at hnew
        cases hnew
        exact ⟨i, rest, res, htop, hr, hrep.symm.trans hreplied⟩
      · rw [State.setResult_of_ne hi] at hnew
        exact ⟨i, rest, new, htop, hnew, hreplied⟩

/-- Nobody's wait is about a loose result. -/
theorem setLoose (h : Tracks x s) (hl : Loose r s) (hr : s.results r = some res)
    {o : Option MessageResult} (hs : ∀ res', o = some res' → res'.sender = none ∨ res'.sender = res.sender) :
    Tracks x (s.setResult r o) := by
  have hlt : r < s.next := by
    by_contra hle
    rw [h.fresh r (Nat.not_lt.mp hle)] at hr
    cases hr
  have hne : ∀ q queue, s.queues q = some queue → ∀ i ∈ queue.sendResult, i ≠ r := by
    intro q queue hq i hm heq
    exact hl q queue hq (heq ▸ hm)
  constructor
  · intro q queue hq i hm
    obtain ⟨old, ho, hold⟩ := h.sent q queue hq i hm
    exact ⟨old, (State.setResult_of_ne (hne q queue hq i hm)).trans ho, hold⟩
  · intro q queue hq i hm
    obtain ⟨hlt', hold⟩ := h.calls q queue hq i hm
    refine ⟨hlt', fun new hnew => ?_⟩
    by_cases hi : i = r
    · subst hi
      rw [State.setResult_self] at hnew
      obtain hnone | hsame := hs new hnew
      · exact .inl hnone
      · rw [hsame]
        exact hold res hr
    · rw [State.setResult_of_ne hi] at hnew
      exact hold new hnew
  · exact h.nodup
  · intro i hi
    have hir : i ≠ r := fun heq => absurd hlt (Nat.not_lt.mpr (heq ▸ hi))
    exact (State.setResult_of_ne hir).trans (h.fresh i hi)
  · intro q queue hq hx
    rw [h.bit q queue hq hx]
    exact (topReplied_congr rfl fun i hm => State.setResult_of_ne (hne q queue hq i hm)).symm

/-- A result without a sender is loose, and so is one with a callback message. -/
theorem loose (h : Tracks x s) (hr : s.results r = some res)
    (hl : res.sender = none ∨ res.callbackMsg ≠ none) : Loose r s := by
  intro q queue hq hm
  obtain ⟨old, ho, hsender, hcall⟩ := h.sent q queue hq r hm
  rw [hr] at ho
  cases ho
  obtain hnone | hsome := hl
  · rw [hnone] at hsender
    cases hsender
  · exact hsome hcall

/-- The sender gives up a result. The bit of its queue is kept only if the result was loose. -/
theorem unlink {y : Option ℕ} (h : Tracks x s) (hq : s.queues q = some queue)
    (hr : s.results r = some res) (hs : res.sender = some q)
    (hy : y = x ∧ Loose r s ∨ y = some q ∧ (x = none ∨ x = some q)) {o : Option MessageResult}
    (ho : ∀ res', o = some res' → res'.sender = none) :
    Tracks y ((s.setQueue q (some { queue with
      sendResult := queue.sendResult.erase r
      callbackResult := queue.callbackResult.erase r })).setResult r o) := by
  have hlt : r < s.next := by
    by_contra hle
    rw [h.fresh r (Nat.not_lt.mp hle)] at hr
    cases hr
  -- what the queues were before, and that none has the result any more
  have hcase : ∀ i queue', (s.setQueue q (some { queue with
      sendResult := queue.sendResult.erase r
      callbackResult := queue.callbackResult.erase r })).queues i = some queue' →
      ∃ old, s.queues i = some old ∧ queue'.sendResult = old.sendResult.erase r ∧
        (∀ c ∈ queue'.callbackResult, c ∈ old.callbackResult) ∧
        (queue'.Has qsSmresult ↔ old.Has qsSmresult) := by
    intro i queue' hi
    by_cases hiq : i = q
    · subst hiq
      rw [State.setQueue_self] at hi
      cases hi
      exact ⟨queue, hq, rfl, fun c hc => List.mem_of_mem_erase hc, Iff.rfl⟩
    · rw [State.setQueue_of_ne hiq] at hi
      refine ⟨queue', hi, (List.erase_of_not_mem fun hm => ?_).symm, fun c hc => hc, Iff.rfl⟩
      obtain ⟨old, hold, hsender, -⟩ := h.sent i queue' hi r hm
      rw [hr] at hold
      cases hold
      rw [hs] at hsender
      exact hiq (Option.some.inj hsender).symm
  have hne : ∀ i old, s.queues i = some old → ∀ c ∈ old.sendResult.erase r,
      c ≠ r ∧ c ∈ old.sendResult := fun i old hold c hc =>
    (h.nodup i old hold).mem_erase_iff.mp hc
  constructor
  · intro i queue' hi c hc
    obtain ⟨old, hold, hsends, -⟩ := hcase i queue' hi
    rw [hsends] at hc
    obtain ⟨hcr, hc⟩ := hne i old hold c hc
    obtain ⟨res', hres', hsame⟩ := h.sent i old hold c hc
    exact ⟨res', (State.setResult_of_ne hcr).trans hres', hsame⟩
  · intro i queue' hi c hc
    obtain ⟨old, hold, -, hcalls, -⟩ := hcase i queue' hi
    obtain ⟨hclt, hsame⟩ := h.calls i old hold c (hcalls c hc)
    refine ⟨hclt, fun new hnew => ?_⟩
    by_cases hcr : c = r
    · subst hcr
      rw [State.setResult_self] at hnew
      exact .inl (ho new hnew)
    · rw [State.setResult_of_ne hcr] at hnew
      exact hsame new hnew
  · intro i queue' hi
    obtain ⟨old, hold, hsends, -⟩ := hcase i queue' hi
    rw [hsends]
    exact (h.nodup i old hold).erase r
  · intro i hi
    have hir : i ≠ r := fun heq => absurd hlt (Nat.not_lt.mpr (heq ▸ hi))
    exact (State.setResult_of_ne hir).trans (h.fresh i hi)
  · intro i queue' hi hyi
    obtain ⟨old, hold, hsends, -, hbit⟩ := hcase i queue' hi
    have hstay : r ∉ old.sendResult := by
      obtain ⟨-, hl⟩ | ⟨rfl, -⟩ := hy
      · exact hl i old hold
      · intro hm
        obtain ⟨res', hres', hsender, -⟩ := h.sent i old hold r hm
        rw [hr] at hres'
        cases hres'
        rw [hs] at hsender
        exact hyi hsender
    have hxi : x ≠ some i := by
      obtain ⟨rfl, -⟩ | ⟨rfl, rfl | rfl⟩ := hy
      · exact hyi
      · exact fun h => by cases h
      · exact hyi
    rw [hbit, h.bit i old hold hxi]
    rw [List.erase_of_not_mem hstay] at hsends
    refine (topReplied_congr hsends fun c hc => State.setResult_of_ne ?_).symm
    rintro rfl
    exact hstay hc

/-- A reply is stored in the result, and its sender is told if it waits for that result. -/
theorem reply (h : Tracks x s) (res' : MessageResult) (hq : s.queues q = some queue)
    (hr : s.results r = some res) (hs : res.sender = some q) (hs' : res'.sender = res.sender)
    (hc : res'.callbackMsg = res.callbackMsg) (hrep : res'.replied = true)
    (hsends : other.sendResult = queue.sendResult)
    (hcalls : other.callbackResult = queue.callbackResult)
    (hbit : other.Has qsSmresult ↔ queue.Has qsSmresult ∨ queue.sendResult.head? = some r) :
    Tracks x ((s.setResult r (some res')).setQueue q (some other)) := by
  have hlt : r < s.next := by
    by_contra hle
    rw [h.fresh r (Nat.not_lt.mp hle)] at hr
    cases hr
  have hcase : ∀ i queue', ((s.setResult r (some res')).setQueue q (some other)).queues i =
      some queue' → ∃ old, s.queues i = some old ∧ queue'.sendResult = old.sendResult ∧
        queue'.callbackResult = old.callbackResult ∧
        (queue'.Has qsSmresult ↔ old.Has qsSmresult ∨ old.sendResult.head? = some r) := by
    intro i queue' hi
    by_cases hiq : i = q
    · subst hiq
      rw [State.setQueue_self] at hi
      cases hi
      exact ⟨queue, hq, hsends, hcalls, hbit⟩
    · rw [State.setQueue_of_ne hiq] at hi
      refine ⟨queue', hi, rfl, rfl, (or_iff_left fun hhead => ?_).symm⟩
      obtain ⟨old, hold, hsender, -⟩ := h.sent i queue' hi r (List.mem_of_mem_head? hhead)
      rw [hr] at hold
      cases hold
      rw [hs] at hsender
      exact hiq (Option.some.inj hsender).symm
  constructor
  · intro i queue' hi c hm
    obtain ⟨old, hold, hsame, -⟩ := hcase i queue' hi
    rw [hsame] at hm
    obtain ⟨res'', hres'', hsender, hcall⟩ := h.sent i old hold c hm
    by_cases hcr : c = r
    · subst hcr
      rw [hr] at hres''
      cases hres''
      exact ⟨res', State.setResult_self, hs'.trans hsender, hc.trans hcall⟩
    · exact ⟨res'', (State.setResult_of_ne hcr).trans hres'', hsender, hcall⟩
  · intro i queue' hi c hm
    obtain ⟨old, hold, -, hsame, -⟩ := hcase i queue' hi
    rw [hsame] at hm
    obtain ⟨hclt, hsenders⟩ := h.calls i old hold c hm
    refine ⟨hclt, fun new hnew => ?_⟩
    by_cases hcr : c = r
    · subst hcr
      obtain rfl := Option.some.inj (State.setResult_self.symm.trans hnew)
      rw [hs']
      exact hsenders res hr
    · exact hsenders new ((State.setResult_of_ne hcr).symm.trans hnew)
  · intro i queue' hi
    obtain ⟨old, hold, hsame, -⟩ := hcase i queue' hi
    rw [hsame]
    exact h.nodup i old hold
  · intro i hi
    have hir : i ≠ r := fun heq => absurd hlt (Nat.not_lt.mpr (heq ▸ hi))
    exact (State.setResult_of_ne hir).trans (h.fresh i hi)
  · intro i queue' hi hx
    obtain ⟨old, hold, hsame, -, hhas⟩ := hcase i queue' hi
    rw [hhas, h.bit i old hold hx]
    constructor
    · rintro (⟨c, rest, old', htop, hold', hreplied⟩ | hhead)
      · by_cases hcr : c = r
        · subst hcr
          exact ⟨c, rest, res', hsame.trans htop, State.setResult_self, hrep⟩
        · exact ⟨c, rest, old', hsame.trans htop, (State.setResult_of_ne hcr).trans hold', hreplied⟩
      · obtain ⟨rest, htop⟩ := List.head?_eq_some_iff.mp hhead
        exact ⟨r, rest, res', hsame.trans htop, State.setResult_self, hrep⟩
    · rintro ⟨c, rest, new, htop, hnew, hreplied⟩
      rw [hsame] at htop
      by_cases hcr : c = r
      · right
        rw [htop, hcr]
        rfl
      · exact .inl ⟨c, rest, new, htop, (State.setResult_of_ne hcr).symm.trans hnew, hreplied⟩

end Tracks

/-! ## Computations -/

theorem tracks_modify {f : State → State} (hq : ∀ s, (f s).queues = s.queues)
    (hr : ∀ s, (f s).results = s.results) (hn : ∀ s, s.next ≤ (f s).next) :
    Keeps (Tracks x) (modify f : M PUnit) :=
  Keeps.modify fun s hs => hs.of_eq (hq s) (hr s) (hn s)

theorem tracks_getQueue {f : Queue → M α} (hf : ∀ queue s, Tracks x s → s.queues q = some queue →
    wp (f queue) (fun _ s' => Tracks x s') (fun _ => True) s) :
    Keeps (Tracks x) (getQueue q >>= f) := by
  intro s hs
  rw [wp_bind]
  exact wp_getQueue.mpr ⟨fun queue hq => hf queue s hs hq, fun _ => trivial⟩

theorem tracks_getResult {f : MessageResult → M α} (hf : ∀ res s, Tracks x s →
    s.results r = some res → wp (f res) (fun _ s' => Tracks x s') (fun _ => True) s) :
    Keeps (Tracks x) (getResult r >>= f) := by
  intro s hs
  rw [wp_bind]
  exact wp_getResult.mpr ⟨fun res hr => hf res s hs hr, fun _ => trivial⟩

/-- The queue that was read is written back with the same waits. -/
theorem tracks_setQueue {f : PUnit → M α} (h : Tracks x s) (hq : s.queues q = some queue)
    (hw : queue.Waits other) (hf : Keeps (Tracks x) (f ⟨⟩)) :
    wp (setQueue q other >>= f) (fun _ s' => Tracks x s') (fun _ => True) s := by
  simp only [wp_bind, Queues.setQueue, wp_modify]
  exact hf _ (h.setQueue hq hw)

theorem tracks_setError (e : Status) : Keeps (Tracks x) (setError e) :=
  tracks_modify (fun _ => rfl) (fun _ => rfl) fun _ => Nat.le_refl _

theorem tracks_malloc : Keeps (Tracks x) malloc :=
  fun _ hs => hs.of_eq rfl rfl (Nat.le_refl _)

theorem tracks_alloc : Keeps (Tracks x) alloc :=
  fun _ hs => wp_alloc fun _ _ _ => hs.of_eq rfl rfl (Nat.le_refl _)

theorem tracks_newAddress : Keeps (Tracks x) newAddress :=
  fun _ hs => hs.of_eq rfl rfl (Nat.le_succ _)

theorem tracks_threadQueue (thread : ℕ) : Keeps (Tracks x) (threadQueue thread) := fun _ hs => hs

theorem tracks_removeTimeoutUser (r : ℕ) (timeout : Bool) :
    Keeps (Tracks x) (removeTimeoutUser r timeout) := by
  intro s hs
  cases timeout <;> exact hs.of_eq rfl rfl (Nat.le_refl _)

namespace Queue

theorem waits_setBits {bits : BitVec 32} (h : ¬ Overlaps bits qsSmresult) :
    queue.Waits (queue.setBits bits) := ⟨rfl, rfl, has_setBits_iff h⟩

theorem Waits.trans {last : Queue} (h : queue.Waits other) (h' : other.Waits last) :
    queue.Waits last :=
  ⟨h'.sends.trans h.sends, h'.calls.trans h.calls, h'.bit.trans h.bit⟩

theorem waits_clearBits {bits : BitVec 32} (h : ¬ Overlaps bits qsSmresult) :
    queue.Waits (queue.clearBits bits) := ⟨rfl, rfl, has_clearBits_iff h⟩

theorem waits_deliver (msg : Message) (kind : MessageKind) :
    queue.Waits ((queue.setMsgList (queue.msgList kind ++ [msg]) kind).setBits kind.bits) := by
  cases kind with
  | sendMessage => exact ⟨rfl, rfl, has_setBits_iff (by decide)⟩
  | postMessage => exact ⟨rfl, rfl, has_setBits_iff (by decide)⟩

theorem waits_dropMessage (msg : Message) (kind : MessageKind) :
    queue.Waits (queue.dropMessage msg kind) := by
  cases kind with
  | sendMessage =>
    simp only [dropMessage]
    split
    · exact ⟨rfl, rfl, has_clearBits_iff (by decide)⟩
    · exact ⟨rfl, rfl, Iff.rfl⟩
  | postMessage =>
    simp only [dropMessage]
    split
    · exact ⟨rfl, rfl, has_clearBits_iff (by decide)⟩
    · exact ⟨rfl, rfl, Iff.rfl⟩

theorem waits_setMsgList (l : List Message) (kind : MessageKind) :
    queue.Waits (queue.setMsgList l kind) := by
  cases kind with
  | sendMessage => exact ⟨rfl, rfl, Iff.rfl⟩
  | postMessage => exact ⟨rfl, rfl, Iff.rfl⟩

theorem waits_setNextTimer (pending expired : List Timer) (timeout : Bool) :
    queue.Waits { queue with
      pendingTimers := pending, expiredTimers := expired, timeout := timeout }.setNextTimer := by
  simp only [setNextTimer]
  split
  · exact ⟨rfl, rfl, has_clearBits_iff (by decide)⟩
  · exact ⟨rfl, rfl, has_setBits_iff (by decide)⟩

theorem waits_freeTimer (id : ℕ) : queue.Waits (queue.freeTimer id) := waits_setNextTimer ..

theorem waits_cleanupTimers (win : ℕ) (timers : List Timer) :
    queue.Waits (queue.cleanupTimers win timers) := by
  rw [cleanupTimers]
  induction timers.filter (·.win = win) generalizing queue with
  | nil => exact ⟨rfl, rfl, Iff.rfl⟩
  | cons timer rest ih => exact (waits_freeTimer timer.id).trans ih

theorem waits_setTimer (timer : Timer) (rate now : ℕ) :
    queue.Waits (queue.setTimer timer rate now) := by
  simp only [setTimer]
  split
  · exact waits_setNextTimer ..
  · exact ⟨rfl, rfl, Iff.rfl⟩

theorem waits_restartTimer (timer : Timer) (now : ℕ) :
    queue.Waits (queue.restartTimer timer now) := waits_setNextTimer ..

theorem waits_incPaintCount (incr : ℤ) : queue.Waits (queue.incPaintCount incr) := by
  simp only [incPaintCount]
  split
  · exact ⟨rfl, rfl, has_setBits_iff (by decide)⟩
  · exact ⟨rfl, rfl, has_clearBits_iff (by decide)⟩

end Queue

theorem tracks_deliver (q : ℕ) (kind : MessageKind) (msg : Message) :
    Keeps (Tracks x) (deliver q kind msg) := by
  intro s hs
  cases hq : s.queues q with
  | none =>
    simp only [deliver, addTail, wp_bind, wp_getQueue, hq]
    exact ⟨fun _ h => (by cases h), fun _ => trivial⟩
  | some queue =>
    rw [wp_deliver hq]
    exact hs.setQueue hq (Queue.waits_deliver msg kind)

/-- A result without a sender is freed. -/
theorem wp_freeUnsent (h : Tracks x s) (hr : s.results r = some res) (hs : res.sender = none) :
    wp (freeResult r) (fun _ s' => Tracks x s' ∧ s'.queues = s.queues ∧
      (∀ i, i ≠ r → s'.results i = s.results i) ∧ s'.results r = none) (fun _ => True) s := by
  simp only [freeResult, removeTimeoutUser, wp_bind, wp_getResult_of hr, wp_modify,
    removeTimeoutUser_eq]
  refine ⟨?_, rfl, fun i hi => State.setResult_of_ne hi, State.setResult_self⟩
  exact (h.setLoose (h.loose hr (.inl hs)) hr fun _ ho => (by cases ho)).of_eq rfl rfl (Nat.le_refl _)

/-- The result leaves the lists of its sender; the queues keep the rest. -/
theorem wp_unlinkResult {y : Option ℕ} (h : Tracks x s) (hr : s.results r = some res)
    (hq : s.queues q = some queue) (hs : res.sender = some q)
    (hy : y = x ∧ Loose r s ∨ y = some q ∧ (x = none ∨ x = some q)) :
    wp (removeResultFromSender r) (fun _ s' => Tracks y s' ∧
      s'.queues q = some { queue with
        sendResult := queue.sendResult.erase r
        callbackResult := queue.callbackResult.erase r } ∧
      (∀ i, i ≠ r → s'.results i = s.results i) ∧
      ∀ res', s'.results r = some res' → res'.sender = none) (fun _ => True) s := by
  simp only [removeResultFromSender, wp_bind, wp_getResult_of hr, hs, wp_getQueue_of hq,
    Queues.setQueue, Queues.setResult, wp_modify, abandons_eq, wp_ite, wp_pure]
  have hun : Tracks y ((s.setQueue q (some { queue with
      sendResult := queue.sendResult.erase r
      callbackResult := queue.callbackResult.erase r })).setResult r
        (some { res with sender := none })) :=
    h.unlink hq hr hs hy fun _ ho => (by cases ho; rfl)
  refine ⟨fun _ => ?_, fun _ => ⟨hun.of_eq rfl rfl (Nat.le_refl _), State.setQueue_self,
    fun i hi => State.setResult_of_ne hi, fun res' hres' => ?_⟩⟩
  · refine wp_mono (wp_freeUnsent (hun.of_eq rfl rfl (Nat.le_refl _)) State.setResult_self rfl) ?_
    rintro _ s' ⟨htracks, hqueues, hresults, hgone⟩
    refine ⟨htracks, ?_, fun i hi => ?_, fun res' hres' => ?_⟩
    · rw [hqueues]
      exact State.setQueue_self
    · rw [hresults i hi]
      exact State.setResult_of_ne hi
    · rw [hgone] at hres'
      cases hres'
  · cases State.setResult_self.symm.trans hres'
    rfl

theorem Loose.setQueue (hl : Loose r s) (hq : s.queues q = some queue) (hw : queue.Waits other) :
    Loose r (s.setQueue q (some other)) := by
  intro i queue' hi
  by_cases hiq : i = q
  · subst hiq
    rw [State.setQueue_self] at hi
    cases hi
    rw [hw.sends]
    exact hl i queue hq
  · rw [State.setQueue_of_ne hiq] at hi
    exact hl i queue' hi

/-- The sender is told if it waits for the result that has been stored. -/
theorem wp_tellSender (hq : s.queues q = some queue)
    (h : ∀ other : Queue, other.sendResult = queue.sendResult →
      other.callbackResult = queue.callbackResult →
      (other.Has qsSmresult ↔ queue.Has qsSmresult ∨ queue.sendResult.head? = some r) →
      Tracks x (s.setQueue q (some other))) :
    wp (do
      let queue ← getQueue q
      if queue.sendResult.head? = some r then setQueueBits q qsSmresult else pure ())
      (fun _ s' => Tracks x s') (fun _ => True) s := by
  rw [wp_bind, wp_getQueue_of hq, wp_ite]
  refine ⟨fun hhead => ?_, fun hhead => ?_⟩
  · rw [wp_setQueueBits hq]
    exact h _ rfl rfl (iff_of_true (Queue.has_setBits_self (by decide)) (.inr hhead))
  · rw [wp_pure]
    refine (h queue rfl rfl (or_iff_left hhead).symm).of_eq ?_ rfl (Nat.le_refl _)
    show s.queues = Function.update s.queues q (some queue)
    rw [← hq, Function.update_eq_self]

/-- The callback message of a loose result is delivered. -/
theorem wp_callBack (res : MessageResult) {msg : Message} (h : Tracks x s) (hl : Loose r s)
    (hr : s.results r = some res) (hs : res.sender = some q) :
    wp (do
      deliver q .sendMessage msg
      setResult r { res with callbackMsg := none }
      removeResultFromSender r) (fun _ s' => Tracks x s') (fun _ => True) s := by
  rw [wp_bind]
  cases hq : s.queues q with
  | none =>
    simp only [deliver, addTail, wp_bind, wp_getQueue, hq]
    exact ⟨fun _ h => (by cases h), fun _ => trivial⟩
  | some queue =>
    have hw : queue.Waits _ := Queue.waits_deliver msg .sendMessage
    have hl' := hl.setQueue hq hw
    rw [wp_deliver hq, wp_bind, Queues.setResult, wp_modify]
    have hset : Tracks x ((s.setQueue q (some ((queue.setMsgList (queue.msgList .sendMessage ++ [msg])
        .sendMessage).setBits MessageKind.sendMessage.bits))).setResult r
          (some { res with callbackMsg := none })) :=
      (h.setQueue hq hw).setLoose hl' hr fun _ ho => by
        cases ho
        exact .inr rfl
    refine wp_mono (wp_unlinkResult hset State.setResult_self State.setQueue_self hs
      (.inl ⟨rfl, hl'⟩)) fun _ _ h => h.1

theorem tracks_storeMessageResult (r result : ℕ) (error : Option Status) :
    Keeps (Tracks x) (storeMessageResult r result error) := by
  refine tracks_getResult fun res s h hr => ?_
  simp only [removeTimeoutUser, wp_bind, wp_modify, removeTimeoutUser_eq, Queues.setResult]
  cases hs : res.sender with
  | none =>
    rw [wp_pure]
    exact (h.setLoose (h.loose hr (.inl hs)) hr fun _ ho => by cases ho; exact .inl rfl).of_eq
      rfl rfl (Nat.le_refl _)
  | some q =>
    dsimp only
    rw [wp_bind, wp_modify]
    cases hc : res.callbackMsg with
    | none =>
      cases hq : s.queues q with
      | none =>
        dsimp only
        rw [wp_bind]
        refine wp_getQueue.mpr ⟨fun queue hq' => ?_, fun _ => trivial⟩
        cases hq.symm.trans hq'
      | some queue =>
        refine wp_tellSender hq fun other hsends hcalls hbit => ?_
        exact (h.reply { res with
          sender := some q, result := result, error := error, replied := true
          callbackMsg := none, timeout := false } hq hr hs hs.symm hc.symm rfl hsends hcalls hbit).of_eq
            rfl rfl (Nat.le_refl _)
    | some msg =>
      have hl := h.loose hr (.inr (by rw [hc]; exact Option.some_ne_none _))
      have hstored : Tracks x (s.setResult r (some { res with
          sender := some q, result := result, error := error, replied := true
          callbackMsg := some msg, timeout := false })) :=
        h.setLoose hl hr fun _ ho => by
          cases ho
          exact .inr hs.symm
      exact wp_callBack { res with
          sender := some q, result := result, error := error, replied := true
          callbackMsg := some msg, timeout := false }
        (hstored.of_eq rfl rfl (Nat.le_refl _)) hl State.setResult_self rfl

/-- A result is written back after a change that is nothing to its sender. -/
theorem tracks_setResult {f : PUnit → M α} (h : Tracks x s) (hr : s.results r = some res)
    (hs : res'.sender = res.sender) (hc : res'.callbackMsg = res.callbackMsg)
    (hrep : res'.replied = res.replied)
    (hf : ∀ s', Tracks x s' → s'.results r = some res' →
      wp (f ⟨⟩) (fun _ s'' => Tracks x s'') (fun _ => True) s') :
    wp (setResult r res' >>= f) (fun _ s' => Tracks x s') (fun _ => True) s := by
  simp only [wp_bind, Queues.setResult, wp_modify]
  exact hf _ (h.setResult hr hs hc hrep) State.setResult_self

/-- A result without a sender is freed, and otherwise it is answered. -/
theorem wp_freeOr {m : M PUnit} {sender : Option ℕ} (h : Tracks x s) (hr : s.results r = some res)
    (hs : res.sender = sender) (hm : Keeps (Tracks x) m) :
    wp (if sender.isNone then freeResult r else m) (fun _ s' => Tracks x s') (fun _ => True) s := by
  rw [wp_ite]
  refine ⟨fun hnone => ?_, fun _ => hm s h⟩
  have hunsent := hs.trans (Option.isNone_iff_eq_none.mp hnone)
  exact wp_mono (wp_freeUnsent h hr hunsent) fun _ _ h => h.1

theorem tracks_freeMessage (msg : Message) : Keeps (Tracks x) (freeMessage msg) := by
  unfold freeMessage
  cases msg.result with
  | none => exact .pure _
  | some r =>
    refine tracks_getResult fun res s h hr => ?_
    rw [wp_ite]
    refine ⟨fun _ => ?_, fun hnone => ?_⟩
    · exact tracks_setResult h hr rfl rfl rfl fun s' h' _ => tracks_storeMessageResult _ _ _ s' h'
    · refine tracks_setResult h hr rfl rfl rfl fun s' h' hr' => ?_
      have hs : res.sender = none := by simpa using hnone
      exact wp_mono (wp_freeUnsent h' hr' hs) fun _ _ h => h.1

theorem tracks_removeQueueMessage (q : ℕ) (msg : Message) (kind : MessageKind) :
    Keeps (Tracks x) (removeQueueMessage q msg kind) :=
  tracks_getQueue fun _ _ h hq => tracks_setQueue h hq (Queue.waits_dropMessage msg kind)
    (tracks_freeMessage msg)

theorem tracks_resultTimeout (r : ℕ) : Keeps (Tracks x) (resultTimeout r) := by
  refine (tracks_removeTimeoutUser _ _).bind fun _ => tracks_getResult fun res s h hr => ?_
  rw [wp_ite]
  refine ⟨fun _ => trivial, fun _ => ?_⟩
  refine tracks_setResult h hr rfl rfl rfl fun s' h' hr' => ?_
  dsimp only
  cases res.msg with
  | none => exact tracks_storeMessageResult _ _ _ s' h'
  | some m =>
    cases res.receiver with
    | none => trivial
    | some q =>
      rw [wp_bind]
      refine wp_getQueue.mpr ⟨fun queue hq => ?_, fun _ => trivial⟩
      cases queue.sendMsgs.find? (·.id = m) with
      | none => trivial
      | some msg =>
        simp only [removeQueueMessage, freeMessage, wp_bind, wp_getQueue_of hq, Queues.setQueue,
          Queues.setResult, wp_modify, wp_pure]
        have hw : queue.Waits _ := Queue.waits_dropMessage { msg with result := none } .sendMessage
        have hset := h'.setQueue hq hw
        exact wp_freeOr (hset.setResult hr' rfl rfl rfl) State.setResult_self rfl
          (tracks_storeMessageResult _ _ _)

theorem tracks_answer (r result : ℕ) (error : Option Status) (len : ℕ) :
    Keeps (Tracks x) (answer r result error len) := by
  refine tracks_getResult fun res s h hr => ?_
  rw [wp_ite]
  refine ⟨fun _ => h, fun _ => ?_⟩
  rw [wp_bind]
  refine wp_allocIf fun granted n e => ?_
  have h' : Tracks x { s with allocs := n, error := e } := h.of_eq rfl rfl (Nat.le_refl _)
  cases granted with
  | true =>
    exact tracks_setResult h' hr rfl rfl rfl fun s' h'' _ =>
      tracks_storeMessageResult _ _ _ s' h''
  | false =>
    exact tracks_setResult h' hr rfl rfl rfl fun s' h'' _ =>
      tracks_storeMessageResult _ _ _ s' h''

theorem tracks_replyMessage (q result : ℕ) (error : Option Status) (remove : Bool) (len : ℕ) :
    Keeps (Tracks x) (replyMessage q result error remove len) := by
  refine tracks_getQueue fun queue s h hq => ?_
  cases queue.recvResult with
  | nil => trivial
  | cons r rest =>
    dsimp only
    rw [wp_ite]
    refine ⟨fun _ => ?_, fun _ => tracks_answer _ _ _ _ s h⟩
    refine tracks_setQueue h hq ⟨rfl, rfl, Iff.rfl⟩ (tracks_getResult fun res s' h' hr => ?_)
    refine tracks_setResult h' hr rfl rfl rfl fun s'' h'' hr'' => ?_
    exact wp_freeOr h'' hr'' rfl (tracks_answer _ _ _ _)

/-! ## A queue that is destroyed -/

/-- The results in a list have no other sender than the queue. -/
def SentBy (q : ℕ) (l : List ℕ) (s : State) : Prop :=
  ∀ r ∈ l, ∀ res, s.results r = some res → res.sender = none ∨ res.sender = some q

theorem Tracks.mono (h : Tracks none s) (q : ℕ) : Tracks (some q) s :=
  ⟨h.sent, h.calls, h.nodup, h.fresh, fun i queue hi _ => h.bit i queue hi fun h => by cases h⟩

theorem wp_giveUp {l : List ℕ} (h : Tracks (some q) s) (hl : SentBy q l s) :
    wp (forM l removeResultFromSender) (fun _ s' => Tracks (some q) s') (fun _ => True) s := by
  refine wp_mono (wp_forM_rest (I := fun l s => Tracks (some q) s ∧ SentBy q l s) ?_ ⟨h, hl⟩)
    fun _ _ h => h.1
  rintro r l s ⟨h, hl⟩
  cases hr : s.results r with
  | none =>
    simp only [removeResultFromSender, wp_bind, wp_getResult, hr]
    exact ⟨fun _ h => (by cases h), fun _ => trivial⟩
  | some res =>
    obtain hs | hs := hl r List.mem_cons_self res hr
    · simp only [removeResultFromSender, wp_bind, wp_getResult_of hr, hs]
      trivial
    cases hq : s.queues q with
    | none =>
      simp only [removeResultFromSender, wp_bind, wp_getResult_of hr, hs, wp_getQueue, hq]
      exact ⟨fun _ h => (by cases h), fun _ => trivial⟩
    | some queue =>
      refine wp_mono (wp_unlinkResult h hr hq hs (.inr ⟨rfl, .inr rfl⟩)) ?_
      rintro _ s' ⟨h', -, hrest, hgone⟩
      refine ⟨h', fun i hi res' hres' => ?_⟩
      by_cases hir : i = r
      · rw [hir] at hres'
        exact .inl (hgone res' hres')
      · rw [hrest i hir] at hres'
        exact hl i (List.mem_cons_of_mem r hi) res' hres'

theorem tracks_cleanupResults (q : ℕ) : Keeps (Tracks (some q)) (cleanupResults q) := by
  refine tracks_getQueue fun queue s h hq => ?_
  rw [wp_bind]
  have hsent : SentBy q queue.sendResult s := by
    intro r hm res hr
    obtain ⟨old, hold, hs, -⟩ := h.sent q queue hq r hm
    rw [hr] at hold
    cases hold
    exact .inr hs
  refine wp_mono (wp_giveUp h hsent) fun _ s₁ h₁ => ?_
  refine tracks_getQueue (fun queue s h hq => ?_) s₁ h₁
  rw [wp_bind]
  refine wp_mono (wp_giveUp h fun r hm => (h.calls q queue hq r hm).2) fun _ s₂ h₂ => ?_
  refine tracks_getQueue (fun queue s h _ => ?_) s₂ h₂
  exact Keeps.forM (fun r _ => tracks_replyMessage _ _ _ _ _) s h

/-- The waits of a queue go on while its messages are freed. -/
theorem tracks_emptyMsgList (q : ℕ) (kind : MessageKind) :
    Keeps (Tracks x) (emptyMsgList q kind) := by
  refine tracks_getQueue fun queue s h _ => ?_
  refine Keeps.forM (fun msg _ => tracks_getQueue fun queue s h hq => ?_) s h
  exact tracks_setQueue h hq (Queue.waits_setMsgList _ kind) (tracks_freeMessage msg)

theorem tracks_msgQueueDestroy (q : ℕ) : Keeps (Tracks none) (msgQueueDestroy q) := by
  have hlists : Keeps (Tracks (some q)) (do
      cleanupResults q
      emptyMsgList q .sendMessage
      emptyMsgList q .postMessage : M PUnit) :=
    (tracks_cleanupResults q).bind fun _ => (tracks_emptyMsgList q _).bind fun _ =>
      tracks_emptyMsgList q _
  intro s hs
  have hw := hlists s (hs.mono q)
  simp only [msgQueueDestroy, wp_bind, wp_modify] at hw ⊢
  refine wp_mono hw fun _ s₁ h₁ => wp_mono h₁ fun _ s₂ h₂ => wp_mono h₂ fun _ s₃ h₃ => ?_
  exact h₃.dropQueue

end Wine.Queues
