import Wine.Hooks.Counts

/-!
# Hooks of chains in use

What each request does to the use counts and to the hooks, and what follows for runs: a removed hook
goes only when no thread is left between start and finish of its chain. A finish releases the chain of
the thread and that of the desktop, whichever the start was counted on, so that this holds only while
no count is there but the one of the start.
-/

namespace Wine.Hooks
open Wine.Lib
open Wine.Server (Status intMax)

/-- Nothing but the posted events changed. -/
def Posts (s s' : State) : Prop := ∃ l, s' = { s with posted := l }

theorem Posts.trans {s s' s'' : State} (h : Posts s s') (h' : Posts s' s'') : Posts s s'' := by
  obtain ⟨l, rfl⟩ := h
  obtain ⟨l', rfl⟩ := h'
  exact ⟨l', rfl⟩

theorem Posts.refl (s : State) : Posts s s := ⟨s.posted, rfl⟩

theorem Posts.inv {s s' : State} (h : Posts s s') (hs : Inv s) : Inv s' := by
  obtain ⟨l, rfl⟩ := h
  exact ⟨hs.linked, hs.placed, hs.nodup, hs.fresh⟩

/-- What a request keeps, with what is true of the hooks that it frees. -/
structure Kept (s s' : State) : Prop where
  inv : Inv s'
  counted : Counted s'
  reached : StartsReached s'
  freed : ∀ h hook, s.hook h = some hook → s'.hook h = none →
    countOf s' hook.table hook.index = 0

theorem Kept.of_posts {s s' : State} (hs : Inv s) (hc : Counted s) (hr : StartsReached s)
    (h : Posts s s') : Kept s s' := by
  have hi := h.inv hs
  obtain ⟨l, rfl⟩ := h
  refine ⟨hi, hc, hr, fun h hook hh hn => ?_⟩
  cases hh.symm.trans hn

/-! ## Searches -/

section
variable {s : State} {current : ThreadId} {e : WinEvent}

theorem wp_firstValidHook {chain : List HookId} (hl : ∀ h ∈ chain, ∃ hook, s.hook h = some hook) :
    wp (firstValidHook current e chain) (fun r s' => Posts s s' ∧ ∀ h hook, r = some (h, hook) →
      h ∈ chain ∧ s.hook h = some hook) NotDangling s := by
  induction chain generalizing s with
  | nil => exact ⟨Posts.refl s, fun _ _ hr => (by cases hr)⟩
  | cons h chain ih =>
    obtain ⟨hook, hh⟩ := hl h List.mem_cons_self
    have hrest : ∀ g ∈ chain, ∃ hook, s.hook g = some hook :=
      fun g hg => hl g (List.mem_cons_of_mem _ hg)
    have hskip : ∀ s₁, Posts s s₁ → wp (firstValidHook current e chain) (fun r s' => Posts s s' ∧
        ∀ g hook, r = some (g, hook) → g ∈ h :: chain ∧ s.hook g = some hook) NotDangling s₁ := by
      rintro s₁ hp
      have hsame : s₁.hook = s.hook := by
        obtain ⟨l, rfl⟩ := hp
        rfl
      refine wp_mono (ih (s := s₁) (by rwa [hsame])) ?_
      rintro r s' ⟨hp', hr⟩
      refine ⟨hp.trans hp', fun g hook' hg => ?_⟩
      obtain ⟨hmem, hhook⟩ := hr g hook' hg
      exact ⟨List.mem_cons_of_mem _ hmem, hsame ▸ hhook⟩
    rw [firstValidHook, wp_bind, wp_get, wp_bind]
    refine wp_readHook hh ?_
    rw [wp_ite]
    refine ⟨fun _ => ?_, fun _ => hskip s (Posts.refl s)⟩
    rw [wp_ite]
    refine ⟨fun _ => ⟨Posts.refl s, fun g hook' hg => ?_⟩, fun _ => ?_⟩
    · cases hg
      exact ⟨List.mem_cons_self, hh⟩
    · rw [wp_ite]
      refine ⟨fun _ hc => (by cases hc), fun _ => ?_⟩
      rw [wp_bind, wp_modify]
      exact hskip _ ⟨_, rfl⟩

theorem wp_getFirstValidHook (hs : Inv s) {table : Option TableId}
    (ht : ∀ id, table = some id → ∃ t, s.table id = some t) (index : ℕ) :
    wp (getFirstValidHook current table index e) (fun r s' => Posts s s' ∧ ∀ h hook,
      r = some (h, hook) → table = some hook.table ∧ hook.index = index) NotDangling s := by
  cases table with
  | none => exact ⟨Posts.refl s, fun _ _ hr => (by cases hr)⟩
  | some id =>
    obtain ⟨t, ht⟩ := ht id rfl
    simp only [getFirstValidHook, wp_bind]
    refine wp_readTable ht ?_
    refine wp_mono (wp_firstValidHook fun h hh => ?_) ?_
    · obtain ⟨hook, hh, -⟩ := hs.linked id t index h ht hh
      exact ⟨hook, hh⟩
    · rintro r s' ⟨hp, hr⟩
      refine ⟨hp, fun h hook hh => ?_⟩
      obtain ⟨hmem, hhook⟩ := hr h hook hh
      obtain ⟨hook', hh', hid, hi⟩ := hs.linked id t index h ht hmem
      obtain rfl := Option.some.inj (hhook.symm.trans hh')
      exact ⟨by rw [hid], hi⟩

theorem queueHooks_eq {t : ThreadId} {id : TableId} (h : queueHooks s t = some id) :
    id = .queue t ∧ ∃ t, s.table id = some t := by
  unfold queueHooks at h
  split at h
  · rename_i hsome
    cases h
    exact ⟨rfl, Option.isSome_iff_exists.mp hsome⟩
  · cases h

theorem getGlobalHooks_eq {t : ThreadId} {id : TableId} (h : getGlobalHooks s t = some id) :
    (∃ d, s.desktop t = some d ∧ id = .global d) ∧ ∃ t, s.table id = some t := by
  unfold getGlobalHooks at h
  split at h
  · rename_i d hd
    split at h
    · rename_i hsome
      cases h
      exact ⟨⟨d, hd, rfl⟩, Option.isSome_iff_exists.mp hsome⟩
    · cases h
  · cases h

theorem wp_getNextHook (hs : Inv s) {h : HookId} {hook : Hook} (hh : s.hook h = some hook) :
    wp (getNextHook current h hook e) (fun _ s' => Posts s s') NotDangling s := by
  obtain ⟨t, ht⟩ := hs.placed h hook hh
  rw [getNextHook, wp_bind]
  refine wp_readTable ht ?_
  rw [wp_bind]
  refine wp_mono (wp_firstValidHook fun g hg => ?_) ?_
  · have hmem : g ∈ t.hooks hook.index :=
      (List.dropWhile_suffix _).subset (List.mem_of_mem_tail hg)
    obtain ⟨hook', hg', -⟩ := hs.linked hook.table t hook.index g ht hmem
    exact ⟨hook', hg'⟩
  · rintro r s₁ ⟨hp, -⟩
    cases r with
    | some next => exact hp
    | none =>
      simp only [wp_bind, wp_get]
      rw [wp_ite]
      refine ⟨fun _ => ?_, fun _ => hp⟩
      refine wp_mono (wp_getFirstValidHook (hp.inv hs) (fun id hid => (getGlobalHooks_eq hid).2) _) ?_
      exact fun _ s' h' => hp.trans h'.1

/-! ## Requests that count nothing -/

/-- A request that keeps the counts and frees hooks of chains that are not in use. -/
theorem Kept.of_frame {s' : State} (hc : Counted s) (hr : StartsReached s) (hs' : Inv s')
    (hf : Frame s s') (hcount : ∀ id i, countOf s' id i = countOf s id i)
    (hfreed : ∀ g hook, s.hook g = some hook → s'.hook g = none →
      countOf s hook.table hook.index = 0) : Kept s s' where
  inv := hs'
  counted id i := by rw [hcount, hf.starts, hc id i]
  reached p hp := by
    rw [hf.starts] at hp
    obtain hq | ⟨d, hd, hid⟩ := hr p hp
    · exact Or.inl hq
    · exact Or.inr ⟨d, by rw [hf.desktop, hd], hid⟩
  freed g hook hg hn := by rw [hcount, hfreed g hook hg hn]

theorem wp_setError (hs : Inv s) (hc : Counted s) (hr : StartsReached s) (err : Status)
    {E : Fault → Prop} : wp (setError err) (fun _ s' => Kept s s') E s := by
  rw [setError, wp_modify]
  refine .of_frame hc hr ⟨hs.linked, hs.placed, hs.nodup, hs.fresh⟩
    ⟨rfl, rfl, fun _ t ht => ⟨t, ht⟩, fun g hook hg => ⟨hook, hg, rfl, rfl⟩⟩ (fun _ _ => rfl) fun g hook hg hn => ?_
  cases hg.symm.trans hn

/-- A table that is there from now on is empty. -/
theorem Inv.openTable (hs : Inv s) (id : TableId) :
    Inv (s.setTable id ((s.table id).getD allocHookTable)) ∧
      (∀ id' i, countOf (s.setTable id ((s.table id).getD allocHookTable)) id' i =
        countOf s id' i) := by
  cases ht : s.table id with
  | some t =>
    have hsame : s.setTable id t = s := by
      rw [State.setTable, Function.update_eq_self_iff.mpr ht.symm]
    rw [Option.getD_some, hsame]
    exact ⟨hs, fun _ _ => rfl⟩
  | none =>
    rw [Option.getD_none]
    have htable : ∀ id' t, (s.setTable id allocHookTable).table id' = some t →
        t = allocHookTable ∨ s.table id' = some t := by
      intro id' t ht'
      simp only [State.setTable, Function.update_apply] at ht'
      split at ht'
      · exact Or.inl (Option.some.inj ht').symm
      · exact Or.inr ht'
    refine ⟨⟨fun id' t i h ht' hh => ?_, fun h hook hh => ?_, fun id' t i ht' => ?_, hs.fresh⟩,
      fun id' i => ?_⟩
    · obtain rfl | ht' := htable id' t ht'
      · exact (List.not_mem_nil hh).elim
      · exact hs.linked id' t i h ht' hh
    · obtain ⟨t, ht'⟩ := hs.placed h hook hh
      simp only [State.setTable, Function.update_apply]
      split
      · exact ⟨_, rfl⟩
      · exact ⟨t, ht'⟩
    · obtain rfl | ht' := htable id' t ht'
      · exact List.nodup_nil
      · exact hs.nodup id' t i ht'
    · rw [countOf_setTable]
      split
      · rename_i hid
        rw [hid, countOf, ht]
        rfl
      · rfl

theorem countOf_addHook {hook : Hook} {t : HookTable} (ht : s.table hook.table = some t)
    (id : TableId) (i : ℕ) : countOf { (s.setHook s.next (some hook)).setTable hook.table
      (t.setHooks hook.index (s.next :: t.hooks hook.index)) with next := s.next + 1 } id i =
        countOf s id i := by
  refine (countOf_setTable (s := s.setHook s.next (some hook)) _ id i).trans ?_
  split
  · rename_i hid
    rw [hid, countOf_eq ht]
    rfl
  · rfl

/-- A new hook at the head of its chain. -/
theorem Inv.addHook (hs : Inv s) {hook : Hook} {t : HookTable} (ht : s.table hook.table = some t) :
    Inv { (s.setHook s.next (some hook)).setTable hook.table
      (t.setHooks hook.index (s.next :: t.hooks hook.index)) with next := s.next + 1 } := by
  have hnew : ∀ g hook', s.hook g = some hook' → g ≠ s.next := by
    rintro g hook' hg rfl
    rw [hs.fresh s.next (Nat.le_refl _)] at hg
    cases hg
  have hget : ∀ g hook', s.hook g = some hook' →
      (Function.update s.hook s.next (some hook)) g = some hook' := by
    intro g hook' hg
    rw [Function.update_of_ne (hnew g hook' hg), hg]
  refine ⟨fun id' t' i g ht' hg => ?_, fun g hook' hg => ?_, fun id' t' i ht' => ?_, fun g hg => ?_⟩
  · simp only [State.setTable, State.setHook, Function.update_apply] at ht'
    by_cases hid : id' = hook.table
    · rw [if_pos hid] at ht'
      cases ht'
      simp only [HookTable.setHooks, Function.update_apply] at hg
      split at hg
      · rename_i hi
        rcases List.mem_cons.mp hg with rfl | hg
        · exact ⟨hook, Function.update_self .., hid.symm, hi.symm⟩
        · obtain ⟨hook', hg', hid', hi'⟩ := hs.linked _ t _ g ht hg
          exact ⟨hook', hget g hook' hg', by rw [hid', hid], by rw [hi', hi]⟩
      · obtain ⟨hook', hg', hid', hi'⟩ := hs.linked _ t _ g ht hg
        exact ⟨hook', hget g hook' hg', by rw [hid', hid], hi'⟩
    · rw [if_neg hid] at ht'
      obtain ⟨hook', hg', hid', hi'⟩ := hs.linked _ t' _ g ht' hg
      exact ⟨hook', hget g hook' hg', hid', hi'⟩
  · simp only [State.setTable, State.setHook, Function.update_apply] at hg ⊢
    split at hg
    · cases hg
      exact ⟨_, if_pos rfl⟩
    · obtain ⟨t', ht'⟩ := hs.placed g hook' hg
      split
      · exact ⟨_, rfl⟩
      · exact ⟨t', ht'⟩
  · simp only [State.setTable, State.setHook, Function.update_apply] at ht'
    split at ht'
    · cases ht'
      simp only [HookTable.setHooks, Function.update_apply]
      split
      · refine List.nodup_cons.mpr ⟨fun hmem => ?_, hs.nodup _ t _ ht⟩
        obtain ⟨hook', hg', -⟩ := hs.linked _ t _ _ ht hmem
        exact hnew _ hook' hg' rfl
      · exact hs.nodup _ t _ ht
    · exact hs.nodup _ t' _ ht'
  · have hne : g ≠ s.next := by
      rintro rfl
      exact absurd hg (Nat.not_succ_le_self _)
    simp only [State.setTable, State.setHook, Function.update_of_ne hne]
    exact hs.fresh g (Nat.le_trans (Nat.le_succ _) hg)

theorem wp_addHook (hs : Inv s) (hc : Counted s) (hr : StartsReached s) {id : TableId} {hook : Hook}
    (hid : hook.table = id) (memTable memHook : Bool) :
    wp (addHook id hook memTable memHook) (fun _ s' => Kept s s') NotDangling s := by
  simp only [addHook, wp_bind, wp_get]
  rw [wp_ite]
  constructor
  · intro _
    rw [wp_bind]
    refine wp_mono (wp_setError hs hc hr _) fun _ _ h => h
  · intro _
    obtain ⟨hs₁, hc₁⟩ := hs.openTable id
    have hkept : Kept s (s.setTable id ((s.table id).getD allocHookTable)) := by
      refine .of_frame hc hr hs₁
        ⟨rfl, rfl, table_setTable id _, fun g hook hg => ⟨hook, hg, rfl, rfl⟩⟩ hc₁ fun g hook hg hn => ?_
      cases hg.symm.trans hn
    rw [wp_bind, wp_set, wp_ite]
    constructor
    · intro _
      rw [wp_bind]
      refine wp_mono (wp_setError hs₁ hkept.counted hkept.reached _) ?_
      rintro _ s' h'
      refine ⟨h'.inv, h'.counted, h'.reached, fun g hook hg hn => h'.freed g hook hg hn⟩
    · intro _
      rw [wp_bind, wp_modify]
      have ht : (s.setTable id ((s.table id).getD allocHookTable)).table hook.table =
          some ((s.table id).getD allocHookTable) := by
        simp only [State.setTable, hid, Function.update_self]
      have hs₂ := hs₁.addHook ht
      have hc₂ := countOf_addHook (s := s.setTable id ((s.table id).getD allocHookTable)) ht
      rw [hid] at hs₂ hc₂
      refine ⟨hs₂, fun id' i => (hc₂ id' i).trans (hkept.counted id' i), hkept.reached,
        fun g hook' hg hn => ?_⟩
      · have hne : g ≠ s.next := by
          rintro rfl
          rw [hs.fresh s.next (Nat.le_refl _)] at hg
          cases hg
        simp only [State.setTable, State.setHook, Function.update_of_ne hne] at hn
        cases hg.symm.trans hn

theorem wp_setHook (hs : Inv s) (hc : Counted s) (hr : StartsReached s) (req : HookInfo)
    (memTable memHook : Bool) :
    wp (setHook current req memTable memHook) (fun _ s' => Kept s s') NotDangling s := by
  simp only [setHook, wp_bind, wp_get]
  split
  · rw [wp_bind]
    exact wp_mono (wp_setError hs hc hr _) fun _ _ h => h
  · split
    · exact .of_posts hs hc hr (Posts.refl s)
    · rw [wp_ite]
      constructor
      · intro _
        rw [wp_bind]
        exact wp_mono (wp_setError hs hc hr _) fun _ _ h => h
      · intro _
        refine wp_addHook hs hc hr ?_ memTable memHook
        rfl

theorem wp_removeLive (hs : Inv s) (hc : Counted s) (hr : StartsReached s) {h : HookId} {hook : Hook}
    (hh : s.hook h = some hook) : wp (removeHook h) (fun _ s' => Kept s s') NotDangling s := by
  refine wp_mono (wp_removeHook hs hh) ?_
  rintro _ s' ⟨hs', hf, hcount, hfreed⟩
  exact .of_frame hc hr hs' hf hcount hfreed

theorem wp_removeHookRequest (hs : Inv s) (hc : Counted s) (hr : StartsReached s)
    (handle : Option HookId) (id : ℤ) (proc : Option ℕ) :
    wp (removeHookRequest current handle id proc) (fun _ s' => Kept s s') NotDangling s := by
  simp only [removeHookRequest, wp_bind, wp_get]
  split
  · rename_i h
    rw [wp_ite]
    refine ⟨fun _ => wp_setError hs hc hr _, fun hlive => ?_⟩
    obtain ⟨hook, hh⟩ := Option.ne_none_iff_exists'.mp hlive
    exact wp_removeLive hs hc hr hh
  · split
    · split
      · rename_i h hfind
        obtain ⟨t, ht, hfound⟩ := Option.bind_eq_some_iff.mp hfind
        obtain ⟨hook, hh, -⟩ := hs.linked _ t _ h ht (List.mem_of_find?_eq_some hfound)
        exact wp_removeLive hs hc hr hh
      · exact wp_setError hs hc hr _
    · exact wp_setError hs hc hr _

theorem wp_getNextHookRequest (hs : Inv s) (hc : Counted s) (hr : StartsReached s) (h : HookId) :
    wp (getNextHookRequest current h e) (fun _ s' => Kept s s') NotDangling s := by
  simp only [getNextHookRequest, wp_bind, wp_get]
  split
  · exact .of_posts hs hc hr (Posts.refl s)
  · rename_i hook hh
    rw [wp_ite]
    constructor
    · intro _
      rw [wp_bind]
      exact wp_mono (wp_setError hs hc hr _) fun _ _ h => h
    · intro _
      rw [wp_bind]
      refine wp_mono (wp_getNextHook hs hh) ?_
      rintro r s' hp
      cases r <;> exact .of_posts hs hc hr hp

/-! ## Start and finish -/

theorem wp_countStart (hs : Inv s) (hc : Counted s) (hr : StartsReached s) {id : TableId}
    (hid : Reaches s current id) (hlive : ∃ t, s.table id = some t) (index : ℕ) :
    wp (countStart current id index) (fun _ s' => Kept s s') NotDangling s := by
  obtain ⟨t, ht⟩ := hlive
  rw [countStart, wp_bind]
  refine wp_readTable ht ?_
  rw [wp_ite]
  refine ⟨fun _ => ?_, fun _ hd => (by cases hd)⟩
  rw [wp_modify]
  obtain ⟨hs', hf⟩ := hs.setCount ht index (t.counts index + 1)
  refine ⟨⟨hs'.linked, hs'.placed, hs'.nodup, hs'.fresh⟩, fun id' i => ?_, fun p hp => ?_,
    fun g hook hg hn => ?_⟩
  · refine (countOf_setCount ht index (t.counts index + 1) id' i).trans ?_
    rw [List.countP_cons, ← hc id' i]
    by_cases hsame : id' = id ∧ i = index
    · rw [if_pos hsame, hsame.1, hsame.2, countOf_eq ht]
      simp only [and_self, decide_true, if_true]
    · have hne : ¬ (id = id' ∧ index = i) := fun h => hsame ⟨h.1.symm, h.2.symm⟩
      rw [if_neg hsame]
      simp only [hne, decide_false, Bool.false_eq_true, if_false, Nat.add_zero]
  · rcases List.mem_cons.mp hp with rfl | hp
    · exact hid
    · exact hr p hp
  · cases hg.symm.trans hn

/-- A start of a chain after events were posted. -/
theorem wp_countStart_of_posts {s₁ : State} (hs : Inv s) (hc : Counted s) (hr : StartsReached s)
    (hp : Posts s s₁) {id : TableId} (hid : Reaches s current id) (hlive : ∃ t, s.table id = some t)
    (index : ℕ) : wp (countStart current id index) (fun _ s' => Kept s s') NotDangling s₁ := by
  have hi := hp.inv hs
  obtain ⟨l, rfl⟩ := hp
  refine wp_mono (wp_countStart hi hc hr hid hlive index) ?_
  exact fun _ s' h => ⟨h.inv, h.counted, h.reached, h.freed⟩

theorem Posts.same {s₁ : State} (h : Posts s s₁) : s₁.desktop = s.desktop ∧ s₁.table = s.table := by
  obtain ⟨l, rfl⟩ := h
  exact ⟨rfl, rfl⟩

theorem wp_startHookChain (hs : Inv s) (hc : Counted s) (hr : StartsReached s) (id : ℤ) :
    wp (startHookChain current id e) (fun _ s' => Kept s s') NotDangling s := by
  unfold startHookChain
  split
  · rw [wp_bind]
    exact wp_mono (wp_setError hs hc hr _) fun _ _ h => h
  · rename_i index hindex
    simp only [wp_bind, wp_get]
    refine wp_mono (wp_getFirstValidHook hs (fun id hid => (queueHooks_eq hid).2) index) ?_
    rintro r s₁ ⟨hp, hfound⟩
    split
    · rename_i id h hook hown
      obtain ⟨hid, hlive⟩ := queueHooks_eq hown
      rw [wp_bind]
      exact wp_countStart_of_posts hs hc hr hp (Or.inl hid) hlive _
    · simp only [wp_bind, wp_get]
      refine wp_mono (wp_getFirstValidHook (hp.inv hs) (fun id hid => (getGlobalHooks_eq hid).2) index) ?_
      rintro r s₂ ⟨hp₂, hfound₂⟩
      split
      · rename_i id h hook hglobal
        obtain ⟨⟨d, hd, hid⟩, hlive⟩ := getGlobalHooks_eq hglobal
        rw [hp.same.1] at hd
        rw [hp.same.2] at hlive
        rw [wp_bind]
        exact wp_countStart_of_posts hs hc hr (hp.trans hp₂) (Or.inr ⟨d, hd, hid⟩) hlive _
      · exact .of_posts hs hc hr (hp.trans hp₂)

/-- The table that the thread's last start of the chain was counted on. -/
def lastStart (s : State) (t : ThreadId) (index : ℕ) : Option TableId :=
  (s.starts.find? fun p => decide (p.thread = t ∧ p.index = index)).map (·.table)

/-- No count of the chains that a finish releases is there but that of the start it finishes. -/
def FinishesOne (s : State) (t : ThreadId) (index : ℕ) : Prop :=
  ∀ id, Reaches s t id → countOf s id index ≠ 0 → lastStart s t index = some id

/-- The number of starts without the last one of a thread. -/
theorem countP_finish (starts : List Start) (t : ThreadId) (index : ℕ) (id : TableId) (i : ℕ) :
    (starts.eraseP fun p => decide (p.thread = t ∧ p.index = index)).countP
      (fun p => decide (p.table = id ∧ p.index = i)) =
    starts.countP (fun p => decide (p.table = id ∧ p.index = i)) -
      if i = index ∧ (starts.find? fun p => decide (p.thread = t ∧ p.index = index)).map (·.table) =
        some id then 1 else 0 := by
  induction starts with
  | nil => simp
  | cons p starts ih =>
    by_cases hp : p.thread = t ∧ p.index = index
    · rw [List.eraseP_cons_of_pos (by simpa using hp), List.find?_cons_of_pos (by simpa using hp),
        List.countP_cons]
      simp only [Option.map_some, Option.some.injEq, decide_eq_true_eq, ← hp.2]
      by_cases hid : p.table = id ∧ p.index = i
      · rw [if_pos hid, if_pos ⟨hid.2.symm, hid.1⟩, Nat.add_sub_cancel]
      · rw [if_neg hid, if_neg fun h => hid ⟨h.2, h.1.symm⟩, Nat.add_zero, Nat.sub_zero]
    · rw [List.eraseP_cons_of_neg (by simpa using hp), List.find?_cons_of_neg (by simpa using hp),
        List.countP_cons, List.countP_cons, ih]
      by_cases hlast : i = index ∧ (starts.find? fun p => decide (p.thread = t ∧ p.index = index)).map
          (·.table) = some id
      · obtain ⟨q, hq, hqid⟩ := Option.map_eq_some_iff.mp hlast.2
        have hpos : 0 < starts.countP fun p => decide (p.table = id ∧ p.index = i) := by
          refine List.countP_pos_iff.mpr ⟨q, List.mem_of_find?_eq_some hq, ?_⟩
          have hsome := List.find?_some hq
          simp only [decide_eq_true_eq] at hsome ⊢
          exact ⟨hqid, hsome.2.trans hlast.1.symm⟩
        rw [if_pos hlast]
        omega
      · rw [if_neg hlast, Nat.sub_zero, Nat.sub_zero]

theorem reaches_own_or_global {t : ThreadId} {id : TableId} :
    (some id = queueHooks s t ∨ some id = getGlobalHooks s t) ↔
      Reaches s t id ∧ ∃ table, s.table id = some table := by
  constructor
  · rintro (h | h)
    · obtain ⟨hid, hlive⟩ := queueHooks_eq h.symm
      exact ⟨Or.inl hid, hlive⟩
    · obtain ⟨hid, hlive⟩ := getGlobalHooks_eq h.symm
      exact ⟨Or.inr hid, hlive⟩
  · rintro ⟨rfl | ⟨d, hd, rfl⟩, table, ht⟩
    · exact Or.inl (by simp [queueHooks, ht])
    · exact Or.inr (by simp [getGlobalHooks, hd, ht])

/-- A finish takes one from every count of the two chains. -/
theorem wp_finishReleases (hs : Inv s) {own global : Option TableId}
    (hown : ∀ id, own = some id → ∃ t, s.table id = some t)
    (hglobal : ∀ id, global = some id → ∃ t, s.table id = some t) (hne : ∀ id, own = some id →
      global ≠ some id) (index : ℕ) :
    wp (releaseIfAny own index >>= fun _ => releaseIfAny global index) (fun _ s' => Inv s' ∧
      Frame s s' ∧ (∀ id i, countOf s' id i = if i = index ∧ (some id = own ∨ some id = global) then
        countOf s id i - 1 else countOf s id i) ∧
      ∀ g hook, s.hook g = some hook → s'.hook g = none → countOf s' hook.table hook.index = 0)
      NotDangling s := by
  have hrelease : ∀ {s : State} {table : Option TableId}, Inv s →
      (∀ id, table = some id → ∃ t, s.table id = some t) →
      wp (releaseIfAny table index) (fun _ s' => Inv s' ∧ Frame s s' ∧
        (∀ id i, countOf s' id i = if i = index ∧ some id = table then countOf s id i - 1
          else countOf s id i) ∧
        ∀ g hook, s.hook g = some hook → s'.hook g = none → countOf s' hook.table hook.index = 0)
        NotDangling s := by
    intro s table hs ht
    cases table with
    | none =>
      refine ⟨hs, Frame.refl s, fun id i => by simp, fun g hook hg hn => ?_⟩
      cases hg.symm.trans hn
    | some id =>
      obtain ⟨t, ht⟩ := ht id rfl
      refine wp_mono (wp_releaseHookChain hs ht index) ?_
      rintro _ s' ⟨hs', hf, hcount, hfreed⟩
      refine ⟨hs', hf, fun id' i => ?_, hfreed⟩
      rw [hcount]
      simp only [Option.some.injEq]
      by_cases h : id' = id ∧ i = index
      · rw [if_pos h, if_pos ⟨h.2, h.1⟩, h.1, h.2]
      · rw [if_neg h, if_neg fun h' => h ⟨h'.2, h'.1⟩]
  rw [wp_bind]
  refine wp_mono (hrelease hs hown) ?_
  rintro _ s₁ ⟨hs₁, hf₁, hc₁, hfreed₁⟩
  have hglobal₁ : ∀ id, global = some id → ∃ t, s₁.table id = some t := by
    intro id hid
    obtain ⟨t, ht⟩ := hglobal id hid
    exact hf₁.table id t ht
  refine wp_mono (hrelease hs₁ hglobal₁) ?_
  rintro _ s₂ ⟨hs₂, hf₂, hc₂, hfreed₂⟩
  refine ⟨hs₂, hf₁.trans hf₂, fun id i => ?_, fun g hook hg hn => ?_⟩
  · rw [hc₂, hc₁]
    by_cases hi : i = index
    · simp only [hi, true_and]
      by_cases ho : some id = own
      · have hg : some id ≠ global := fun h => hne id ho.symm h.symm
        simp only [ho, true_or, if_true]
        rw [← ho, if_neg hg]
      · simp only [ho, false_or, if_false]
    · simp only [hi, false_and, if_false]
  · cases hmid : s₁.hook g with
    | none =>
      have hzero := hfreed₁ g hook hg hmid
      rw [hc₂]
      split <;> omega
    | some hook₁ =>
      have hzero := hfreed₂ g hook₁ hmid hn
      obtain ⟨hook', hg', hid, hi⟩ := hf₁.hook g hook₁ hmid
      obtain rfl := Option.some.inj (hg.symm.trans hg')
      rwa [hid, hi]

/-- After a finish the counts are right exactly when it released no other count. -/
theorem wp_finishHookChain (hs : Inv s) (hc : Counted s) (hr : StartsReached s) (id : ℤ) :
    wp (finishHookChain current id) (fun _ s' =>
      ((∀ index, hookIndex id = some index → FinishesOne s current index) → Kept s s') ∧
      (Counted s' → ∀ index, hookIndex id = some index → FinishesOne s current index))
      NotDangling s := by
  simp only [finishHookChain, wp_bind, wp_get]
  split
  · rename_i hindex
    refine wp_mono (wp_setError hs hc hr _) ?_
    exact fun _ s' h => ⟨fun _ => h, fun _ index hi => by rw [hindex] at hi; cases hi⟩
  · rename_i index hindex
    rw [wp_bind, wp_set]
    have hs₁ : Inv (s.finish current index) := ⟨hs.linked, hs.placed, hs.nodup, hs.fresh⟩
    refine wp_mono (wp_finishReleases hs₁ (fun id hid => (queueHooks_eq hid).2)
      (fun id hid => (getGlobalHooks_eq hid).2) (fun id ho hg => ?_) index) ?_
    · obtain ⟨d, -, hd⟩ := (getGlobalHooks_eq hg).1
      rw [(queueHooks_eq ho).1] at hd
      cases hd
    · rintro _ s' ⟨hs', hf, hcount, hfreed⟩
      have hin : ∀ id, Reaches s current id → countOf s' id index = countOf s id index - 1 := by
        intro id hreach
        refine (hcount id index).trans ?_
        by_cases hlive : ∃ table, s.table id = some table
        · exact if_pos ⟨rfl, reaches_own_or_global.mpr ⟨hreach, hlive⟩⟩
        · rw [if_neg fun h => hlive (reaches_own_or_global.mp h.2).2]
          have hzero : countOf s id index = 0 := by
            unfold countOf
            split
            · rename_i t ht
              exact absurd ⟨t, ht⟩ hlive
            · rfl
          rw [hzero]
          exact hzero
      have hout : ∀ id i, ¬ (i = index ∧ Reaches s current id) → countOf s' id i = countOf s id i :=
        fun id i hno => (hcount id i).trans
          (if_neg fun h => hno ⟨h.1, (reaches_own_or_global.mp h.2).1⟩)
      have hstarts : ∀ id i, (s'.starts.countP fun p => decide (p.table = id ∧ p.index = i)) =
          countOf s id i - if i = index ∧ lastStart s current index = some id then 1 else 0 := by
        intro id i
        rw [hf.starts, hc id i]
        exact countP_finish s.starts current index id i
      constructor
      · intro hone
        refine ⟨hs', fun id i => ?_, fun p hp => ?_, hfreed⟩
        · rw [hstarts]
          by_cases hlast : i = index ∧ lastStart s current index = some id
          · obtain ⟨p, hp, hid⟩ := Option.map_eq_some_iff.mp hlast.2
            have hthread := List.find?_some hp
            simp only [decide_eq_true_eq] at hthread
            have hreach := hr p (List.mem_of_find?_eq_some hp)
            rw [hthread.1, hid] at hreach
            rw [if_pos hlast, hlast.1, hin id hreach]
          · rw [if_neg hlast, Nat.sub_zero]
            by_cases hi : i = index ∧ Reaches s current id
            · have hzero : countOf s id index = 0 := by
                by_contra hpos
                exact hlast ⟨hi.1, hone index hindex id hi.2 hpos⟩
              rw [hi.1, hin id hi.2, hzero]
            · exact hout id i hi
        · rw [hf.starts] at hp
          obtain hq | ⟨d, hd, hid⟩ := hr p (List.mem_of_mem_eraseP hp)
          · exact Or.inl hq
          · exact Or.inr ⟨d, by rw [hf.desktop]; exact hd, hid⟩
      · intro hc' index' hindex' id hreach hpos
        obtain rfl := Option.some.inj (hindex.symm.trans hindex')
        by_contra hlast
        have heq := hc' id index
        rw [hstarts, if_neg fun h => hlast h.2, hin id hreach] at heq
        omega

end

/-! ## Runs -/

/-- Every finish releases no count but that of the start it finishes. -/
def FinishesOwn (s : State) : Action → Prop
  | .finishHookChain current id => ∀ index, hookIndex id = some index → FinishesOne s current index
  | _ => True

theorem wp_act {s : State} (hs : Inv s) (hc : Counted s) (hr : StartsReached s) (a : Action) :
    wp (act a) (fun _ s' => FinishesOwn s a → Kept s s') NotDangling s := by
  cases a with
  | setHook current req memTable memHook =>
    rw [act, wp_bind]
    exact wp_mono (wp_setHook hs hc hr req memTable memHook) fun _ _ h _ => h
  | removeHook current handle id proc =>
    exact wp_mono (wp_removeHookRequest hs hc hr handle id proc) fun _ _ h _ => h
  | startHookChain current id e =>
    rw [act, wp_bind]
    exact wp_mono (wp_startHookChain hs hc hr id) fun _ _ h _ => h
  | finishHookChain current id => exact wp_mono (wp_finishHookChain hs hc hr id) fun _ _ h => h.1
  | getNextHook current h e =>
    rw [act, wp_bind]
    exact wp_mono (wp_getNextHookRequest hs hc hr h) fun _ _ h _ => h

theorem step_kept {s s' : State} {a : Action} (hs : Inv s) (hc : Counted s) (hr : StartsReached s)
    (ha : FinishesOwn s a) (hst : step s a = .ok s') : Kept s s' := by
  unfold step at hst
  cases hm : act a s with
  | error e => simp only [hm, reduceCtorEq] at hst
  | ok r =>
    simp only [hm, Except.ok.injEq] at hst
    subst hst
    exact wp_of_ok (wp_act hs hc hr a) hm ha

theorem run_kept {process : ThreadId → ProcessId} {desktop : ThreadId → Option DesktopId}
    {as : List Action} {s : State} (hr : Run step FinishesOwn (State.initial process desktop) as s) :
    Inv s ∧ Counted s ∧ StartsReached s := by
  refine hr.invariant (I := fun s => Inv s ∧ Counted s ∧ StartsReached s)
    ⟨⟨?_, ?_, ?_, fun _ _ => rfl⟩, fun _ _ => rfl, ?_⟩ ?_
  · exact fun _ _ _ _ ht => (by cases ht)
  · exact fun _ _ hh => (by cases hh)
  · exact fun _ _ _ ht => (by cases ht)
  · exact fun _ hp => (List.not_mem_nil hp).elim
  · rintro t a t' ⟨hs, hc, hr⟩ ha hst
    have hk := step_kept hs hc hr ha hst
    exact ⟨hk.inv, hk.counted, hk.reached⟩

/-- As long as every finish releases no count but that of the start it finishes, the use count of a
chain is the number of threads' starts on it that are not finished, and a hook is freed only when no
thread is left between start and finish of its chain. -/
theorem hooks_kept {process : ThreadId → ProcessId} {desktop : ThreadId → Option DesktopId}
    {as : List Action} {s : State} (hr : Run step FinishesOwn (State.initial process desktop) as s) :
    (∀ id i, countOf s id i = s.starts.countP fun p => decide (p.table = id ∧ p.index = i)) ∧
    ∀ a s', FinishesOwn s a → step s a = .ok s' → ∀ h hook, s.hook h = some hook →
      s'.hook h = none → ∀ p ∈ s'.starts, ¬ (p.table = hook.table ∧ p.index = hook.index) := by
  obtain ⟨hs, hc, hreach⟩ := run_kept hr
  refine ⟨hc, fun a s' ha hst h hook hh hn p hp hsame => ?_⟩
  have hk := step_kept hs hc hreach ha hst
  have hzero := hk.freed h hook hh hn
  rw [hk.counted, List.countP_eq_zero] at hzero
  exact hzero p hp (by simpa using hsame)

/-- A hook for one kind of events, called in place. -/
def sampleHook (thread : Option ThreadId) : HookInfo where
  id := 5
  process := none
  thread := thread
  eventMin := 0
  eventMax := 100
  flags := wineventIncontext
  proc := some 0x1000
  unicode := 1
  module := [0x61]

def sampleEvent : WinEvent := ⟨3, 0, 0, 0⟩

/-- A thread removes a hook of its desktop while another one calls it. -/
def sampleRun : List Action :=
  [.setHook 1 (sampleHook none) true true,
    .startHookChain 3 5 sampleEvent,
    .removeHook 1 (some 1) 0 none]

/-- The step of a test that expects no fault. -/
def stepTo (s : State) (a : Action) (p : State → Bool) : Bool :=
  match step s a with
  | .ok s' => p s'
  | .error _ => false

theorem exists_of_stepTo {s : State} {a : Action} {p : State → Bool} (h : stepTo s a p = true) :
    ∃ s', step s a = .ok s' ∧ p s' = true := by
  unfold stepTo at h
  split at h
  · exact ⟨_, ‹_›, h⟩
  · cases h

theorem hooks_kept_sample : ∃ s, Run step FinishesOwn (State.initial (fun _ => 1) fun _ => some 1)
    sampleRun s ∧
    countOf s (.global 1) 6 = s.starts.countP (fun p => decide (p.table = .global 1 ∧ p.index = 6)) ∧
    ∃ hook s', s.hook 1 = some hook ∧ step s (.finishHookChain 3 5) = .ok s' ∧ s'.hook 1 = none ∧
      ∀ p ∈ s'.starts, ¬ (p.table = hook.table ∧ p.index = hook.index) := by
  obtain ⟨s, hr, hp⟩ := run_of_execTo (f := step) (q := FinishesOwn)
    (g := fun _ a => match a with
      | .finishHookChain _ _ => false
      | _ => true)
    (s := State.initial (fun _ => 1) fun _ => some 1)
    (p := fun s => decide (s.desktop 3 = some 1) && decide (countOf s (.queue 3) 6 = 0) &&
      decide (lastStart s 3 6 = some (.global 1)) && (s.hook 1).isSome &&
      stepTo s (.finishHookChain 3 5) fun s' => decide (s'.hook 1 = none))
    (l := sampleRun) (fun _ a _ => by cases a <;> trivial) (by decide)
  simp only [Bool.and_eq_true, decide_eq_true_eq] at hp
  obtain ⟨⟨⟨⟨hd, hq⟩, hlast⟩, hhook⟩, hst⟩ := hp
  obtain ⟨s', hst, hfreed⟩ := exists_of_stepTo hst
  obtain ⟨hook, hh⟩ := Option.isSome_iff_exists.mp hhook
  have hown : FinishesOwn s (.finishHookChain 3 5) := by
    intro index hindex id hid hpos
    obtain rfl : 6 = index := Option.some.inj hindex
    obtain rfl | ⟨d, hd', rfl⟩ := hid
    · exact absurd hq hpos
    · rw [hlast, Option.some.inj (hd.symm.trans hd')]
  have hkept := hooks_kept hr
  have hfreed := of_decide_eq_true hfreed
  exact ⟨s, hr, hkept.1 _ _, hook, s', hh, hst, hfreed, hkept.2 _ s' hown hst 1 hook hh hfreed⟩

/-- The chains are made of live hooks, and no request uses a hook or a table that is gone. -/
theorem never_dangling {process : ThreadId → ProcessId} {desktop : ThreadId → Option DesktopId}
    {as : List Action} {s : State} (hr : Run step FinishesOwn (State.initial process desktop) as s) :
    Inv s ∧ ∀ a, step s a ≠ .error .dangling := by
  obtain ⟨hs, hc, hreach⟩ := run_kept hr
  refine ⟨hs, fun a hst => ?_⟩
  unfold step at hst
  split at hst
  · cases hst
  · next e hm =>
    cases hst
    exact wp_of_error (wp_act hs hc hreach a) hm rfl

theorem never_dangling_sample : ∃ s, Run step FinishesOwn
    (State.initial (fun _ => 1) fun _ => some 1) sampleRun s ∧ ∀ a, step s a ≠ .error .dangling := by
  obtain ⟨s, hr, -⟩ := run_of_execTo (f := step) (q := FinishesOwn)
    (g := fun _ a => !a matches .finishHookChain ..) (p := fun _ => true) (l := sampleRun)
    (s := State.initial (fun _ => 1) fun _ => some 1) (fun _ a _ => by cases a <;> trivial) (by decide)
  exact ⟨s, hr, (never_dangling hr).2⟩

/-- One thread calls a hook of its desktop while another one finishes a chain of its own, after which
the hook is removed and freed. -/
theorem hook_freed_in_use : ¬ ∀ (process : ThreadId → ProcessId) (desktop : ThreadId → Option DesktopId)
    (as : List Action) (s : State),
    Run step (fun _ _ => True) (State.initial process desktop) as s →
    (∀ id i, countOf s id i = s.starts.countP fun p => decide (p.table = id ∧ p.index = i)) ∧
    ∀ a s', step s a = .ok s' → ∀ h hook, s.hook h = some hook → s'.hook h = none →
      ∀ p ∈ s'.starts, ¬ (p.table = hook.table ∧ p.index = hook.index) := by
  intro hall
  obtain ⟨s, hr, hp⟩ := run_of_execTo (f := step) (q := fun _ _ => True) (g := fun _ _ => true)
    (s := State.initial (fun _ => 1) fun _ => some 1)
    (p := fun s => decide ((s.hook 1).map (fun hook => (hook.table, hook.index)) =
        some (.global 1, 6)) &&
      stepTo s (.removeHook 1 (some 1) 0 none) fun s' => decide (s'.hook 1 = none) &&
        decide (⟨3, 6, .global 1⟩ ∈ s'.starts))
    (l := [.setHook 1 (sampleHook none) true true, .setHook 2 (sampleHook (some 2)) true true,
      .startHookChain 3 5 sampleEvent, .startHookChain 2 5 sampleEvent, .finishHookChain 2 5])
    (fun _ _ _ => trivial) (by decide)
  simp only [Bool.and_eq_true, decide_eq_true_eq] at hp
  obtain ⟨hhook, hst⟩ := hp
  obtain ⟨hook, hh, htable⟩ := Option.map_eq_some_iff.mp hhook
  obtain ⟨s', hst, hfreed⟩ := exists_of_stepTo hst
  simp only [Bool.and_eq_true, decide_eq_true_eq] at hfreed
  simp only [Prod.mk.injEq] at htable
  exact (hall _ _ _ s hr).2 _ s' hst 1 hook hh hfreed.1 _ hfreed.2 ⟨htable.1.symm, htable.2.symm⟩

end Wine.Hooks
