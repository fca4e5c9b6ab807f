import Mathlib.Data.List.Count
import Wine.Hooks.Table

/-!
# Use counts of hook chains

The hooks of a chain are freed only while its use count is zero. The count is that of the unfinished
starts of the chain as long as every thread that finishes a chain finds no other count to release
than that of its own start.
-/

namespace Wine.Hooks
open Wine.Lib
open Wine.Server (Status intMax)

def countOf (s : State) (id : TableId) (index : ℕ) : ℕ :=
  match s.table id with
  | some t => t.counts index
  | none => 0

/-- Every chain holds live hooks of its own, each once, and every hook has its table. -/
structure Inv (s : State) : Prop where
  linked : ∀ id t i h, s.table id = some t → h ∈ t.hooks i →
    ∃ hook, s.hook h = some hook ∧ hook.table = id ∧ hook.index = i
  placed : ∀ h hook, s.hook h = some hook → ∃ t, s.table hook.table = some t
  nodup : ∀ id t i, s.table id = some t → (t.hooks i).Nodup
  fresh : ∀ h, s.next ≤ h → s.hook h = none

/-- The use counts are the numbers of unfinished starts. -/
def Counted (s : State) : Prop :=
  ∀ id i, countOf s id i = s.starts.countP fun p => decide (p.table = id ∧ p.index = i)

/-- The tables whose chains a thread can start. -/
def Reaches (s : State) (t : ThreadId) (id : TableId) : Prop :=
  id = .queue t ∨ ∃ d, s.desktop t = some d ∧ id = .global d

def StartsReached (s : State) : Prop := ∀ p ∈ s.starts, Reaches s p.thread p.table

/-- Hooks go or are marked, and tables keep their counts. -/
structure Frame (s s' : State) : Prop where
  desktop : s'.desktop = s.desktop
  starts : s'.starts = s.starts
  table : ∀ id t, s.table id = some t → ∃ t', s'.table id = some t'
  hook : ∀ h hook', s'.hook h = some hook' →
    ∃ hook, s.hook h = some hook ∧ hook.table = hook'.table ∧ hook.index = hook'.index

/-- A fault other than a hook or a table that is gone. -/
def NotDangling (e : Fault) : Prop := e ≠ .dangling

theorem Frame.refl (s : State) : Frame s s :=
  ⟨rfl, rfl, fun _ t h => ⟨t, h⟩, fun _ hook h => ⟨hook, h, rfl, rfl⟩⟩

theorem Frame.trans {s s' s'' : State} (h : Frame s s') (h' : Frame s' s'') : Frame s s'' := by
  refine ⟨h'.desktop.trans h.desktop, h'.starts.trans h.starts, fun id t ht => ?_,
    fun g hook'' hg => ?_⟩
  · obtain ⟨t', ht'⟩ := h.table id t ht
    exact h'.table id t' ht'
  obtain ⟨hook', hg', ht', hi'⟩ := h'.hook g hook'' hg
  obtain ⟨hook, hg, ht, hi⟩ := h.hook g hook' hg'
  exact ⟨hook, hg, ht.trans ht', hi.trans hi'⟩

section
variable {s : State} {id : TableId} {t : HookTable} {h : HookId} {hook : Hook}

theorem wp_readHook (hh : s.hook h = some hook) {Q : Hook → State → Prop} {E : Fault → Prop}
    (hq : Q hook s) : wp (readHook h) Q E s := by
  simpa only [readHook, wp_bind, wp_get, hh, wp_pure] using hq

theorem wp_readTable (ht : s.table id = some t) {Q : HookTable → State → Prop} {E : Fault → Prop}
    (hq : Q t s) : wp (readTable id) Q E s := by
  simpa only [readTable, wp_bind, wp_get, ht, wp_pure] using hq

theorem table_setTable (id : TableId) (t' : HookTable) :
    ∀ id' t, s.table id' = some t → ∃ t'', (s.setTable id t').table id' = some t'' := by
  intro id' t ht
  simp only [State.setTable, Function.update_apply]
  split
  · exact ⟨_, rfl⟩
  · exact ⟨t, ht⟩

theorem countOf_eq (ht : s.table id = some t) (i : ℕ) : countOf s id i = t.counts i := by
  rw [countOf, ht]

theorem countOf_setTable (t' : HookTable) (id' : TableId) (i : ℕ) :
    countOf (s.setTable id t') id' i = if id' = id then t'.counts i else countOf s id' i := by
  simp only [countOf, State.setTable, Function.update_apply]
  by_cases hid : id' = id
  · simp only [if_pos hid]
  · simp only [if_neg hid]

/-! ## Hooks that go -/

theorem wp_freeHook (hs : Inv s) (hh : s.hook h = some hook) :
    wp (freeHook h) (fun _ s' => Inv s' ∧ Frame s s' ∧ (∀ id i, countOf s' id i = countOf s id i) ∧
      s'.hook = Function.update s.hook h none) NotDangling s := by
  obtain ⟨t, ht⟩ := hs.placed h hook hh
  rw [freeHook, wp_bind]
  refine wp_readHook hh ?_
  rw [wp_bind]
  refine wp_readTable ht ?_
  rw [wp_modify]
  have htable : ∀ id' t', ((s.setHook h none).setTable hook.table
      (t.setHooks hook.index ((t.hooks hook.index).filter (· ≠ h)))).table id' = some t' →
      ∃ t₀, s.table id' = some t₀ ∧ t'.counts = t₀.counts ∧ ∀ i,
        t'.hooks i = if id' = hook.table ∧ i = hook.index then (t₀.hooks i).filter (· ≠ h)
          else t₀.hooks i := by
    intro id' t' ht'
    simp only [State.setTable, State.setHook, Function.update_apply] at ht'
    by_cases hid : id' = hook.table
    · rw [if_pos hid] at ht'
      cases ht'
      refine ⟨t, by rw [hid, ht], rfl, fun i => ?_⟩
      simp only [HookTable.setHooks, Function.update_apply, hid, true_and]
      split
      · rename_i hi
        rw [hi]
      · rfl
    · rw [if_neg hid] at ht'
      exact ⟨t', ht', rfl, fun i => by rw [if_neg fun hc => hid hc.1]⟩
  have hmem : ∀ id' t₀ i g, s.table id' = some t₀ →
      (g ∈ if id' = hook.table ∧ i = hook.index then (t₀.hooks i).filter (· ≠ h) else t₀.hooks i) →
      g ∈ t₀.hooks i ∧ g ≠ h := by
    intro id' t₀ i g ht₀ hg
    split at hg
    · simpa using List.mem_filter.mp hg
    · rename_i hne
      refine ⟨hg, ?_⟩
      rintro rfl
      obtain ⟨hook', hh', hid', hi'⟩ := hs.linked id' t₀ i g ht₀ hg
      obtain rfl := Option.some.inj (hh.symm.trans hh')
      exact hne ⟨hid'.symm, hi'.symm⟩
  refine ⟨⟨?_, ?_, ?_, ?_⟩, ⟨rfl, rfl, table_setTable (s := s.setHook h none) _ _, ?_⟩, ?_, rfl⟩
  · intro id' t' i g ht' hg
    obtain ⟨t₀, ht₀, -, hhooks⟩ := htable id' t' ht'
    rw [hhooks i] at hg
    obtain ⟨hg, hne⟩ := hmem id' t₀ i g ht₀ hg
    obtain ⟨hook', hh', hid', hi'⟩ := hs.linked id' t₀ i g ht₀ hg
    exact ⟨hook', by simpa only [State.setTable, State.setHook, Function.update_of_ne hne] using hh',
      hid', hi'⟩
  · intro g hook' hg
    have hne : g ≠ h := by
      rintro rfl
      simp [State.setTable, State.setHook] at hg
    obtain ⟨t₀, ht₀⟩ := hs.placed g hook' (by
      simpa only [State.setTable, State.setHook, Function.update_of_ne hne] using hg)
    simp only [State.setTable, State.setHook, Function.update_apply]
    split
    · exact ⟨_, rfl⟩
    · exact ⟨t₀, ht₀⟩
  · intro id' t' i ht'
    obtain ⟨t₀, ht₀, -, hhooks⟩ := htable id' t' ht'
    rw [hhooks i]
    split
    · exact (hs.nodup id' t₀ i ht₀).filter _
    · exact hs.nodup id' t₀ i ht₀
  · intro g hg
    simp only [State.setTable, State.setHook, Function.update_apply]
    split
    · rfl
    · exact hs.fresh g hg
  · intro g hook' hg
    have hne : g ≠ h := by
      rintro rfl
      simp [State.setTable, State.setHook] at hg
    exact ⟨hook', by
      simpa only [State.setTable, State.setHook, Function.update_of_ne hne] using hg, rfl, rfl⟩
  · intro id' i
    rw [countOf_setTable]
    split
    · rename_i hid
      rw [hid, countOf_eq ht]
      rfl
    · rfl

/-- A hook that is marked stays in its chain. -/
theorem Inv.mark (hs : Inv s) (hh : s.hook h = some hook) :
    Inv (s.setHook h (some { hook with proc := none })) ∧
      Frame s (s.setHook h (some { hook with proc := none })) := by
  have hget : ∀ g, (s.setHook h (some { hook with proc := none })).hook g =
      if g = h then some { hook with proc := none } else s.hook g :=
    fun g => Function.update_apply ..
  refine ⟨⟨fun id t i g ht hg => ?_, fun g hook' hg => ?_, hs.nodup, fun g hg => ?_⟩, rfl, rfl,
    fun _ t ht => ⟨t, ht⟩, fun g hook' hg => ?_⟩
  · obtain ⟨hook', hh', hid, hi⟩ := hs.linked id t i g ht hg
    rw [hget]
    by_cases hgh : g = h
    · subst hgh
      obtain rfl := Option.some.inj (hh.symm.trans hh')
      exact ⟨_, if_pos rfl, hid, hi⟩
    · exact ⟨hook', by rw [if_neg hgh, hh'], hid, hi⟩
  · rw [hget] at hg
    split at hg
    · cases hg
      exact hs.placed h hook hh
    · exact hs.placed g hook' hg
  · rw [hget, if_neg, hs.fresh g hg]
    rintro rfl
    rw [hs.fresh g hg] at hh
    cases hh
  · rw [hget] at hg
    split at hg
    · rename_i hgh
      cases hg
      exact ⟨hook, hgh ▸ hh, rfl, rfl⟩
    · exact ⟨hook', hg, rfl, rfl⟩

theorem wp_removeHook (hs : Inv s) (hh : s.hook h = some hook) :
    wp (removeHook h) (fun _ s' => Inv s' ∧ Frame s s' ∧ (∀ id i, countOf s' id i = countOf s id i) ∧
      ∀ g hook', s.hook g = some hook' → s'.hook g = none →
        countOf s hook'.table hook'.index = 0) NotDangling s := by
  obtain ⟨t, ht⟩ := hs.placed h hook hh
  rw [removeHook, wp_bind]
  refine wp_readHook hh ?_
  rw [wp_bind]
  refine wp_readTable ht ?_
  rw [wp_ite]
  constructor
  · intro _
    rw [wp_modify]
    obtain ⟨hi, hf⟩ := hs.mark hh
    refine ⟨hi, hf, fun _ _ => rfl, fun g hook' hg hn => ?_⟩
    simp only [State.setHook, Function.update_apply] at hn
    split at hn
    · cases hn
    · rw [hg] at hn
      cases hn
  · intro hzero
    refine wp_mono (wp_freeHook hs hh) ?_
    rintro _ s' ⟨hi, hf, hc, hhook⟩
    refine ⟨hi, hf, hc, fun g hook' hg hn => ?_⟩
    rw [hhook, Function.update_apply] at hn
    split at hn
    · rename_i hgh
      subst hgh
      obtain rfl := Option.some.inj (hh.symm.trans hg)
      rw [countOf_eq ht]
      exact not_not.mp hzero
    · rw [hg] at hn
      cases hn

/-- The removed hooks of a list go, all of one chain. -/
theorem wp_freeRemoved {i : ℕ} {l : List HookId} (hs : Inv s) (hl : l.Nodup)
    (hh : ∀ g ∈ l, ∃ hook, s.hook g = some hook ∧ hook.table = id ∧ hook.index = i) :
    wp (forM l freeIfRemoved) (fun _ s' => Inv s' ∧ Frame s s' ∧
      (∀ id i, countOf s' id i = countOf s id i) ∧
      ∀ g hook, s.hook g = some hook → s'.hook g = none → hook.table = id ∧ hook.index = i)
      NotDangling s := by
  induction l generalizing s with
  | nil =>
    refine ⟨hs, Frame.refl s, fun _ _ => rfl, fun g hook hg hn => ?_⟩
    rw [hg] at hn
    cases hn
  | cons g l ih =>
    obtain ⟨hgl, hl⟩ := List.nodup_cons.mp hl
    obtain ⟨hook, hg, hid, hi⟩ := hh g List.mem_cons_self
    have hrest : ∀ f ∈ l, ∃ hook, s.hook f = some hook ∧ hook.table = id ∧ hook.index = i :=
      fun f hf => hh f (List.mem_cons_of_mem _ hf)
    rw [List.forM_cons, wp_bind, freeIfRemoved, wp_bind]
    refine wp_readHook hg ?_
    rw [wp_ite]
    refine ⟨fun _ => ?_, fun _ => ih hs hl hrest⟩
    refine wp_mono (wp_freeHook hs hg) ?_
    rintro _ s₁ ⟨hs₁, hf₁, hc₁, hhook₁⟩
    have hrest₁ : ∀ f ∈ l, ∃ hook, s₁.hook f = some hook ∧ hook.table = id ∧ hook.index = i := by
      intro f hf
      have hne : f ≠ g := fun h => hgl (h ▸ hf)
      rw [hhook₁, Function.update_of_ne hne]
      exact hrest f hf
    refine wp_mono (ih hs₁ hl hrest₁) ?_
    rintro _ s₂ ⟨hs₂, hf₂, hc₂, hgone⟩
    refine ⟨hs₂, hf₁.trans hf₂, fun id i => (hc₂ id i).trans (hc₁ id i), fun f hook' hf hn => ?_⟩
    by_cases hfg : f = g
    · subst hfg
      obtain rfl := Option.some.inj (hg.symm.trans hf)
      exact ⟨hid, hi⟩
    · refine hgone f hook' ?_ hn
      rw [hhook₁, Function.update_of_ne hfg, hf]

theorem Inv.setCount (hs : Inv s) (ht : s.table id = some t) (i n : ℕ) :
    Inv (s.setTable id (t.setCount i n)) ∧ Frame s (s.setTable id (t.setCount i n)) := by
  have htable : ∀ id' t', (s.setTable id (t.setCount i n)).table id' = some t' →
      ∃ t₀, s.table id' = some t₀ ∧ t'.hooks = t₀.hooks := by
    intro id' t' ht'
    simp only [State.setTable, Function.update_apply] at ht'
    split at ht'
    · rename_i hid
      cases ht'
      exact ⟨t, hid ▸ ht, rfl⟩
    · exact ⟨t', ht', rfl⟩
  refine ⟨⟨fun id' t' j g ht' hg => ?_, fun g hook hg => ?_, fun id' t' j ht' => ?_, hs.fresh⟩, rfl, rfl,
    table_setTable id _, fun g hook hg => ⟨hook, hg, rfl, rfl⟩⟩
  · obtain ⟨t₀, ht₀, hhooks⟩ := htable id' t' ht'
    rw [hhooks] at hg
    exact hs.linked id' t₀ j g ht₀ hg
  · obtain ⟨t₀, ht₀⟩ := hs.placed g hook hg
    exact table_setTable id _ _ t₀ ht₀
  · obtain ⟨t₀, ht₀, hhooks⟩ := htable id' t' ht'
    rw [hhooks]
    exact hs.nodup id' t₀ j ht₀

theorem countOf_setCount (ht : s.table id = some t) (i n : ℕ) (id' : TableId) (j : ℕ) :
    countOf (s.setTable id (t.setCount i n)) id' j =
      if id' = id ∧ j = i then n else countOf s id' j := by
  rw [countOf_setTable]
  by_cases hid : id' = id
  · subst hid
    simp only [HookTable.setCount, Function.update_apply, true_and, if_true, countOf_eq ht]
  · simp only [hid, false_and, if_false]

theorem wp_releaseHookChain (hs : Inv s) (ht : s.table id = some t) (i : ℕ) :
    wp (releaseHookChain id i) (fun _ s' => Inv s' ∧ Frame s s' ∧
      (∀ id' j, countOf s' id' j =
        if id' = id ∧ j = i then countOf s id i - 1 else countOf s id' j) ∧
      ∀ g hook, s.hook g = some hook → s'.hook g = none →
        countOf s' hook.table hook.index = 0) NotDangling s := by
  rw [releaseHookChain, wp_bind]
  refine wp_readTable ht ?_
  rw [wp_ite]
  constructor
  · intro hzero
    rw [setError, wp_modify]
    refine ⟨⟨hs.linked, hs.placed, hs.nodup, hs.fresh⟩,
      ⟨rfl, rfl, fun _ t ht => ⟨t, ht⟩, fun g hook hg => ⟨hook, hg, rfl, rfl⟩⟩, fun id' j => ?_, fun g hook hg hn => ?_⟩
    · split
      · rename_i heq
        rw [heq.1, heq.2, countOf_eq ht, hzero]
        exact (countOf_eq ht i).trans hzero
      · rfl
    · rw [hg] at hn
      cases hn
  · intro hpos
    rw [wp_bind, wp_modify]
    obtain ⟨hs₁, hf₁⟩ := hs.setCount ht i (t.counts i - 1)
    have hc₁ := countOf_setCount ht i (t.counts i - 1)
    rw [wp_ite]
    constructor
    · intro hone
      have hl : ∀ g ∈ t.hooks i, ∃ hook,
          (s.setTable id (t.setCount i (t.counts i - 1))).hook g = some hook ∧
            hook.table = id ∧ hook.index = i := fun g hg => hs.linked id t i g ht hg
      refine wp_mono (wp_freeRemoved hs₁ (hs.nodup id t i ht) hl) ?_
      rintro _ s₂ ⟨hs₂, hf₂, hc₂, hgone⟩
      refine ⟨hs₂, hf₁.trans hf₂, fun id' j => ?_, fun g hook hg hn => ?_⟩
      · rw [hc₂, hc₁, countOf_eq ht]
      · obtain ⟨hid, hi⟩ := hgone g hook hg hn
        rw [hc₂, hc₁, if_pos ⟨hid, hi⟩, hone]
    · intro _
      rw [wp_pure]
      refine ⟨hs₁, hf₁, fun id' j => ?_, fun g hook hg hn => ?_⟩
      · rw [hc₁, countOf_eq ht]
      · rw [show (s.setTable id (t.setCount i (t.counts i - 1))).hook g = s.hook g from rfl, hg] at hn
        cases hn

end

end Wine.Hooks
