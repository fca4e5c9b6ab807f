import Wine.Hooks.Table

/-!
# Low-level hooks and their owners

A low-level hook stands in the global table of a desktop, is set on no thread and runs in the thread
that set it. When a thread dies, `remove_thread_hooks` goes through the low-level hooks of its
desktop and removes those set on the thread.
-/

namespace Wine.Hooks
open Wine.Lib

def Hook.LowLevel (hook : Hook) : Prop :=
  (hook.index : ℤ) = whKeyboardLl - whMinhook ∨ (hook.index : ℤ) = whMouseLl - whMinhook

instance (hook : Hook) : Decidable hook.LowLevel := by unfold Hook.LowLevel; infer_instance

/-! ## Thread death -/

def removeThreadHook (thread : ThreadId) (h : HookId) : M PUnit := do
  let hook ← readHook h
  if hook.thread = some thread then removeHook h

def removeThreadHooks (thread : ThreadId) : M PUnit := do
  let s ← get
  match getGlobalHooks s thread with
  | none => pure ⟨⟩
  | some id =>
    -- only low-level keyboard/mouse global hooks can be owned by a thread
    forM [(whKeyboardLl - whMinhook).toNat, (whMouseLl - whMinhook).toNat] fun index => do
      let t ← readTable id
      forM (t.hooks index) (removeThreadHook thread)

def nbHooks : ℕ := (whWinevent - whMinhook + 1).toNat

def hookTableDestroy (id : TableId) : M PUnit := do
  forM (List.range nbHooks) fun index => do
    let t ← readTable id
    forM (t.hooks index) freeHook
  modify fun s => { s with table := Function.update s.table id none }

/-- `last` says that the thread holds the last reference to its message queue, so that the queue and
its hook table are destroyed. -/
def freeMsgQueue (thread : ThreadId) (last : Bool) : M PUnit := do
  removeThreadHooks thread
  let s ← get
  if last ∧ s.table (.queue thread) ≠ none then hookTableDestroy (.queue thread)

/-! ## Requests and deaths -/

structure World where
  server : State
  terminated : ThreadId → Bool

def World.initial (process : ThreadId → ProcessId) (desktop : ThreadId → Option DesktopId) : World :=
  ⟨State.initial process desktop, fun _ => false⟩

inductive Happening
  | request (a : Action)
  | killThread (thread : ThreadId) (last : Bool)

/-- The thread that sends the request. -/
def Action.current : Action → ThreadId
  | .setHook current _ _ _ => current
  | .removeHook current _ _ _ => current
  | .startHookChain current _ _ => current
  | .finishHookChain current _ => current
  | .getNextHook current _ _ => current

def World.step (w : World) : Happening → Except Fault World
  | .request a =>
    match act a w.server with
    | .ok (_, s) => .ok { w with server := s }
    | .error e => .error e
  | .killThread thread last =>
    if w.terminated thread then .ok w
    else match freeMsgQueue thread last w.server with
      | .ok (_, s) => .ok ⟨s, Function.update w.terminated thread true⟩
      | .error e => .error e

/-- Only living threads send requests. -/
def World.Sent (w : World) : Happening → Prop
  | .request a => w.terminated a.current = false
  | .killThread _ _ => True

instance (w : World) (e : Happening) : Decidable (w.Sent e) := by
  cases e <;> unfold World.Sent <;> infer_instance

/-- Every low-level hook of a global table that is not removed has a living owner. -/
def World.LowLevelOwned (w : World) : Prop :=
  ∀ d t i h hook, w.server.table (.global d) = some t → h ∈ t.hooks i →
    w.server.hook h = some hook → hook.LowLevel → hook.proc ≠ none →
    w.terminated hook.owner = false

/-- A thread that dies has removed its low-level hooks. -/
def World.RemovesFirst (w : World) : Happening → Prop
  | .request _ => True
  | .killThread thread _ => ∀ h hook, w.server.hook h = some hook → hook.LowLevel →
    hook.proc ≠ none → hook.owner ≠ thread

/-! ## No function but `add_hook` makes a hook -/

def OwnersIn (p : ThreadId → Prop) (s : State) : Prop :=
  ∀ h hook, s.hook h = some hook → hook.LowLevel → hook.proc ≠ none → p hook.owner

section

variable {p : ThreadId → Prop} {s : State}

theorem OwnersIn.setTable (hs : OwnersIn p s) (id : TableId) (t : HookTable) :
    OwnersIn p (s.setTable id t) := hs

theorem OwnersIn.setHook (hs : OwnersIn p s) {h : HookId} {new : Option Hook}
    (hnew : ∀ hook, new = some hook → hook.LowLevel → hook.proc ≠ none → p hook.owner) :
    OwnersIn p (s.setHook h new) := by
  intro h' hook hh
  simp only [State.setHook, Function.update_apply] at hh
  split at hh
  · exact hnew hook hh
  · exact hs h' hook hh

theorem keeps_readHook (h : HookId) : Keeps (OwnersIn p) (readHook h) := by
  apply Keeps.bind Keeps.get
  intro s
  split
  · exact Keeps.pure _
  · exact Keeps.throw _

theorem keeps_readTable (id : TableId) : Keeps (OwnersIn p) (readTable id) := by
  apply Keeps.bind Keeps.get
  intro s
  split
  · exact Keeps.pure _
  · exact Keeps.throw _

theorem keeps_setError (e : Wine.Server.Status) : Keeps (OwnersIn p) (setError e) :=
  Keeps.modify fun _ hs => hs

theorem keeps_freeHook (h : HookId) : Keeps (OwnersIn p) (freeHook h) := by
  apply Keeps.bind (keeps_readHook h)
  intro hook
  apply Keeps.bind (keeps_readTable hook.table)
  intro t
  apply Keeps.modify
  intro s hs
  exact (hs.setHook (by rintro _ ⟨⟩)).setTable _ _

theorem keeps_removeHook (h : HookId) : Keeps (OwnersIn p) (removeHook h) := by
  apply Keeps.bind (keeps_readHook h)
  intro hook
  apply Keeps.bind (keeps_readTable hook.table)
  intro t
  apply Keeps.ite
  · intro _
    apply Keeps.modify
    intro s hs
    apply hs.setHook
    intro hook' heq _ hproc
    cases heq
    exact absurd rfl hproc
  · exact fun _ => keeps_freeHook h

theorem keeps_firstValidHook (current : ThreadId) (e : WinEvent) (chain : List HookId) :
    Keeps (OwnersIn p) (firstValidHook current e chain) := by
  induction chain with
  | nil => exact Keeps.pure _
  | cons h chain ih =>
    apply Keeps.bind Keeps.get
    intro s
    apply Keeps.bind (keeps_readHook h)
    intro hook
    apply Keeps.ite
    · intro _
      apply Keeps.ite
      · exact fun _ => Keeps.pure _
      · intro _
        apply Keeps.ite
        · exact fun _ => Keeps.throw _
        · exact fun _ => Keeps.bind (Keeps.modify fun _ hs => hs) fun _ => ih
    · exact fun _ => ih

theorem keeps_getFirstValidHook (current : ThreadId) (table : Option TableId) (index : ℕ)
    (e : WinEvent) : Keeps (OwnersIn p) (getFirstValidHook current table index e) := by
  cases table with
  | none => exact Keeps.pure _
  | some id => exact Keeps.bind (keeps_readTable id) fun t => keeps_firstValidHook current e _

theorem keeps_getNextHook (current : ThreadId) (h : HookId) (hook : Hook) (e : WinEvent) :
    Keeps (OwnersIn p) (getNextHook current h hook e) := by
  apply Keeps.bind (keeps_readTable hook.table)
  intro t
  apply Keeps.bind (keeps_firstValidHook current e _)
  intro next
  cases next with
  | some next => exact Keeps.pure _
  | none =>
    apply Keeps.bind Keeps.get
    intro s
    apply Keeps.ite
    · exact fun _ => keeps_getFirstValidHook current _ _ e
    · exact fun _ => Keeps.pure _

theorem keeps_releaseHookChain (id : TableId) (index : ℕ) :
    Keeps (OwnersIn p) (releaseHookChain id index) := by
  apply Keeps.bind (keeps_readTable id)
  intro t
  apply Keeps.ite
  · exact fun _ => keeps_setError _
  · intro _
    apply Keeps.bind
    · apply Keeps.modify
      exact fun s hs => hs.setTable _ _
    intro _
    apply Keeps.ite
    · intro _
      apply Keeps.forM
      intro h _
      apply Keeps.bind (keeps_readHook h)
      intro hook
      exact Keeps.ite (fun _ => keeps_freeHook h) fun _ => Keeps.pure _
    · exact fun _ => Keeps.pure _

theorem keeps_releaseIfAny (table : Option TableId) (index : ℕ) :
    Keeps (OwnersIn p) (releaseIfAny table index) := by
  cases table with
  | none => exact Keeps.pure _
  | some id => exact keeps_releaseHookChain id index

theorem keeps_addHook (id : TableId) {hook : Hook} (memTable memHook : Bool) (hp : p hook.owner) :
    Keeps (OwnersIn p) (addHook id hook memTable memHook) := by
  intro s hs
  unfold addHook
  simp only [wp_bind, wp_get, wp_ite]
  refine ⟨fun _ => hs, fun _ => ?_⟩
  simp only [wp_set, setError, wp_modify, wp_pure]
  refine ⟨fun _ => hs, fun _ => ?_⟩
  have hnew : OwnersIn p (s.setHook s.next (some hook)) := by
    apply hs.setHook
    intro hook' heq _ _
    cases heq
    exact hp
  exact hnew

theorem keeps_setHook {current : ThreadId} (req : HookInfo) (memTable memHook : Bool)
    (hp : p current) : Keeps (OwnersIn p) (setHook current req memTable memHook) := by
  apply Keeps.bind Keeps.get
  intro s
  have herr : Keeps (OwnersIn p)
      (do setError Wine.Server.statusInvalidParameter; pure none : M (Option HookId)) :=
    Keeps.bind (keeps_setError _) fun _ => Keeps.pure _
  dsimp only
  split
  · exact herr
  · split
    · exact Keeps.pure _
    · apply Keeps.ite
      · exact fun _ => herr
      · exact fun _ => keeps_addHook _ memTable memHook hp

theorem keeps_removeHookRequest (current : ThreadId) (handle : Option HookId) (id : ℤ)
    (proc : Option ℕ) : Keeps (OwnersIn p) (removeHookRequest current handle id proc) := by
  apply Keeps.bind Keeps.get
  intro s
  split
  · exact Keeps.ite (fun _ => keeps_setError _) fun _ => keeps_removeHook _
  · split
    · split
      · exact keeps_removeHook _
      · exact keeps_setError _
    · exact keeps_setError _

theorem keeps_countStart (current : ThreadId) (table : TableId) (index : ℕ) :
    Keeps (OwnersIn p) (countStart current table index) := by
  apply Keeps.bind (keeps_readTable table)
  intro t
  apply Keeps.ite
  · exact fun _ => Keeps.modify fun _ hs => hs
  · exact fun _ => Keeps.throw _

theorem keeps_startHookChain (current : ThreadId) (id : ℤ) (e : WinEvent) :
    Keeps (OwnersIn p) (startHookChain current id e) := by
  unfold startHookChain
  split
  · exact Keeps.bind (keeps_setError _) fun _ => Keeps.pure _
  · apply Keeps.bind Keeps.get
    intro s
    apply Keeps.bind (keeps_getFirstValidHook current _ _ e)
    intro first
    split
    · exact Keeps.bind (keeps_countStart _ _ _) fun _ => Keeps.pure _
    · apply Keeps.bind Keeps.get
      intro s'
      apply Keeps.bind (keeps_getFirstValidHook current _ _ e)
      intro first'
      split
      · exact Keeps.bind (keeps_countStart _ _ _) fun _ => Keeps.pure _
      · exact Keeps.pure _

theorem keeps_finishHookChain (current : ThreadId) (id : ℤ) :
    Keeps (OwnersIn p) (finishHookChain current id) := by
  intro s hs
  unfold finishHookChain
  rw [wp_bind, wp_get]
  split
  · exact keeps_setError _ s hs
  · rw [wp_bind, wp_set, wp_bind]
    apply wp_mono (keeps_releaseIfAny _ _ (s.finish current _) hs)
    intro _ s' hs'
    exact keeps_releaseIfAny _ _ s' hs'

theorem keeps_getNextHookRequest (current : ThreadId) (h : HookId) (e : WinEvent) :
    Keeps (OwnersIn p) (getNextHookRequest current h e) := by
  apply Keeps.bind Keeps.get
  intro s
  split
  · exact Keeps.pure _
  · apply Keeps.ite
    · exact fun _ => Keeps.bind (keeps_setError _) fun _ => Keeps.pure _
    · intro _
      apply Keeps.bind (keeps_getNextHook current h _ e)
      intro next
      split <;> exact Keeps.pure _

theorem keeps_act (a : Action) (hp : p a.current) : Keeps (OwnersIn p) (act a) := by
  cases a with
  | setHook current req memTable memHook =>
    exact Keeps.bind (keeps_setHook req memTable memHook hp) fun _ => Keeps.pure _
  | removeHook current handle id proc => exact keeps_removeHookRequest current handle id proc
  | startHookChain current id e =>
    exact Keeps.bind (keeps_startHookChain current id e) fun _ => Keeps.pure _
  | finishHookChain current id => exact keeps_finishHookChain current id
  | getNextHook current h e =>
    exact Keeps.bind (keeps_getNextHookRequest current h e) fun _ => Keeps.pure _

theorem keeps_freeMsgQueue (thread : ThreadId) (last : Bool) :
    Keeps (OwnersIn p) (freeMsgQueue thread last) := by
  have hremove : Keeps (OwnersIn p) (removeThreadHooks thread) := by
    apply Keeps.bind Keeps.get
    intro s
    split
    · exact Keeps.pure _
    · apply Keeps.forM
      intro index _
      apply Keeps.bind (keeps_readTable _)
      intro t
      apply Keeps.forM
      intro h _
      apply Keeps.bind (keeps_readHook h)
      intro hook
      exact Keeps.ite (fun _ => keeps_removeHook h) fun _ => Keeps.pure _
  apply Keeps.bind hremove
  intro _
  apply Keeps.bind Keeps.get
  intro s
  apply Keeps.ite
  · intro _
    apply Keeps.bind
    · apply Keeps.forM
      intro index _
      exact Keeps.bind (keeps_readTable _) fun t => Keeps.forM fun h _ => keeps_freeHook h
    · exact fun _ => Keeps.modify fun _ hs => hs
  · exact fun _ => Keeps.pure _

end

/-! ## Runs -/

def World.Owned (w : World) : Prop := OwnersIn (fun t => w.terminated t = false) w.server

theorem OwnersIn.step {p : ThreadId → Prop} {w w' : World} {e : Happening}
    (hw : OwnersIn p w.server) (he : ∀ a, e = .request a → p a.current)
    (hst : w.step e = .ok w') : OwnersIn p w'.server := by
  unfold World.step at hst
  cases e with
  | request a =>
    simp only at hst
    split at hst
    · rename_i s hact
      cases hst
      exact (keeps_act a (he a rfl)).ok hw hact
    · cases hst
  | killThread thread last =>
    simp only at hst
    split at hst
    · cases hst
      exact hw
    · split at hst
      · rename_i s hfree
        cases hst
        exact (keeps_freeMsgQueue thread last).ok hw hfree
      · cases hst

theorem World.terminated_step {w w' : World} {e : Happening} (hst : w.step e = .ok w') :
    ∀ t, w.terminated t = false → (∀ last, e ≠ .killThread t last) → w'.terminated t = false := by
  intro t ht hne
  unfold World.step at hst
  cases e with
  | request a =>
    simp only at hst
    split at hst
    · cases hst
      exact ht
    · cases hst
  | killThread thread last =>
    have hother : t ≠ thread := by
      intro heq
      exact hne last (by rw [heq])
    simp only at hst
    split at hst
    · cases hst
      exact ht
    · split at hst
      · cases hst
        exact (Function.update_of_ne hother _ _).trans ht
      · cases hst

theorem World.Owned.step {w w' : World} {e : Happening} (hw : w.Owned) (hsent : w.Sent e)
    (hfirst : w.RemovesFirst e) (hst : w.step e = .ok w') : w'.Owned := by
  have hkept : OwnersIn (fun t => w.terminated t = false ∧ ∀ last, e ≠ .killThread t last)
      w'.server := by
    refine OwnersIn.step ?_ ?_ hst
    · intro h hook hh hlow hproc
      refine ⟨hw h hook hh hlow hproc, fun last heq => ?_⟩
      subst heq
      exact hfirst h hook hh hlow hproc rfl
    · intro a heq
      subst heq
      exact ⟨hsent, fun _ => by simp⟩
  intro h hook hh hlow hproc
  obtain ⟨hlive, hne⟩ := hkept h hook hh hlow hproc
  exact terminated_step hst hook.owner hlive hne

/-- In a run in which the threads that die have removed their low-level hooks, no low-level hook
outlives its owner. -/
theorem lowLevel_owned {process : ThreadId → ProcessId} {desktop : ThreadId → Option DesktopId}
    {es : List Happening} {w : World}
    (hr : Run World.step (fun w e => w.Sent e ∧ w.RemovesFirst e) (World.initial process desktop)
      es w) : w.LowLevelOwned := by
  have hw : w.Owned := by
    apply hr.invariant
    · exact fun _ _ hh => by cases hh
    · exact fun t e t' ht hok hst => ht.step hok.1 hok.2 hst
  exact fun _ _ _ h hook _ _ hh hlow hproc => hw h hook hh hlow hproc

def sampleLowLevel : HookInfo :=
  ⟨whKeyboardLl, none, none, 0, 0x7fffffff, wineventIncontext, some 0x1000, 1, []⟩

/-- Thread 1 sends all requests and other threads die. -/
def onlyFirst : Happening → Bool
  | .request a => decide (a.current = 1)
  | .killThread thread _ => decide (thread ≠ 1)

def sampleDeath : List Happening :=
  [.request (.setHook 1 sampleLowLevel true true), .killThread 2 true]

theorem lowLevel_owned_sample : ∃ w,
    Run World.step (fun w e => w.Sent e ∧ w.RemovesFirst e)
      (World.initial (fun _ => 1) fun _ => some 1) sampleDeath w ∧
      w.LowLevelOwned := by
  obtain ⟨w, hr, -⟩ := run_of_execTo (f := World.step)
    (q := fun w e => w.Sent e ∧ onlyFirst e = true)
    (g := fun w e => decide (w.Sent e) && onlyFirst e)
    (p := fun _ => true) (s := World.initial (fun _ => 1) fun _ => some 1)
    (l := sampleDeath) (fun w e h => by simpa using h) (by decide)
  have hguarded : Run World.step (fun w e => w.Sent e ∧ w.RemovesFirst e)
      (World.initial (fun _ => 1) fun _ => some 1) sampleDeath w := by
    apply hr.mono_of_invariant (I := fun w => OwnersIn (· = 1) w.server)
    · exact fun _ _ hh => by cases hh
    · intro t a t' ht hok hst
      apply ht.step _ hst
      intro a' heq
      subst heq
      exact of_decide_eq_true hok.2
    · intro t a ht hok
      refine ⟨hok.1, ?_⟩
      cases a with
      | request a => trivial
      | killThread thread last =>
        intro h hook hh hlow hproc heq
        exact of_decide_eq_true hok.2 (heq.symm.trans (ht h hook hh hlow hproc))
  exact ⟨w, hguarded, lowLevel_owned hguarded⟩

/-- A thread sets a low-level hook and dies. -/
theorem not_lowLevel_owned_after_death :
    ¬ ∀ (process : ThreadId → ProcessId) (desktop : ThreadId → Option DesktopId)
      (es : List Happening) (w : World),
      Run World.step World.Sent (World.initial process desktop) es w → w.LowLevelOwned := by
  intro hall
  obtain ⟨w, hr, hp⟩ := run_of_execTo (f := World.step) (q := World.Sent)
    (g := fun w e => decide (w.Sent e))
    (p := fun w => decide (((w.server.table (.global 1)).map (·.hooks 14)) = some [1]) &&
      (w.server.hook 1).any fun hook : Hook =>
        decide hook.LowLevel && hook.proc.isSome && w.terminated hook.owner)
    (s := World.initial (fun _ => 1) fun _ => some 1)
    (l := [.request (.setHook 1 sampleLowLevel true true), .killThread 1 true])
    (fun _ _ h => of_decide_eq_true h) (by decide)
  simp only [Bool.and_eq_true, decide_eq_true_eq] at hp
  obtain ⟨htable, hhook⟩ := hp
  obtain ⟨t, ht, hchain⟩ := Option.map_eq_some_iff.mp htable
  obtain ⟨hook, hh, hhook⟩ := (Option.any_eq_true _ _).mp hhook
  simp only [Bool.and_eq_true, decide_eq_true_eq] at hhook
  obtain ⟨⟨hlow, hproc⟩, hdead⟩ := hhook
  have hlive := hall _ _ _ w hr 1 t 14 1 hook ht (by simp [hchain]) hh hlow
    (Option.isSome_iff_ne_none.mp hproc)
  rw [hdead] at hlive
  cases hlive

end Wine.Hooks
