import Wine.Console.Mirror

/-!
# Renderers over runs

Over any sequence of requests the cursors and windows stay inside their buffers, and a renderer that
applies the queued events knows the active buffer as long as every request announces its changes.
-/

namespace Wine.Console
open Wine.Lib

structure Inv (c : ConsoleInput) : Prop where
  inside : ∀ b ∈ c.buffers, b.Inside
  active : ∀ i, c.active = some i → i < c.buffers.length

/-- What the renderer will know after all queued events. -/
def ConsoleInput.shown (c : ConsoleInput) : View := c.events.foldl View.apply c.view

def Mirrored (c : ConsoleInput) : Prop :=
  ∀ i b, c.active = some i → c.buffers[i]? = some b → c.shown = viewOf b

theorem foldl_events (es events : List RendererEvent) (v : View) :
    (es.foldl consoleInputEventsAppend events).foldl View.apply v =
      es.foldl View.apply (events.foldl View.apply v) := by
  induction es generalizing events with
  | nil => rfl
  | cons e es ih =>
    rw [List.foldl_cons, ih, foldl_consoleInputEventsAppend, List.foldl_cons]

theorem initialEvents_view (v : View) :
    newScreenBuffer.initialEvents.foldl View.apply v = viewOf newScreenBuffer := rfl

theorem Inv.createConsoleOutput {c : ConsoleInput} (h : Inv c) (mem : Bool) :
    Inv (Console.createConsoleOutput c mem) := by
  have hbuffers : ∀ b ∈ c.buffers ++ [newScreenBuffer], b.Inside := by
    intro b hb
    rcases List.mem_append.mp hb with hb | hb
    · exact h.inside b hb
    · rw [List.mem_singleton.mp hb]
      exact newScreenBuffer_inside
  unfold Console.createConsoleOutput
  split
  · split
    · rename_i j hj
      refine ⟨hbuffers, fun i hi => ?_⟩
      exact (h.active i hi).trans_le (by simp)
    · refine ⟨hbuffers, fun i hi => ?_⟩
      cases hi
      simp
  · exact h

theorem Mirrored.createConsoleOutput {c : ConsoleInput} (h : Inv c) (hm : Mirrored c) (mem : Bool) :
    Mirrored (Console.createConsoleOutput c mem) := by
  unfold Console.createConsoleOutput
  split
  · split
    · rename_i j hj
      intro i b hi hb
      have hlt := h.active i hi
      simp only [List.getElem?_append_left hlt] at hb
      exact hm i b hi hb
    · intro i b hi hb
      simp only [Option.some.injEq] at hi
      simp only [← hi, List.getElem?_concat_length, Option.some.injEq] at hb
      rw [← hb]
      exact (foldl_events _ _ _).trans (initialEvents_view _)
  · exact hm

theorem Inv.setConsoleOutputInfo {c : ConsoleInput} (h : Inv c) (i : ℕ) (req : OutputInfo) :
    Inv (Console.setConsoleOutputInfo c i req) := by
  unfold Console.setConsoleOutputInfo
  split
  · exact h
  · rename_i b hb
    constructor
    · intro b' hb'
      rcases List.mem_or_eq_of_mem_set hb' with hb' | rfl
      · exact h.inside b' hb'
      · exact (changeOutput_leads c.view req (h.inside b (List.mem_of_getElem? hb))).1
    · simpa only [List.length_set] using h.active

theorem setConsoleOutputInfo_mirrored {c : ConsoleInput} (h : Inv c) (hm : Mirrored c) {i : ℕ}
    {req : OutputInfo} (hi : c.active = some i) :
    Mirrored (setConsoleOutputInfo c i req) ↔ ∀ b, c.buffers[i]? = some b → Announced b req := by
  have hlt := h.active i hi
  have hget : c.buffers[i]? = some c.buffers[i] := List.getElem?_eq_getElem hlt
  have hin := h.inside _ (List.getElem_mem hlt)
  unfold setConsoleOutputInfo
  simp only [hget]
  have hiff := (changeOutput_leads c.view req (o := ⟨c.buffers[i], c.events, c.records,
    decide (c.active = some i) && decide (c.mode &&& enableWindowInput ≠ 0)⟩) hin).2
    (hm i _ hi hget)
  constructor
  · intro hmirror b hb
    cases hb
    refine hiff.mp (hmirror i _ hi ?_)
    simp only [List.getElem?_set_self hlt]
  · intro hann j b hj hb
    obtain rfl : i = j := Option.some.inj (hi.symm.trans hj)
    simp only [List.getElem?_set_self hlt, Option.some.injEq] at hb
    rw [← hb]
    exact hiff.mpr (hann _ rfl)

theorem step_inv {c c' : ConsoleInput} {a : Action} (h : Inv c) (hst : step c a = .ok c') :
    Inv c' := by
  cases a <;> cases hst
  case createConsoleOutput mem => exact h.createConsoleOutput mem
  case setConsoleOutputInfo i req => exact h.setConsoleOutputInfo i req
  case setConsoleMode mode => exact ⟨h.inside, h.active⟩
  case getConsoleRendererEvents num => exact ⟨h.inside, h.active⟩

/-- Requests are on the active buffer. -/
def OnActive (c : ConsoleInput) : Action → Prop
  | .setConsoleOutputInfo buffer _ => c.active = some buffer
  | _ => True

def onActive (c : ConsoleInput) : Action → Bool
  | .setConsoleOutputInfo buffer _ => decide (c.active = some buffer)
  | _ => true

theorem onActive_sound {c : ConsoleInput} {a : Action} (h : onActive c a = true) :
    OnActive c a := by
  cases a with
  | setConsoleOutputInfo buffer req => exact of_decide_eq_true (p := c.active = some buffer) h
  | createConsoleOutput mem => trivial
  | setConsoleMode mode => trivial
  | getConsoleRendererEvents num => trivial

/-- Requests are on the active buffer and announce their changes. -/
def AllAnnounced (c : ConsoleInput) : Action → Prop
  | .setConsoleOutputInfo buffer req =>
    c.active = some buffer ∧ ∀ b, c.buffers[buffer]? = some b → Announced b req
  | _ => True

theorem step_mirrored {c c' : ConsoleInput} {a : Action} (h : Inv c) (hm : Mirrored c)
    (ha : AllAnnounced c a) (hst : step c a = .ok c') : Mirrored c' := by
  cases a <;> cases hst
  case createConsoleOutput mem => exact hm.createConsoleOutput h mem
  case setConsoleOutputInfo i req => exact (setConsoleOutputInfo_mirrored h hm ha.1).mpr ha.2
  case setConsoleMode mode => exact hm
  case getConsoleRendererEvents num =>
    intro i b hi hb
    rw [← hm i b hi hb]
    simp only [ConsoleInput.shown, ← List.foldl_append, List.take_append_drop]

theorem inv_initial (v : View) : Inv (createConsoleInput v) :=
  ⟨fun _ hb => (List.not_mem_nil hb).elim, fun _ hi => (by cases hi)⟩

theorem mirrored_initial (v : View) : Mirrored (createConsoleInput v) := fun _ _ hi => (by cases hi)

/-- The cursor and the window of every buffer stay inside it. As long as the requests announce their
changes, a renderer that applies all events knows the size, the window and the cursor of the active
buffer. -/
theorem view_follows (v : View) (as : List Action) (c : ConsoleInput) :
    (Run step (fun _ _ => True) (createConsoleInput v) as c → ∀ b ∈ c.buffers, b.Inside) ∧
    (Run step AllAnnounced (createConsoleInput v) as c → ∀ i b, c.active = some i →
      c.buffers[i]? = some b → c.events.foldl View.apply c.view = viewOf b) := by
  constructor
  · intro hr
    exact (hr.invariant (inv_initial v) fun _ _ _ h _ hst => step_inv h hst).inside
  · intro hr
    have hboth := hr.invariant (I := fun c => Inv c ∧ Mirrored c)
      ⟨inv_initial v, mirrored_initial v⟩
      fun _ _ _ h ha hst => ⟨step_inv h.1 hst, step_mirrored h.1 h.2 ha hst⟩
    exact hboth.2

instance (b : ScreenBuffer) (req : OutputInfo) : Decidable (Announced b req) := by
  unfold Announced Resizes GeomOk PosOk SizeOk
  infer_instance

/-- `AllAnnounced` as a test. -/
def allAnnounced (c : ConsoleInput) : Action → Bool
  | .setConsoleOutputInfo buffer req => decide (c.active = some buffer) &&
    (c.buffers[buffer]?.all fun b => decide (Announced b req))
  | _ => true

theorem allAnnounced_sound {c : ConsoleInput} {a : Action} (h : allAnnounced c a = true) :
    AllAnnounced c a := by
  cases a with
  | setConsoleOutputInfo buffer req =>
    simp only [allAnnounced, Bool.and_eq_true, decide_eq_true_eq] at h
    refine ⟨h.1, fun b hb => ?_⟩
    simpa only [hb, Option.all_some, decide_eq_true_eq] using h.2
  | createConsoleOutput mem => trivial
  | setConsoleMode mode => trivial
  | getConsoleRendererEvents num => trivial

def noInfo : OutputInfo where
  mask := 0
  cursorSize := 0
  cursorVisible := 0
  cursorX := 0
  cursorY := 0
  width := 0
  height := 0
  attr := 0
  winLeft := 0
  winTop := 0
  winRight := 0
  winBottom := 0
  maxWidth := 0
  maxHeight := 0
  mem := true
  memRecords := true
  ownConsole := true

/-- The window moves down with the cursor in it, and the buffer loses its last rows. -/
def sampleRun : List Action :=
  [.createConsoleOutput true,
    .setConsoleOutputInfo 0 { noInfo with
      mask := setCursorPos ||| setDisplayWindow
      cursorX := 5
      cursorY := 110
      winTop := 100
      winRight := 79
      winBottom := 124 },
    .getConsoleRendererEvents 3,
    .setConsoleOutputInfo 0 { noInfo with mask := setSize, width := 80, height := 130 }]

theorem view_follows_sample : ∃ c, Run step AllAnnounced (createConsoleInput (viewOf newScreenBuffer))
    sampleRun c ∧ (∀ b ∈ c.buffers, b.Inside) ∧
    ∃ b, c.buffers[0]? = some b ∧ b.height = 130 ∧ c.events.foldl View.apply c.view = viewOf b := by
  obtain ⟨c, hr, hp⟩ := run_of_execTo (f := step) (q := AllAnnounced) (g := allAnnounced)
    (s := createConsoleInput (viewOf newScreenBuffer))
    (p := fun c => decide (c.active = some 0) && decide (c.buffers[0]?.map ScreenBuffer.height = some 130))
    (l := sampleRun) (fun _ _ => allAnnounced_sound) (by decide)
  simp only [Bool.and_eq_true, decide_eq_true_eq, Option.map_eq_some_iff] at hp
  obtain ⟨hactive, b, hb, hheight⟩ := hp
  have hf := view_follows (viewOf newScreenBuffer) sampleRun c
  exact ⟨c, hr, hf.1 (hr.mono fun _ _ _ => trivial), b, hb, hheight, hf.2 hr 0 b hactive hb⟩

/-- The buffer gets so small that its window scrolls and its cursor moves. -/
theorem view_differs : ¬ ∀ (v : View) (as : List Action) (c : ConsoleInput),
    Run step OnActive (createConsoleInput v) as c → ∀ i b, c.active = some i →
      c.buffers[i]? = some b → c.events.foldl View.apply c.view = viewOf b := by
  intro hall
  obtain ⟨c, hr, hp⟩ := run_of_execTo (f := step) (q := OnActive)
    (g := onActive)
    (s := createConsoleInput (viewOf newScreenBuffer))
    (p := fun c => decide (c.active = some 0) &&
      decide (c.buffers[0]?.map viewOf = some ⟨80, 50, 0, 0, 80, 25, 100, 1, 5, 49⟩) &&
      decide (c.events.foldl View.apply c.view = ⟨80, 50, 0, 100, 80, 25, 100, 1, 0, 0⟩))
    (l := sampleRun ++ [.setConsoleOutputInfo 0 { noInfo with
      mask := setSize
      width := 80
      height := 50 }])
    (fun _ _ => onActive_sound) (by decide)
  simp only [Bool.and_eq_true, decide_eq_true_eq, Option.map_eq_some_iff] at hp
  obtain ⟨⟨hactive, b, hb, hview⟩, hevents⟩ := hp
  have heq := hall _ _ c hr 0 b hactive hb
  rw [hevents, hview] at heq
  exact absurd heq (by decide)

end Wine.Console
