import Mathlib.Data.List.Count
import Mathlib.Data.List.Nodup
import Wine.FileDesc.Poll

/-!
# Events reach the fd they were reported for

An entry that `poll` reported keeps its events only as long as its slot keeps its occupant: the
removal of an fd and the addition of one both clear the events of the slot. Free slots have a
negative descriptor, for which `poll` reports nothing, and are linked in a list without repetition.
-/

namespace Wine.Poll
open Lib

variable {s s' : State} {a : Address} {k j : ℕ} {l : List ℕ} {o : Occupant}

/-- The free slots that are linked from `start`. -/
inductive Chain (users : ℕ → User) : Option ℕ → List ℕ → Prop
  | nil : Chain users none []
  | cons {k : ℕ} {next : Option ℕ} {l : List ℕ} :
      users k = .free next → Chain users next l → Chain users (some k) (k :: l)

theorem Chain.congr {users users' : ℕ → User} {start : Option ℕ} (h : Chain users start l)
    (heq : ∀ j ∈ l, users' j = users j) : Chain users' start l := by
  induction h with
  | nil => exact .nil
  | cons hk _ ih =>
    refine .cons ((heq _ (by simp)).trans hk) (ih fun j hj => heq j (by simp [hj]))

/-- The slot of the fd at an address. -/
def State.index (s : State) (a : Address) : Option ℕ := (s.fds a).bind Fd.pollIndex

def User.isOccupied : User → Bool
  | .occupied _ => true
  | .free _ => false

def State.IsFree (s : State) (k : ℕ) : Prop := ∃ next, s.pollUsers k = .free next

/-- A call for the fd that had the slot when `poll` reported the events, and that was not removed
in between. -/
def Call.Right (c : Call) : Prop :=
  c.reported = (.occupied c.occupant, c.revents) ∧ c.revents ≠ 0 ∧ c.wasRemoved = false

/-- The array is being scanned. -/
def Phase.Scanning : Phase → Prop
  | .scan .. | .handling .. => True
  | _ => False

/-- The list of free slots has each free slot once, and the others are counted. -/
def FreeSlots (s : State) (l : List ℕ) : Prop :=
  Chain s.pollUsers s.freelist l ∧ l.Nodup ∧ (∀ k, k ∈ l ↔ k < s.nbUsers ∧ s.IsFree k) ∧
    s.activeUsers + l.length = s.nbUsers

structure Inv (s : State) : Prop where
  free : ∃ l, FreeSlots s l
  owner : ∀ k o, k < s.nbUsers → s.pollUsers k = .occupied o →
    o.serial < s.nextSerial ∧ o ∉ s.removed ∧ s.index o.fd = some k
  slot : ∀ a k, s.index a = some k → k < s.nbUsers ∧ ∃ serial, s.pollUsers k = .occupied ⟨a, serial⟩
  removed : ∀ o ∈ s.removed, o.serial < s.nextSerial
  closed : ∀ k < s.nbUsers, s.IsFree k → (s.pollfd k).fd = -1
  reported : s.phase.Scanning → ∀ k < s.nbUsers, (s.pollfd k).revents ≠ 0 →
    ∃ o, s.pollUsers k = .occupied o ∧ s.reported k = (.occupied o, (s.pollfd k).revents)
  calls : ∀ c ∈ s.calls, c.Right

section Slots

/-- The occupation of a slot that is not linked, next to the free slots `l`. -/
theorem Inv.occupy (h : Inv s) (ha : s.fds a = none) (k : ℕ) (next : Option ℕ)
    (nbUsers allocated : ℕ) (hk : k < nbUsers) (hnb : s.nbUsers ≤ nbUsers)
    (hnew : ∀ j < nbUsers, j ≠ k → j < s.nbUsers)
    (hvacant : k < s.nbUsers → s.IsFree k) (hchain : Chain s.pollUsers next l) (hnodup : l.Nodup)
    (hmem : ∀ j, j ∈ l ↔ j < nbUsers ∧ j ≠ k ∧ s.IsFree j)
    (hcount : s.activeUsers + 1 + l.length = nbUsers) :
    Inv { Poll.occupy { s with freelist := next, nbUsers, allocatedUsers := allocated } k a with
      fds := Function.update s.fds a (some ⟨-1, some k⟩) } := by
  have hother : ∀ o, ∀ j < nbUsers, j ≠ k → s.pollUsers j = .occupied o → o.fd ≠ a := by
    intro o j hj hjk ho heq
    obtain ⟨-, -, hidx⟩ := h.owner j o (hnew j hj hjk) ho
    rw [heq, State.index, ha] at hidx
    cases hidx
  have hnotin : k ∉ l := fun hin => ((hmem k).mp hin).2.1 rfl
  constructor
  · refine ⟨l, ?_, hnodup, fun j => ?_, ?_⟩
    · refine hchain.congr fun j hj => Function.update_of_ne ?_ _ _
      rintro rfl
      exact hnotin hj
    · simp only [Poll.occupy, State.IsFree]
      by_cases hjk : j = k
      · simp [hjk, hnotin]
      · rw [Function.update_of_ne hjk, hmem j]
        simp [hjk, State.IsFree]
    · exact hcount
  · intro j o hj ho
    simp only [Poll.occupy] at ho ⊢
    by_cases hjk : j = k
    · subst hjk
      rw [Function.update_self, User.occupied.injEq] at ho
      subst ho
      refine ⟨Nat.lt_succ_self _, fun hin => Nat.lt_irrefl _ (h.removed _ hin), ?_⟩
      simp only [State.index, Function.update_self]
      rfl
    · rw [Function.update_of_ne hjk] at ho
      obtain ⟨hserial, hgone, hidx⟩ := h.owner j o (hnew j hj hjk) ho
      refine ⟨Nat.lt_succ_of_lt hserial, hgone, ?_⟩
      simpa only [State.index, Function.update_of_ne (hother o j hj hjk ho)] using hidx
  · intro b j hidx
    simp only [Poll.occupy, State.index] at hidx ⊢
    by_cases hb : b = a
    · subst hb
      rw [Function.update_self] at hidx
      obtain rfl : k = j := Option.some.inj hidx
      exact ⟨hk, s.nextSerial, Function.update_self ..⟩
    · rw [Function.update_of_ne hb] at hidx
      obtain ⟨hlt, serial, ho⟩ := h.slot b j hidx
      have hjk : j ≠ k := by
        rintro rfl
        obtain ⟨next, hfree⟩ := hvacant hlt
        rw [ho] at hfree
        cases hfree
      exact ⟨Nat.lt_of_lt_of_le hlt hnb, serial, by rwa [Function.update_of_ne hjk]⟩
  · exact fun o ho => Nat.lt_succ_of_lt (h.removed o ho)
  · intro j hj hfree
    simp only [Poll.occupy, State.IsFree] at hfree ⊢
    by_cases hjk : j = k
    · rw [hjk, Function.update_self]
    · rw [Function.update_of_ne hjk] at hfree ⊢
      exact h.closed j (hnew j hj hjk) hfree
  · intro hscan j hj hrev
    simp only [Poll.occupy] at hrev ⊢
    by_cases hjk : j = k
    · rw [hjk, Function.update_self] at hrev
      exact absurd rfl hrev
    · rw [Function.update_of_ne hjk] at hrev ⊢
      rw [Function.update_of_ne hjk]
      exact h.reported hscan j (hnew j hj hjk) hrev
  · exact h.calls

/-- A new fd object gets a free slot or the slot behind the last, or none if the arrays cannot
grow. -/
theorem Inv.alloc (h : Inv s) (ha : s.fds a = none) (growth : Growth) :
    ∃ s', perform s (.allocFdObject a growth) = .ok s' ∧ Inv s' := by
  obtain ⟨l, hchain, hnodup, hmem, hcount⟩ := h.free
  -- the slot behind the last, when no slot is free
  have hlast : s.freelist = none → ∀ allocated, Inv { Poll.occupy { s with
      freelist := none, allocatedUsers := allocated, nbUsers := s.nbUsers + 1 } s.nbUsers a with
      fds := Function.update s.fds a (some ⟨-1, some s.nbUsers⟩) } := by
    intro hnone allocated
    rw [hnone] at hchain
    cases hchain
    refine h.occupy (l := []) ha s.nbUsers none (s.nbUsers + 1) allocated (Nat.lt_succ_self _)
      (Nat.le_succ _) (fun j hj hne => by omega) (fun hlt => absurd hlt (Nat.lt_irrefl _)) .nil .nil
      (fun j => ?_) ?_
    · constructor
      · intro hj
        cases hj
      · rintro ⟨hj, hne, hfree⟩
        exact (hmem j).mpr ⟨by omega, hfree⟩
    · simp only [List.length_nil] at hcount ⊢
      omega
  rw [perform, addPollUser]
  cases hlist : s.freelist with
  | none =>
    simp only
    by_cases hfull : s.nbUsers = s.allocatedUsers
    · rw [if_pos hfull]
      cases growth with
      | grows => exact ⟨_, rfl, hlast hlist _⟩
      | usersFail => exact ⟨s, rfl, h⟩
      | pollFails => exact ⟨s, rfl, h⟩
    · rw [if_neg hfull]
      exact ⟨_, rfl, hlast hlist _⟩
  | some ret =>
    rw [hlist] at hchain
    cases hchain with
    | cons hret hchain =>
      rename_i next l
      simp only [hret]
      refine ⟨_, rfl, h.occupy (l := l) ha ret next s.nbUsers s.allocatedUsers
        ((hmem ret).mp (by simp)).1 (Nat.le_refl _) (fun _ hj _ => hj) (fun _ => ⟨next, hret⟩)
        hchain (List.nodup_cons.mp hnodup).2 (fun j => ?_) ?_⟩
      · have hj := hmem j
        rw [List.mem_cons] at hj
        constructor
        · intro hin
          refine ⟨(hj.mp (.inr hin)).1, ?_, (hj.mp (.inr hin)).2⟩
          rintro rfl
          exact (List.nodup_cons.mp hnodup).1 hin
        · rintro ⟨hlt, hne, hfree⟩
          exact (hj.mpr ⟨hlt, hfree⟩).resolve_left hne
      · simp only [List.length_cons] at hcount ⊢
        omega

/-- What changes no fd's slot. -/
theorem Inv.withFds (h : Inv s) {fds : Address → Option Fd}
    (hfds : ∀ a, (fds a).bind Fd.pollIndex = s.index a) : Inv { s with fds } where
  free := h.free
  owner k o hk ho := by
    obtain ⟨hserial, hgone, hidx⟩ := h.owner k o hk ho
    exact ⟨hserial, hgone, (hfds o.fd).trans hidx⟩
  slot a k hidx := h.slot a k ((hfds a).symm.trans hidx)
  removed := h.removed
  closed := h.closed
  reported := h.reported
  calls := h.calls

/-- The removal of an fd frees its slot. -/
theorem Inv.remove (h : Inv s) (hidx : s.index a = some k) :
    ∃ s', removePollUser s a k = .ok s' ∧ s'.fds = s.fds ∧
      Inv { s' with fds := Function.update s.fds a none } := by
  obtain ⟨hk, serial, ho⟩ := h.slot a k hidx
  obtain ⟨l, hchain, hnodup, hmem, hcount⟩ := h.free
  have hnotin : k ∉ l := by
    intro hin
    obtain ⟨-, next, hfree⟩ := (hmem k).mp hin
    rw [ho] at hfree
    cases hfree
  -- the other occupants have other addresses
  have hother : ∀ j o, j < s.nbUsers → j ≠ k → s.pollUsers j = .occupied o → o.fd ≠ a := by
    intro j o hj hjk hoj heq
    obtain ⟨-, -, hj'⟩ := h.owner j o hj hoj
    rw [heq, hidx] at hj'
    exact hjk (Option.some.inj hj').symm
  have huser : theUser s k a = .ok ⟨a, serial⟩ := by
    rw [theUser, ho]
    exact if_pos rfl
  refine ⟨vacate s k ⟨a, serial⟩, by rw [removePollUser, huser]; rfl, rfl, ?_⟩
  constructor
  · refine ⟨k :: l, .cons (Function.update_self ..) ?_, List.nodup_cons.mpr ⟨hnotin, hnodup⟩,
      fun j => ?_, ?_⟩
    · refine hchain.congr fun j hj => Function.update_of_ne ?_ _ _
      rintro rfl
      exact hnotin hj
    · rw [List.mem_cons]
      by_cases hjk : j = k
      · subst hjk
        exact ⟨fun _ => ⟨hk, s.freelist, Function.update_self ..⟩, fun _ => .inl rfl⟩
      · simp only [vacate, State.IsFree, Function.update_of_ne hjk, hjk, false_or]
        exact hmem j
    · simp only [vacate, List.length_cons]
      omega
  · intro j o hj hoj
    simp only [vacate] at hoj ⊢
    by_cases hjk : j = k
    · rw [hjk, Function.update_self] at hoj
      cases hoj
    · rw [Function.update_of_ne hjk] at hoj
      obtain ⟨hserial, hgone, hj'⟩ := h.owner j o hj hoj
      have hne := hother j o hj hjk hoj
      refine ⟨hserial, ?_, by simpa only [State.index, Function.update_of_ne hne] using hj'⟩
      rw [List.mem_cons, not_or]
      refine ⟨?_, hgone⟩
      rintro rfl
      exact hne rfl
  · intro b j hb
    simp only [vacate, State.index] at hb ⊢
    have hba : b ≠ a := by
      rintro rfl
      rw [Function.update_self] at hb
      cases hb
    rw [Function.update_of_ne hba] at hb
    obtain ⟨hj, serial', ho'⟩ := h.slot b j hb
    have hjk : j ≠ k := by
      rintro rfl
      rw [ho, User.occupied.injEq, Occupant.mk.injEq] at ho'
      exact hba ho'.1.symm
    exact ⟨hj, serial', by rwa [Function.update_of_ne hjk]⟩
  · intro o hin
    obtain rfl | hin := List.mem_cons.mp hin
    · exact (h.owner k _ hk ho).1
    · exact h.removed o hin
  · intro j hj hfree
    simp only [vacate, State.IsFree] at hfree ⊢
    by_cases hjk : j = k
    · rw [hjk, Function.update_self]
    · simp only [Function.update_of_ne hjk] at hfree ⊢
      exact h.closed j hj hfree
  · intro hscan j hj hrev
    simp only [vacate] at hrev ⊢
    by_cases hjk : j = k
    · rw [hjk, Function.update_self] at hrev
      exact absurd rfl hrev
    · simp only [Function.update_of_ne hjk] at hrev ⊢
      exact h.reported hscan j hj hrev
  · exact h.calls

/-- An entry of an occupied slot, with the events it had or none. -/
theorem Inv.setEntry (h : Inv s) (hidx : s.index a = some k) (entry : PollFd)
    (hrev : entry.revents = (s.pollfd k).revents ∨ entry.revents = 0) :
    Inv { s with pollfd := Function.update s.pollfd k entry } := by
  obtain ⟨hk, serial, ho⟩ := h.slot a k hidx
  refine ⟨h.free, h.owner, h.slot, h.removed, ?_, ?_, h.calls⟩
  · rintro j hj ⟨next, hfree⟩
    have hjk : j ≠ k := by
      rintro rfl
      rw [ho] at hfree
      cases hfree
    simp only [Function.update_of_ne hjk]
    exact h.closed j hj ⟨next, hfree⟩
  · intro hscan j hj hne
    by_cases hjk : j = k
    · subst hjk
      simp only [Function.update_self] at hne ⊢
      obtain hrev | hrev := hrev
      · rw [hrev] at hne ⊢
        exact h.reported hscan j hj hne
      · exact absurd hrev hne
    · simp only [Function.update_of_ne hjk] at hne ⊢
      exact h.reported hscan j hj hne

theorem Inv.setEvents (h : Inv s) (hf : ∃ f ∈ s.fds a, f.pollIndex ≠ none)
    (events : Option (BitVec 16)) : ∃ s', setFdEvents s a events = .ok s' ∧ Inv s' := by
  obtain ⟨f, hf, hne⟩ := hf
  obtain ⟨user, huser⟩ := Option.ne_none_iff_exists'.mp hne
  rw [Option.mem_def] at hf
  have hidx : s.index a = some user := by
    rw [State.index, hf]
    exact huser
  obtain ⟨-, serial, ho⟩ := h.slot a user hidx
  have htheUser : theUser s user a = .ok ⟨a, serial⟩ := by
    rw [theUser, ho]
    exact if_pos rfl
  simp only [setFdEvents, hf, huser, htheUser]
  cases events with
  | none => exact ⟨_, rfl, h.setEntry hidx _ (.inr rfl)⟩
  | some events =>
    by_cases hset : (s.pollfd user).fd ≠ -1 ∨ (s.pollfd user).events = 0
    · exact ⟨_, if_pos hset, h.setEntry hidx _ (.inl rfl)⟩
    · exact ⟨_, if_neg hset, h⟩

theorem Inv.perform (h : Inv s) {op : Op} (hop : op.Proper s) :
    ∃ s', Poll.perform s op = .ok s' ∧ Inv s' := by
  cases op with
  | allocFdObject a growth => exact h.alloc hop growth
  | allocPseudoFd a =>
    refine ⟨_, rfl, h.withFds fun b => ?_⟩
    by_cases hb : b = a
    · rw [hb, Function.update_self, State.index, show s.fds a = none from hop]
      rfl
    · rw [Function.update_of_ne hb, State.index]
  | setUnixFd a unixFd =>
    obtain ⟨f, hf⟩ := Option.ne_none_iff_exists'.mp hop
    simp only [Poll.perform, hf]
    refine ⟨_, rfl, h.withFds fun b => ?_⟩
    by_cases hb : b = a
    · rw [hb, Function.update_self, State.index, hf]
      rfl
    · rw [Function.update_of_ne hb, State.index]
  | fdDestroy a =>
    obtain ⟨f, hf⟩ := Option.ne_none_iff_exists'.mp hop
    simp only [Poll.perform, hf]
    cases hidx : f.pollIndex with
    | none =>
      refine ⟨_, rfl, h.withFds fun b => ?_⟩
      by_cases hb : b = a
      · rw [hb, Function.update_self, State.index, hf]
        exact hidx.symm
      · rw [Function.update_of_ne hb, State.index]
    | some k =>
      have hindex : s.index a = some k := by
        rw [State.index, hf]
        exact hidx
      obtain ⟨s', hs', hfds, hinv⟩ := h.remove hindex
      simp only [hs']
      exact ⟨_, rfl, hfds ▸ hinv⟩
  | setFdEvents a events => exact h.setEvents hop events

end Slots

section Loop

/-- Outside a scan nothing is said of the events in the array. -/
theorem Inv.withPhase (h : Inv s) {phase : Phase} (hphase : phase.Scanning → s.phase.Scanning) :
    Inv { s with phase } :=
  ⟨h.free, h.owner, h.slot, h.removed, h.closed, fun hscan => h.reported (hphase hscan), h.calls⟩

theorem Inv.loopHead (h : Inv s) : Inv (loopHead s) := by
  refine h.withPhase fun hscan => ?_
  split at hscan <;> exact hscan.elim

/-- `poll` reports events of open descriptors only, and those have an occupant. -/
theorem Inv.poll (h : Inv s) {revents : ℕ → BitVec 16}
    (hclosed : ∀ i < s.nbUsers, (s.pollfd i).fd = -1 → revents i = 0) (ret : ℤ) :
    Inv { s with
      pollfd := fun i => if i < s.nbUsers then { s.pollfd i with revents := revents i }
        else s.pollfd i
      reported := fun i => (s.pollUsers i, revents i)
      phase := .scan 0 ret } := by
  refine ⟨h.free, h.owner, h.slot, h.removed, ?_, ?_, h.calls⟩
  · intro k hk hfree
    simp only [if_pos (show k < s.nbUsers from hk)]
    exact h.closed k hk hfree
  · intro _ k hk hrev
    simp only [if_pos (show k < s.nbUsers from hk)] at hrev ⊢
    cases huser : s.pollUsers k with
    | occupied o => exact ⟨o, rfl, rfl⟩
    | free next => exact absurd (hclosed k hk (h.closed k hk ⟨next, huser⟩)) hrev

/-- The results of a call that reported no event are never looked at. -/
theorem Inv.pollNone (h : Inv s) {revents : ℕ → BitVec 16} {reported : ℕ → User × BitVec 16}
    (hphase : s.phase = .timeouts) :
    Inv { s with
      pollfd := fun i => if i < s.nbUsers then { s.pollfd i with revents := revents i }
        else s.pollfd i
      reported } := by
  refine ⟨h.free, h.owner, h.slot, h.removed, ?_, ?_, h.calls⟩
  · intro k hk hfree
    simp only [if_pos (show k < s.nbUsers from hk)]
    exact h.closed k hk hfree
  · intro hscan
    rw [show _ = Phase.timeouts from hphase] at hscan
    exact hscan.elim

theorem Inv.examine (h : Inv s) {i : ℕ} {ret : ℤ} (hphase : s.phase = .scan i ret) :
    ∃ s', step s .examine = .ok s' ∧ Inv s' := by
  have hscan : s.phase.Scanning := by
    rw [hphase]
    trivial
  simp only [step, hphase]
  by_cases hi : i < s.nbUsers
  · rw [if_pos hi]
    by_cases hrev : (s.pollfd i).revents ≠ 0
    · obtain ⟨o, ho, hreported⟩ := h.reported hscan i hi hrev
      rw [if_pos hrev, ho]
      refine ⟨_, rfl, h.free, h.owner, h.slot, h.removed, h.closed, fun _ => h.reported hscan, ?_⟩
      intro c hc
      rw [List.mem_append, List.mem_singleton] at hc
      obtain hc | rfl := hc
      · exact h.calls c hc
      · exact ⟨hreported, hrev, decide_eq_false (h.owner i o hi ho).2.1⟩
    · rw [if_neg hrev]
      exact ⟨_, rfl, h.withPhase fun _ => hscan⟩
  · rw [if_neg hi]
    exact ⟨_, rfl, h.loopHead⟩

/-- Whatever happens next goes well and keeps the invariant. -/
theorem Inv.step (h : Inv s) {action : Action} (hposs : Possible s action) :
    ∃ s', Poll.step s action = .ok s' ∧ Inv s' := by
  cases action with
  | op o => exact h.perform hposs.2
  | enter => exact ⟨_, rfl, h.loopHead⟩
  | poll ret revents =>
    obtain ⟨hphase, hclosed⟩ := hposs
    simp only [Poll.step]
    by_cases hactive : s.activeUsers = 0
    · rw [if_pos hactive]
      exact ⟨_, rfl, h.withPhase fun hscan => hscan.elim⟩
    · rw [if_neg hactive]
      by_cases hret : 0 < ret
      · rw [if_pos hret]
        exact ⟨_, rfl, h.poll (hclosed hret) ret⟩
      · rw [if_neg hret]
        exact ⟨_, rfl, (h.pollNone hphase).loopHead⟩
  | examine =>
    obtain ⟨i, ret, hphase⟩ := hposs
    exact h.examine hphase
  | handlerReturns =>
    obtain ⟨i, ret, hphase⟩ := hposs
    simp only [Poll.step, hphase]
    by_cases hret : ret - 1 = 0
    · rw [if_pos hret]
      exact ⟨_, rfl, h.loopHead⟩
    · rw [if_neg hret]
      refine ⟨_, rfl, h.withPhase fun _ => ?_⟩
      rw [hphase]
      trivial

theorem inv_init : Inv init where
  free := ⟨[], .nil, .nil, fun k => by simp [init], rfl⟩
  owner k o hk := absurd hk (Nat.not_lt_zero k)
  slot a k hidx := by cases hidx
  removed o ho := by cases ho
  closed k hk := absurd hk (Nat.not_lt_zero k)
  reported hscan := hscan.elim
  calls c hc := by cases hc

theorem Run.inv {as : List Action} (h : Run step Possible init as s) : Inv s :=
  h.invariant inv_init fun _ _ _ ht hok hst => by
    obtain ⟨s', hs', hinv⟩ := ht.step hok
    rw [hst, Except.ok.injEq] at hs'
    exact hs' ▸ hinv

/-- The occupied slots are those that are not linked. -/
theorem FreeSlots.activeUsers (h : FreeSlots s l) : s.activeUsers =
    (List.range s.nbUsers).countP fun k => (s.pollUsers k).isOccupied := by
  obtain ⟨-, hnodup, hmem, hcount⟩ := h
  have hfree : l.Perm ((List.range s.nbUsers).filter fun k => !(s.pollUsers k).isOccupied) := by
    rw [List.perm_ext_iff_of_nodup hnodup (List.nodup_range.filter _)]
    intro k
    rw [hmem, List.mem_filter, List.mem_range]
    refine and_congr_right fun _ => ?_
    cases huser : s.pollUsers k with
    | occupied o => simp [State.IsFree, huser, User.isOccupied]
    | free next => simp [State.IsFree, huser, User.isOccupied]
  have hlen : l.length = (List.range s.nbUsers).countP fun k => !(s.pollUsers k).isOccupied := by
    rw [hfree.length_eq, List.countP_eq_length_filter]
  have hall := List.length_eq_countP_add_countP (fun k => (s.pollUsers k).isOccupied)
    (l := List.range s.nbUsers)
  simp only [List.length_range, Bool.not_eq_true] at hall
  have hnot : (List.range s.nbUsers).countP (fun k => decide ((s.pollUsers k).isOccupied = false)) =
      (List.range s.nbUsers).countP fun k => !(s.pollUsers k).isOccupied := by
    refine List.countP_congr fun k _ => ?_
    simp
  omega

/-- In every run of the server each call of `fd_poll_event` is for the fd that had the slot when
`poll` reported the events and that has not been removed since, the occupied slots are counted and
the others linked once each, and nothing that can happen fails an assertion. -/
theorem poll_events_reach_fd {as : List Action} (h : Run step Possible init as s) :
    (∀ c ∈ s.calls, c.Right) ∧
    s.activeUsers = (List.range s.nbUsers).countP (fun k => (s.pollUsers k).isOccupied) ∧
    (∃ l, Chain s.pollUsers s.freelist l ∧ l.Nodup ∧
      ∀ k, k ∈ l ↔ k < s.nbUsers ∧ s.IsFree k) ∧
    ∀ action, Possible s action → ∃ s', step s action = .ok s' := by
  have hinv := Run.inv h
  obtain ⟨l, hfree⟩ := hinv.free
  refine ⟨hinv.calls, hfree.activeUsers, ⟨l, hfree.1, hfree.2.1, hfree.2.2.1⟩, ?_⟩
  intro action hposs
  obtain ⟨s', hs', -⟩ := hinv.step hposs
  exact ⟨s', hs'⟩

def isProper (s : State) : Op → Bool
  | .allocFdObject a _ | .allocPseudoFd a => (s.fds a).isNone
  | .setUnixFd a _ | .fdDestroy a => (s.fds a).isSome
  | .setFdEvents a _ => (s.index a).isSome

def isPossible (s : State) : Action → Bool
  | .op o =>
    (match s.phase with
      | .idle | .timeouts | .handling .. => true
      | _ => false) && isProper s o
  | .enter => s.phase = .idle
  | .poll ret revents => s.phase = .timeouts &&
      (ret ≤ 0 || (List.range s.nbUsers).all fun i => (s.pollfd i).fd != -1 || revents i == 0)
  | .examine =>
    match s.phase with
    | .scan .. => true
    | _ => false
  | .handlerReturns =>
    match s.phase with
    | .handling .. => true
    | _ => false

theorem proper_of_isProper {op : Op} (h : isProper s op = true) : op.Proper s := by
  cases op with
  | allocFdObject a growth => exact Option.isNone_iff_eq_none.mp h
  | allocPseudoFd a => exact Option.isNone_iff_eq_none.mp h
  | setUnixFd a unixFd => exact Option.isSome_iff_ne_none.mp h
  | fdDestroy a => exact Option.isSome_iff_ne_none.mp h
  | setFdEvents a events =>
    obtain ⟨k, hk⟩ := Option.isSome_iff_exists.mp h
    obtain ⟨f, hf, hidx⟩ := Option.bind_eq_some_iff.mp hk
    exact ⟨f, hf, by simp [hidx]⟩

theorem possible_of_isPossible (s : State) (action : Action) (h : isPossible s action = true) :
    Possible s action := by
  cases action with
  | op o =>
    simp only [isPossible, Bool.and_eq_true] at h
    refine ⟨?_, proper_of_isProper h.2⟩
    cases hphase : s.phase with
    | idle => exact .inl rfl
    | timeouts => exact .inr (.inl rfl)
    | handling i ret => exact .inr (.inr ⟨i, ret, rfl⟩)
    | scan i ret => simp [hphase] at h
    | stopped => simp [hphase] at h
  | enter => exact of_decide_eq_true (p := s.phase = .idle) h
  | poll ret revents =>
    simp only [isPossible, Bool.and_eq_true, decide_eq_true_iff, Bool.or_eq_true, List.all_eq_true,
      List.mem_range, bne_iff_ne, beq_iff_eq] at h
    refine ⟨h.1, fun hret i hi hfd => ?_⟩
    obtain hle | hall := h.2
    · exact absurd hret (Int.not_lt.mpr hle)
    · exact (hall i hi).resolve_left (not_not_intro hfd)
  | examine =>
    simp only [isPossible] at h
    split at h
    · rename_i i ret hphase
      exact ⟨i, ret, hphase⟩
    · cases h
  | handlerReturns =>
    simp only [isPossible] at h
    split at h
    · rename_i i ret hphase
      exact ⟨i, ret, hphase⟩
    · cases h

/-- Two fds have events; the handler of the first closes the second and makes a third one, which
gets its slot. -/
def sampleRun : List Action :=
  [.op (.allocFdObject 10 .grows), .op (.setUnixFd 10 5), .op (.setFdEvents 10 (some 1)),
    .op (.allocFdObject 11 .grows), .op (.setUnixFd 11 6), .op (.setFdEvents 11 (some 1)),
    .enter, .poll 2 (fun i => if i < 2 then 1 else 0), .examine, .op (.fdDestroy 11),
    .op (.allocFdObject 12 .grows), .op (.setUnixFd 12 6), .op (.setFdEvents 12 (some 1)),
    .handlerReturns, .examine, .examine]

theorem poll_events_reach_fd_sample : ∃ s, Run step Possible init sampleRun s ∧
    s.calls.length = 1 ∧ s.pollUsers 1 = .occupied ⟨12, 2⟩ ∧ ∀ c ∈ s.calls, c.Right := by
  obtain ⟨s, hrun, hs⟩ := run_of_execTo (f := step) (q := Possible) (g := isPossible)
    (p := fun s => s.calls.length = 1 && s.pollUsers 1 = .occupied ⟨12, 2⟩) (s := init)
    (l := sampleRun) possible_of_isPossible (by decide)
  simp only [Bool.and_eq_true, decide_eq_true_iff] at hs
  exact ⟨s, hrun, hs.1, hs.2, (poll_events_reach_fd hrun).1⟩

end Loop

end Wine.Poll
