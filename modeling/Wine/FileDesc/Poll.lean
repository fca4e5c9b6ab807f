import Mathlib.Data.Int.Notation
import Wine.Lib.Runs

/-!
# The main loop and the poll array

Every fd object that can be waited on has a slot of the poll array. Free slots are linked through
the array of users, in the place of the fd. The main loop scans the array while the handlers it
calls close fds, make new ones and change events. An address may be used again once its fd is gone,
so an occupant of a slot also has a serial number, which the code does not have.
-/

namespace Wine.Poll
open Lib

abbrev Address := ℕ

structure Occupant where
  fd : Address
  serial : ℕ
  deriving DecidableEq, Repr

/-- An entry of `poll_users`: an fd, or the link of a free slot. -/
inductive User
  | occupied (o : Occupant)
  | free (next : Option ℕ)
  deriving DecidableEq, Repr

/-- `struct pollfd` -/
structure PollFd where
  fd : ℤ
  events : BitVec 16
  revents : BitVec 16
  deriving DecidableEq, Repr

def pollErr : BitVec 16 := 0x0008

/-- What the poll array has to do with of an fd object; an index of -1 is `none`. -/
structure Fd where
  unixFd : ℤ
  pollIndex : Option ℕ
  deriving DecidableEq, Repr

/-- Where the main loop is. -/
inductive Phase
  | idle
  | timeouts
  | scan (i : ℕ) (ret : ℤ)
  | handling (i : ℕ) (ret : ℤ)
  | stopped
  deriving DecidableEq, Repr

/-- A call of `fd_poll_event`, with the user and the events its slot had when `poll` returned, and
whether the occupant has been removed from the poll array before the call. -/
structure Call where
  slot : ℕ
  occupant : Occupant
  revents : BitVec 16
  reported : User × BitVec 16
  wasRemoved : Bool
  deriving DecidableEq, Repr

structure State where
  pollUsers : ℕ → User
  pollfd : ℕ → PollFd
  nbUsers : ℕ
  activeUsers : ℤ
  allocatedUsers : ℕ
  freelist : Option ℕ
  fds : Address → Option Fd
  phase : Phase
  -- not in the code: serial numbers, occupants that are gone, what `poll` reported last, and the
  -- calls made so far
  nextSerial : ℕ
  removed : List Occupant
  reported : ℕ → User × BitVec 16
  calls : List Call

inductive Fault
  | assertion
  | badPointer
  | unavailable
  deriving DecidableEq, Repr

/-- How the two calls of `realloc` end. -/
inductive Growth
  | grows
  | usersFail
  | pollFails
  deriving DecidableEq, Repr

/-- The slot `k` given to the fd at `a`. -/
def occupy (s : State) (k : ℕ) (a : Address) : State :=
  { s with
    pollfd := Function.update s.pollfd k ⟨-1, 0, 0⟩
    pollUsers := Function.update s.pollUsers k (.occupied ⟨a, s.nextSerial⟩)
    nextSerial := s.nextSerial + 1
    activeUsers := s.activeUsers + 1 }

/-- `add_poll_user`; an index of -1 is `none`. -/
def addPollUser (s : State) (a : Address) (growth : Growth) : Except Fault (State × Option ℕ) :=
  match s.freelist with
  | some ret =>
    match s.pollUsers ret with
    | .occupied _ => .error .badPointer
    | .free next => .ok (occupy { s with freelist := next } ret a, some ret)
  | none =>
    if s.nbUsers = s.allocatedUsers then
      let newCount :=
        if s.allocatedUsers ≠ 0 then s.allocatedUsers + s.allocatedUsers / 2 else 16
      match growth with
      | .usersFail | .pollFails => .ok (s, none)
      | .grows =>
        .ok (occupy { s with allocatedUsers := newCount, nbUsers := s.nbUsers + 1 } s.nbUsers a,
          some s.nbUsers)
    else .ok (occupy { s with nbUsers := s.nbUsers + 1 } s.nbUsers a, some s.nbUsers)

/-- `assert( poll_users[user] == fd )` -/
def theUser (s : State) (user : ℕ) (a : Address) : Except Fault Occupant :=
  match s.pollUsers user with
  | .occupied o => if o.fd = a then .ok o else .error .assertion
  | .free _ => .error .assertion

/-- The slot `k` without its occupant. -/
def vacate (s : State) (k : ℕ) (o : Occupant) : State :=
  { s with
    pollfd := Function.update s.pollfd k ⟨-1, 0, 0⟩
    pollUsers := Function.update s.pollUsers k (.free s.freelist)
    freelist := some k
    activeUsers := s.activeUsers - 1
    removed := o :: s.removed }

/-- `remove_poll_user` -/
def removePollUser (s : State) (a : Address) (user : ℕ) : Except Fault State :=
  (theUser s user a).map (vacate s user)

/-- `set_fd_events`; the events -1 are `none`. -/
def setFdEvents (s : State) (a : Address) (events : Option (BitVec 16)) : Except Fault State :=
  match s.fds a with
  | none => .error .badPointer
  | some f =>
    match f.pollIndex with
    | none => .error .badPointer
    | some user => do
      let _ ← theUser s user a
      match events with
      | none => return { s with pollfd := Function.update s.pollfd user ⟨-1, pollErr, 0⟩ }
      | some events =>
        if (s.pollfd user).fd ≠ -1 ∨ (s.pollfd user).events = 0 then
          let entry : PollFd := { s.pollfd user with fd := f.unixFd, events }
          return { s with pollfd := Function.update s.pollfd user entry }
        else return s

/-- What handlers and timeout callbacks do with fds. -/
inductive Op
  | allocFdObject (a : Address) (growth : Growth)
  | allocPseudoFd (a : Address)
  | setUnixFd (a : Address) (unixFd : ℤ)
  | fdDestroy (a : Address)
  | setFdEvents (a : Address) (events : Option (BitVec 16))
  deriving DecidableEq, Repr

def perform (s : State) : Op → Except Fault State
  | .allocFdObject a growth => do
    let (s, user) ← addPollUser s a growth
    match user with
    | some _ => return { s with fds := Function.update s.fds a (some ⟨-1, user⟩) }
    | none => return s
  | .allocPseudoFd a => .ok { s with fds := Function.update s.fds a (some ⟨-1, none⟩) }
  | .setUnixFd a unixFd =>
    match s.fds a with
    | none => .error .badPointer
    | some f => .ok { s with fds := Function.update s.fds a (some { f with unixFd }) }
  | .fdDestroy a =>
    match s.fds a with
    | none => .error .badPointer
    | some f => do
      let s ← match f.pollIndex with
        | some user => removePollUser s a user
        | none => .ok s
      return { s with fds := Function.update s.fds a none }
  | .setFdEvents a events => setFdEvents s a events

/-- `while (active_users)` -/
def loopHead (s : State) : State :=
  { s with phase := if s.activeUsers ≠ 0 then .timeouts else .stopped }

/-- What happens next: an operation of the server, the start of `main_loop`, the return of `poll`
with its result and the events it stored, the next slot of the scan, the return of a handler. -/
inductive Action
  | op (o : Op)
  | enter
  | poll (ret : ℤ) (revents : ℕ → BitVec 16)
  | examine
  | handlerReturns

def step (s : State) : Action → Except Fault State
  | .op o => perform s o
  | .enter => .ok (loopHead s)
  | .poll ret revents =>
    if s.activeUsers = 0 then .ok { s with phase := .stopped }
    else
      let s := { s with
        pollfd := fun i => if i < s.nbUsers then { s.pollfd i with revents := revents i }
          else s.pollfd i
        reported := fun i => (s.pollUsers i, revents i) }
      if 0 < ret then .ok { s with phase := .scan 0 ret } else .ok (loopHead s)
  | .examine =>
    match s.phase with
    | .scan i ret =>
      if i < s.nbUsers then
        if (s.pollfd i).revents ≠ 0 then
          match s.pollUsers i with
          | .occupied o =>
            .ok { s with
              phase := .handling i ret
              calls := s.calls ++
                [⟨i, o, (s.pollfd i).revents, s.reported i, decide (o ∈ s.removed)⟩] }
          | .free _ => .error .badPointer
        else .ok { s with phase := .scan (i + 1) ret }
      else .ok (loopHead s)
    | _ => .error .unavailable
  | .handlerReturns =>
    match s.phase with
    | .handling i ret =>
      if ret - 1 = 0 then .ok (loopHead s) else .ok { s with phase := .scan (i + 1) (ret - 1) }
    | _ => .error .unavailable

/-- Callers give a new object an address that is not in use, and hold pointers to objects that are;
the events they set are those of fds with a slot. -/
def Op.Proper (s : State) : Op → Prop
  | .allocFdObject a _ => s.fds a = none
  | .allocPseudoFd a => s.fds a = none
  | .setUnixFd a _ => s.fds a ≠ none
  | .fdDestroy a => s.fds a ≠ none
  | .setFdEvents a _ => ∃ f ∈ s.fds a, f.pollIndex ≠ none

/-- What can happen: operations before the loop starts and in callbacks and handlers; and `poll`
reports nothing for an entry whose descriptor is negative. -/
def Possible (s : State) : Action → Prop
  | .op o => (s.phase = .idle ∨ s.phase = .timeouts ∨ ∃ i ret, s.phase = .handling i ret) ∧
      o.Proper s
  | .enter => s.phase = .idle
  | .poll ret revents => s.phase = .timeouts ∧
      (0 < ret → ∀ i < s.nbUsers, (s.pollfd i).fd = -1 → revents i = 0)
  | .examine => ∃ i ret, s.phase = .scan i ret
  | .handlerReturns => ∃ i ret, s.phase = .handling i ret

def init : State where
  pollUsers _ := .free none
  pollfd _ := ⟨-1, 0, 0⟩
  nbUsers := 0
  activeUsers := 0
  allocatedUsers := 0
  freelist := none
  fds _ := none
  phase := .idle
  nextSerial := 0
  removed := []
  reported _ := (.free none, 0)
  calls := []

end Wine.Poll
