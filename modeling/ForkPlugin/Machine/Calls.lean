import ForkPlugin.Lib.Runs
import ForkPlugin.Machine.Model

/-!
# Calls of the machine as steps

A call of the public interface runs through control points; between two of them the machine does
one thing: a locked block, one iteration of a loop, or one call of the environment.  Every test of
`output_frozen` is a step of its own, so it may be answered differently each time.

* `Call`      `accept_event`, `accept_time`, `accept_confirmation`;
* `Control`   where a running call is: the loop heads of `run_automaton` and `flush_to_next`, the
              calls of `relay_event` and `push_time`, the return;
* `Obs`       what the environment sees, in order;
* `enter`     the first locked block of a call;
* `tick`      one further step; `frozen` is the answer of `output_frozen`, where the step asks;
* `Sys`       the machine with its one caller, and what was pushed and seen so far.

`accept_time` with a time before `mCurrent_time` calls `next_decision_time` while its lock is still
in scope (`Control.relock`): with a `std::mutex` that call cannot go on.
-/

namespace ForkNS

inductive Call (E Time : Type) where
  | acceptEvent (pevent : E)
  | acceptTime (now : Time)
  | acceptConfirmation
deriving DecidableEq, Repr

/-- `forceAlso` is the argument of `run_automaton`: it is set by `accept_confirmation` only, the
call that returns nothing -/
inductive Control (E Time : Type) where
  | idle
  | runAutomaton (forceAlso : Bool)              -- about to lock and enter the loop
  | automatonLoop (forceAlso : Bool)             -- the head of the while loop, locked
  | flushLoop (forceAlso : Bool)                 -- the head of the while loop of flush_to_next
  | relayEvent (forceAlso : Bool) (pevent : E)   -- popped and unlocked, to be relayed
  | flushEnd (forceAlso : Bool)                  -- the test before push_time_to_next
  | pushTime (forceAlso : Bool) (now : Time)     -- unlocked, the time to be pushed
  | nextDecisionTime                             -- the return of accept_event, accept_time
  | relock                                       -- the same, but locked
deriving DecidableEq, Repr

inductive Obs (E Time : Type) where
  | outputFrozen (answer : Bool)
  | relayEvent (pevent : E)
  | pushTime (now : Time)
  | returned (next : Time)
deriving DecidableEq, Repr

/-- what one step does: the machine and the control after it, the events it pushed, and what the
environment saw -/
structure Effect (Q E Time : Type) where
  machine : Machine Q Time
  control : Control E Time
  pushed : List E := []
  seen : List (Obs E Time) := []

section
open TriqueueOps Machine

variable {Q E Time : Type} [TriqueueOps Q E] [LinearOrder Time] [Add Time] [Zero Time]
  [NatCast Time] (S : Setup E Time)

/-- the first block of `accept_event` -/
def acceptEvent (m : Machine Q Time) (pevent : E) : Effect Q E Time :=
  let key := S.env.detailOf pevent
  let m := { m with mCurrentTime := 0 }
  if key > S.maxKeycode then { machine := m, control := .idle, seen := [.returned 0] }
  else if S.env.pressP pevent && m.keyForked key then
    { machine := m, control := .runAutomaton false }
  else
    { machine := { m with tq := push m.tq pevent }, control := .runAutomaton false,
      pushed := [pevent] }

/-- the first block of `accept_time` -/
def acceptTime (m : Machine Q Time) (now : Time) : Effect Q E Time :=
  if m.mCurrentTime > now then { machine := m, control := .relock }
  else { machine := { m with mCurrentTime := now }, control := .runAutomaton false }

def enter (m : Machine Q Time) : Call E Time → Effect Q E Time
  | .acceptEvent pevent => acceptEvent S m pevent
  | .acceptTime now => acceptTime m now
  | .acceptConfirmation => { machine := m, control := .runAutomaton true }

/-- where a call goes on after `run_automaton` -/
def afterAutomaton (forceAlso : Bool) : Control E Time :=
  if forceAlso then .idle else .nextDecisionTime

/-- one step of a running call -/
def tick (m : Machine Q Time) (frozen : Bool) : Control E Time → Option (Effect Q E Time)
  | .idle => none
  | .runAutomaton forceAlso => some { machine := m, control := .automatonLoop forceAlso }
  | .automatonLoop forceAlso =>
    if frozen then
      some { machine := m, control := .flushLoop forceAlso, seen := [.outputFrozen true] }
    else
      let (m, again) := m.automatonBody S forceAlso
      some { machine := m, seen := [.outputFrozen false],
             control := if again then .automatonLoop forceAlso else .flushLoop forceAlso }
  | .flushLoop forceAlso =>
    if frozen then
      some { machine := m, control := .flushEnd forceAlso, seen := [.outputFrozen true] }
    else
      match m.popEventIfPresent with
      | (some pevent, m) =>
        some { machine := m, control := .relayEvent forceAlso pevent,
               seen := [.outputFrozen false] }
      | (none, m) =>
        some { machine := m, control := .flushEnd forceAlso, seen := [.outputFrozen false] }
  | .relayEvent forceAlso pevent =>
    some { machine := m, control := .flushLoop forceAlso, seen := [.relayEvent pevent] }
  | .flushEnd forceAlso =>
    if frozen then
      some { machine := m, control := afterAutomaton forceAlso, seen := [.outputFrozen true] }
    else
      let (now, m) := m.pushTimeToNext S
      some { machine := m, seen := [.outputFrozen false],
             control := if now ≠ 0 then .pushTime forceAlso now else afterAutomaton forceAlso }
  | .pushTime forceAlso now =>
    some { machine := m, control := afterAutomaton forceAlso, seen := [.pushTime now] }
  | .nextDecisionTime =>
    some { machine := m, control := .idle, seen := [.returned m.nextDecisionTime] }
  | .relock =>
    if S.stdLibrary then none
    else some { machine := m, control := .idle, seen := [.returned m.nextDecisionTime] }

end

/-! ## one caller -/

/-- `pushed`: the events that `accept_event` put into the queue, in that order -/
structure Sys (Q E Time : Type) where
  machine : Machine Q Time
  control : Control E Time
  pushed : List E
  trace : List (Obs E Time)

inductive Act (E Time : Type) where
  | call (c : Call E Time)
  | tick (frozen : Bool)
deriving DecidableEq, Repr

namespace Sys

variable {Q E Time : Type}

def apply (s : Sys Q E Time) (x : Effect Q E Time) : Sys Q E Time :=
  ⟨x.machine, x.control, s.pushed ++ x.pushed, s.trace ++ x.seen⟩

variable [TriqueueOps Q E] [LinearOrder Time] [Add Time] [Zero Time] [NatCast Time]

omit [LinearOrder Time] [Add Time] [NatCast Time] [TriqueueOps Q E] in
/-- a constructed machine, no call running -/
def create (tq : Q) : Sys Q E Time := ⟨Machine.create tq, .idle, [], []⟩

variable (S : Setup E Time)

/-- a call begins only when none is running -/
def step (s : Sys Q E Time) : Act E Time → Option (Sys Q E Time)
  | .call c =>
    match s.control with
    | .idle => some (s.apply (enter S s.machine c))
    | _ => none
  | .tick frozen => (ForkNS.tick S s.machine frozen s.control).map s.apply

variable {S} in
theorem step_call {s s' : Sys Q E Time} {c : Call E Time} (h : s.step S (.call c) = some s') :
    s.control = .idle ∧ s' = s.apply (enter S s.machine c) := by
  cases hc : s.control with
  | idle =>
    simp only [step, hc] at h
    exact ⟨rfl, (Option.some.inj h).symm⟩
  | _ => simp [step, hc] at h

variable {S} in
theorem step_tick {s s' : Sys Q E Time} {frozen : Bool} (h : s.step S (.tick frozen) = some s') :
    ∃ x, tick S s.machine frozen s.control = some x ∧ s' = s.apply x := by
  obtain ⟨x, hx, rfl⟩ := Option.map_eq_some_iff.mp h
  exact ⟨x, hx, rfl⟩

/-- the running call goes on, and the output is not frozen -/
def unfrozen (s : Sys Q E Time) : Option (Sys Q E Time) := step S s (.tick false)

end Sys

/-- the events relayed so far, in order -/
def relayed {E Time : Type} (trace : List (Obs E Time)) : List E :=
  trace.filterMap fun
    | .relayEvent pevent => some pevent
    | _ => none

/-- the events that a list of actions offers to `accept_event` -/
def offered {E Time : Type} (acts : List (Act E Time)) : List E :=
  acts.filterMap fun
    | .call (.acceptEvent pevent) => some pevent
    | _ => none

theorem offered_append {E Time : Type} (acts acts' : List (Act E Time)) :
    offered (acts ++ acts') = offered acts ++ offered acts' := List.filterMap_append

end ForkNS
