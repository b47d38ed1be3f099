import ForkPlugin.Ports.WinEvent
import ForkPlugin.Runs.Wakeup

/-!
# The timer of the Windows driver

The driver calls the machine with a packet or with the time, and arms its timer with what the call
returns: a relative due time, in units of 100 nanoseconds.

* `startTimer`          the due time of so many milliseconds, computed in a `long` of 32 bits;
* `DriverCall`          `accept_event` and `accept_time` of the driver, with the time they read;
* `TimerCall`, `DriverCall.arm`   what is done with the timer when the machine has returned;
* `Driver`, `Driver.step`   the machine under the driver, and what was returned and armed so far;
* `timer_armed`         which timers are armed for the remaining time;
* `timer_rearmed`       a timer that fires too early, and is armed anew.
-/

namespace ForkNS

open Runs Machine

/-- a `long` has 32 bits; `none` is an overflow -/
def long (x : ℤ) : Option ℤ := if -2147483648 ≤ x ∧ x ≤ 2147483647 then some x else none

/-- `- miliseconds * 1000 * 10` -/
def startTimer (miliseconds : ℤ) : Option ℤ :=
  (long (-miliseconds)).bind fun x => (long (x * 1000)).bind fun y => long (y * 10)

inductive TimerCall where
  | start (dueTime : Option ℤ)
  | stop
deriving DecidableEq, Repr

/-- `now` is the reading of the clock -/
inductive DriverCall where
  | acceptEvent (event : KeyboardInputData) (now : ℤ)
  | acceptTime (time : ℤ)
deriving DecidableEq, Repr

namespace DriverCall

def now : DriverCall → ℤ
  | .acceptEvent _ now => now
  | .acceptTime time => time

/-- what it calls the machine with -/
def call : DriverCall → Call ExtendedEvent ℤ
  | .acceptEvent event now => .acceptEvent (winEventToExtended event now)
  | .acceptTime time => .acceptTime time

/-- when the machine returns `timeout` -/
def arm (timeout : ℤ) : DriverCall → TimerCall
  | .acceptEvent _ now =>
    if timeout ≠ 0 then .start ((long (timeout - now)).bind startTimer) else .stop
  | .acceptTime _ => if timeout ≠ 0 then .start (startTimer timeout) else .stop

def isEvent : DriverCall → Bool
  | .acceptEvent _ _ => true
  | .acceptTime _ => false

end DriverCall

/-- a call that returned, and what was done -/
structure Armed where
  call : DriverCall
  timeout : ℤ
  timer : TimerCall
deriving DecidableEq, Repr

structure Driver (Q : Type) where
  sys : Sys Q ExtendedEvent ℤ
  calling : Option DriverCall
  armed : List Armed

inductive DriverAct where
  | call (c : DriverCall)
  | tick
deriving DecidableEq, Repr

namespace Driver
variable {Q : Type}

def create (q : Q) : Driver Q := ⟨Sys.create q, none, []⟩

def apply (s : Driver Q) (c : DriverCall) (x : Effect Q ExtendedEvent ℤ) : Driver Q where
  sys := s.sys.apply x
  calling := some c
  armed := s.armed ++ (returnedTimes x.seen).map fun timeout => ⟨c, timeout, c.arm timeout⟩

/-- the output of the driver is never frozen -/
def step [TriqueueOps Q ExtendedEvent] (config : ForkConfiguration ℤ) (s : Driver Q) :
    DriverAct → Option (Driver Q)
  | .call c =>
    match s.sys.control with
    | .idle => some (s.apply c (enter (winSetup config) s.sys.machine c.call))
    | _ => none
  | .tick =>
    s.calling.bind fun c =>
      (tick (winSetup config) s.sys.machine false s.sys.control).map (s.apply c)

end Driver

/-! ## the due time -/

theorem long_eq {x : ℤ} (h : -2147483648 ≤ x ∧ x ≤ 2147483647) : long x = some x := if_pos h

theorem long_some {x y : ℤ} (h : long x = some y) : y = x := by
  unfold long at h
  split_ifs at h
  exact (Option.some.inj h).symm

/-- up to 214748 ms there is no overflow -/
theorem startTimer_eq {ms : ℤ} (h0 : 0 ≤ ms) (h1 : ms ≤ 214748) :
    startTimer ms = some (-ms * 10000) := by
  rw [startTimer, long_eq (by omega), Option.bind_some, long_eq (by omega), Option.bind_some,
    long_eq (by omega)]
  congr 1
  ring

theorem startTimer_some {ms due : ℤ} (h : startTimer ms = some due) : due = -ms * 10000 := by
  obtain ⟨x, hx, h⟩ := Option.bind_eq_some_iff.mp h
  obtain ⟨y, hy, h⟩ := Option.bind_eq_some_iff.mp h
  rw [long_some h, long_some hy, long_some hx]
  ring

namespace Armed

/-- the timer is to run for at most 10 seconds -/
def Soon (a : Armed) : Prop :=
  a.timeout ≠ 0 ∧ 0 ≤ a.timeout - a.call.now ∧ a.timeout - a.call.now ≤ 10000

/-- it was started for the time that remains -/
def Remaining (a : Armed) : Prop := a.timer = .start (some (-(a.timeout - a.call.now) * 10000))

theorem remaining_iff {a : Armed} (ha : a.timer = a.call.arm a.timeout) (hs : a.Soon) :
    a.Remaining ↔ a.call.isEvent ∨ a.call.now = 0 := by
  obtain ⟨hne, h0, h1⟩ := hs
  rw [Remaining, ha]
  cases hc : a.call with
  | acceptEvent event now =>
    simp only [hc, DriverCall.now] at h0 h1 ⊢
    have hlong : long (a.timeout - now) = some (a.timeout - now) := long_eq (by omega)
    refine iff_of_true ?_ (.inl rfl)
    rw [DriverCall.arm, if_pos hne, hlong, Option.bind_some, startTimer_eq h0 (by omega)]
  | acceptTime time =>
    simp only [hc, DriverCall.arm, if_pos hne, DriverCall.now, DriverCall.isEvent,
      TimerCall.start.injEq, Bool.false_eq_true, false_or] at h0 h1 ⊢
    constructor
    · intro h
      have hdue := startTimer_some h
      omega
    · rintro rfl
      rw [startTimer_eq (by omega) (by omega), sub_zero]

end Armed

/-! ## runs of the driver -/

namespace Driver
variable {Q : Type} [TriqueueOps Q ExtendedEvent] {config : ForkConfiguration ℤ}
  {s s' : Driver Q}

/-- each step is a step of the machine, for one call of the driver -/
theorem step_apply {a : DriverAct} (h : s.step config a = some s') :
    ∃ c x, s' = s.apply c x := by
  cases a with
  | call c =>
    cases hc : s.sys.control with
    | idle =>
      simp only [step, hc] at h
      exact ⟨c, _, (Option.some.inj h).symm⟩
    | _ => simp [step, hc] at h
  | tick =>
    obtain ⟨c, -, h⟩ := Option.bind_eq_some_iff.mp h
    obtain ⟨x, -, rfl⟩ := Option.map_eq_some_iff.mp h
    exact ⟨c, x, rfl⟩

/-- the timer was called once for each time that the machine returned, with that time -/
structure Follows (s : Driver Q) : Prop where
  returned : s.armed.map Armed.timeout = returnedTimes s.sys.trace
  armed : ∀ a ∈ s.armed, a.timer = a.call.arm a.timeout

omit [TriqueueOps Q ExtendedEvent] in
theorem Follows.apply (h : Follows s) (c : DriverCall) (x : Effect Q ExtendedEvent ℤ) :
    Follows (s.apply c x) := by
  refine ⟨?_, fun a ha => ?_⟩
  · show (s.armed ++ _).map Armed.timeout = returnedTimes (s.sys.trace ++ x.seen)
    rw [List.map_append, h.returned, returnedTimes_append, List.map_map]
    congr 1
    exact List.map_id _
  · rcases List.mem_append.mp ha with ha | ha
    · exact h.armed a ha
    · obtain ⟨timeout, -, rfl⟩ := List.mem_map.mp ha
      rfl

theorem run_follows {q : Q} {acts : List DriverAct}
    (h : runs (Driver.step config) (Driver.create q) acts = some s) : Follows s := by
  refine runs_inv (I := Follows) ⟨rfl, fun a ha => ?_⟩ (fun u a v hu hv => ?_) h
  · cases ha
  · obtain ⟨c, x, rfl⟩ := step_apply hv
    exact hu.apply c x

end Driver

/-- **The timers that are armed for the remaining time**: those of `accept_event`.  A call of
`accept_time` takes the deadline for the remaining time, which it is at time 0 only. -/
theorem timer_armed {Q : Type} [TriqueueOps Q ExtendedEvent] {config : ForkConfiguration ℤ} {q : Q}
    {acts : List DriverAct} {s : Driver Q}
    (h : runs (Driver.step config) (Driver.create q) acts = some s) :
    s.armed.map Armed.timeout = returnedTimes s.sys.trace ∧
      ∀ a ∈ s.armed, a.Soon → (a.Remaining ↔ a.call.isEvent ∨ a.call.now = 0) :=
  ⟨(Driver.run_follows h).returned,
    fun a ha => Armed.remaining_iff ((Driver.run_follows h).armed a ha)⟩

/-- key 30 forks to 29 -/
def forkA : ForkConfiguration ℤ :=
  ⟨fun key => if key = 30 then 29 else 0, fun _ => false, none, 80, true⟩

/-- the key is pressed at 100, and the timer fires at 250 -/
def firesEarly : List DriverAct :=
  .call (.acceptEvent ⟨0, 30, 0, 0, 0⟩ 100) :: List.replicate 7 .tick ++
    .call (.acceptTime 250) :: List.replicate 6 .tick

theorem timer_armed_early : ∃ s,
    runs (Driver.step forkA) (Driver.create (Triqueue.create 2)) firesEarly = some s ∧
    s.armed.map Armed.timeout = [300, 300] ∧
    s.armed.map Armed.timeout = returnedTimes s.sys.trace ∧
      ∀ a ∈ s.armed, a.Soon → (a.Remaining ↔ a.call.isEvent ∨ a.call.now = 0) := by
  have hs := Option.eq_some_of_isSome
    (o := runs (Driver.step forkA) (Driver.create (Triqueue.create 2)) firesEarly) (by decide)
  exact ⟨_, hs, by decide, timer_armed hs⟩

/-- The press arms the timer for 200 ms.  When it fires at 250, it is armed for 300 ms more, and not
for 50. -/
theorem timer_rearmed : ∃ s,
    runs (Driver.step forkA) (Driver.create (Triqueue.create 2)) firesEarly = some s ∧
    s.armed.map Armed.timer = [.start (some (-2000000)), .start (some (-3000000))] ∧
    ∃ a ∈ s.armed, a.Soon ∧ ¬a.Remaining := by
  have hs := Option.eq_some_of_isSome
    (o := runs (Driver.step forkA) (Driver.create (Triqueue.create 2)) firesEarly) (by decide)
  refine ⟨_, hs, by decide, ⟨.acceptTime 250, 300, .start (some (-3000000))⟩, by decide, ?_, ?_⟩
  · exact ⟨by decide, by decide, by decide⟩
  · intro h
    have hstart : TimerCall.start (some (-3000000)) = .start (some (-(300 - 250) * 10000)) := h
    exact absurd hstart (by decide)

end ForkNS
