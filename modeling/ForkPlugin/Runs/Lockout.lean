import ForkPlugin.Machine.Configure
import ForkPlugin.Machine.Flow
import ForkPlugin.Machine.TestEvents
import ForkPlugin.Machine.View

/-!
# The lock of the machine

`mLock` is not recursive.  Here it is a bit of the state, and every step of a public operation says
in which order it locks, unlocks and calls out.

* `LockStep`, `lockStep`   one use of the lock; a lock while held, an unlock while free and a call
                           of the environment while held answer `none`;
* `Operation`              the public operations with their arguments;
* `enterLocks`, `tickLocks`   the uses of the lock at the start of a call and at each further step;
* `Guarded`                a machine, its settings, the operation that runs, and the lock;
* `Disciplined`            the next step uses the lock properly; after a return it is free;
* `Backwards`              `accept_time` with a time before `mCurrent_time`;
* `never_locked_out`       all operations are disciplined all along, but for this one.
-/

namespace ForkNS

open Runs Machine

/-! ## uses of the lock -/

inductive LockStep where
  | lock
  | unlock
  | callOut     -- `relay_event` or `push_time` of the environment
deriving DecidableEq, Repr

def lockStep : Bool → LockStep → Option Bool
  | false, .lock => some true
  | true, .unlock => some false
  | false, .callOut => some false
  | _, _ => none

inductive Operation (E Time : Type) where
  | call (c : Call E Time)
  | nextDecisionTime
  | configureGlobal (type : ForkConfigurationType) (value : Int) (set : Bool)
  | configureKey (type : ForkConfigurationType) (key : Keycode) (value : Int) (set : Bool)
  | configureTwins (type : ForkConfigurationType) (key twin : Keycode) (value : Int) (set : Bool)
  | setDebug (level : Int)
  | stop
  | dumpLastEvents
  | dumpLastEventsToClient (maxRequested : Int)

variable {Q E Time : Type}

/-- the settings after an operation that is one locked block -/
def Operation.settings (port : Port Time) (s : Settings Time) : Operation E Time → Settings Time
  | .configureGlobal type value set => (s.configureGlobal port type value set).settings
  | .configureKey type key value set => (s.configureKey port type key value set).settings
  | .configureTwins type key twin value set =>
    (s.configureTwins port type key twin value set).settings
  | .setDebug level => s.setDebug level
  | .call _ | .nextDecisionTime | .stop | .dumpLastEvents | .dumpLastEventsToClient _ => s

section
variable [TriqueueOps Q E] [LinearOrder Time] [Add Time] [Zero Time] [NatCast Time]

omit [Add Time] [Zero Time] [NatCast Time] [TriqueueOps Q E] in
/-- the scope of `accept_event` ends before `run_automaton`, also by its `return`; that of
`accept_time` is still open where the time moved backwards -/
def enterLocks (m : Machine Q Time) : Call E Time → List LockStep
  | .acceptEvent _ => [.lock, .unlock]
  | .acceptTime now => if m.mCurrentTime > now then [.lock] else [.lock, .unlock]
  | .acceptConfirmation => []

def tickLocks (S : Setup E Time) (m : Machine Q Time) (frozen : Bool) :
    Control E Time → List LockStep
  | .idle => []
  | .runAutomaton _ => [.lock]
  | .automatonLoop f =>
    -- the scope ends with the loop
    if frozen then [.unlock] else if (m.automatonBody S f).2 then [] else [.unlock]
  | .flushLoop _ => if frozen then [] else [.lock, .unlock]
  | .relayEvent _ _ => [.callOut]
  | .flushEnd _ => if frozen then [] else [.lock, .unlock]
  | .pushTime _ _ => [.callOut]
  | .nextDecisionTime => [.lock, .unlock]
  | .relock => [.lock, .unlock, .unlock]

/-! ## operations as steps -/

/-- where an operation is: called, or at a control of a call (`idle` after every return) -/
inductive Point (E Time : Type) where
  | entry (op : Operation E Time)
  | running (control : Control E Time)

structure Guarded (Q E Time : Type) where
  machine : Machine Q Time
  settings : Settings Time
  point : Point E Time
  held : Bool

namespace Guarded

def begin (m : Machine Q Time) (s : Settings Time) (op : Operation E Time) :
    Guarded Q E Time := ⟨m, s, .entry op, false⟩

def setup (S : Setup E Time) (g : Guarded Q E Time) : Setup E Time :=
  { S with config := g.settings.config }

variable (S : Setup E Time) (port : Port Time)

/-- the uses of the lock in the next step -/
def locks (g : Guarded Q E Time) (frozen : Bool) : List LockStep :=
  match g.point with
  | .entry (.call c) => enterLocks g.machine c
  | .entry _ => [.lock, .unlock]
  | .running control => tickLocks (g.setup S) g.machine frozen control

/-- what the next step does otherwise -/
def proceed (g : Guarded Q E Time) (frozen held : Bool) : Option (Guarded Q E Time) :=
  match g.point with
  | .entry (.call c) =>
    let x := enter (g.setup S) g.machine c
    some ⟨x.machine, g.settings, .running x.control, held⟩
  | .entry op => some ⟨g.machine, op.settings port g.settings, .running .idle, held⟩
  | .running control => (tick (g.setup S) g.machine frozen control).map fun x =>
      ⟨x.machine, g.settings, .running x.control, held⟩

/-- an improper use of the lock has no next state -/
def step (g : Guarded Q E Time) (frozen : Bool) : Option (Guarded Q E Time) :=
  (runs lockStep g.held (g.locks S frozen)).bind (g.proceed S port frozen)

/-- the next step never locks what is held, nor calls out while it is; after a return the lock is
free -/
def Disciplined (g : Guarded Q E Time) : Prop :=
  (∀ frozen, ∃ held, runs lockStep g.held (g.locks S frozen) = some held) ∧
    (g.point = .running .idle → g.held = false)

end Guarded

omit [Add Time] [Zero Time] [NatCast Time] [TriqueueOps Q E] in
/-- the time moved backwards -/
def Backwards (m : Machine Q Time) (op : Operation E Time) : Prop :=
  ∃ now, op = .call (.acceptTime now) ∧ now < m.mCurrentTime

/-! ## the lock is held in the loop of `run_automaton`, and nowhere else -/

variable {S : Setup E Time} {port : Port Time}

/-- the controls at which the lock is held -/
def Control.locked : Control E Time → Bool
  | .automatonLoop _ | .relock => true
  | _ => false

omit [TriqueueOps Q E] [LinearOrder Time] [Add Time] [Zero Time] [NatCast Time] in
@[simp] theorem locked_afterAutomaton (f : Bool) :
    (afterAutomaton f : Control E Time).locked = false := by
  unfold afterAutomaton
  split_ifs <;> rfl

omit [Add Time] [NatCast Time] in
theorem enter_locks {m : Machine Q Time} {c : Call E Time}
    (hc : ¬Backwards m (.call c)) :
    runs lockStep false (enterLocks m c) = some (enter S m c).control.locked ∧
      (enter S m c).control ≠ .relock := by
  cases c with
  | acceptEvent e =>
    simp only [enterLocks, enter, acceptEvent]
    split_ifs <;> exact ⟨rfl, by simp⟩
  | acceptTime now =>
    have hnow : ¬m.mCurrentTime > now := fun h => hc ⟨now, rfl, h⟩
    simp only [enterLocks, enter, acceptTime, if_neg hnow]
    exact ⟨rfl, by simp⟩
  | acceptConfirmation => exact ⟨rfl, by simp [enter]⟩

/-- every further step uses the lock properly -/
theorem tickLocks_runs {m : Machine Q Time} {frozen : Bool} {c : Control E Time}
    (hc : c ≠ .relock) : ∃ held, runs lockStep c.locked (tickLocks S m frozen c) = some held := by
  cases c with
  | relock => exact absurd rfl hc
  | automatonLoop f =>
    simp only [tickLocks]
    split_ifs <;> exact ⟨_, rfl⟩
  | flushLoop f => cases frozen <;> exact ⟨_, rfl⟩
  | flushEnd f => cases frozen <;> exact ⟨_, rfl⟩
  | _ => exact ⟨_, rfl⟩

/-- and leaves it held exactly in the loop -/
theorem tick_locks {m : Machine Q Time} {frozen : Bool} {c : Control E Time}
    {x : Effect Q E Time} (hx : Flow S m frozen c x) (hc : c ≠ .relock) :
    runs lockStep c.locked (tickLocks S m frozen c) = some x.control.locked ∧
      x.control ≠ .relock := by
  have hafter : ∀ f, (afterAutomaton f : Control E Time) ≠ .relock := by
    intro f
    unfold afterAutomaton
    split_ifs <;> simp
  cases hx with
  | again f m' h =>
    simp only [tickLocks, h]
    exact ⟨rfl, by simp⟩
  | done f m' h =>
    simp only [tickLocks, h]
    exact ⟨rfl, by simp⟩
  | endNone f m' h => exact ⟨by rw [locked_afterAutomaton]; rfl, hafter f⟩
  | endFrozen f => exact ⟨by rw [locked_afterAutomaton]; rfl, hafter f⟩
  | pushTime _ f now => exact ⟨by rw [locked_afterAutomaton]; rfl, hafter f⟩
  | relock => exact absurd rfl hc
  | _ => exact ⟨rfl, by simp⟩

namespace Guarded

/-- what holds all along an operation that does not go backwards -/
def InScope (g : Guarded Q E Time) : Prop :=
  match g.point with
  | .entry op => g.held = false ∧ ¬Backwards g.machine op
  | .running control => g.held = control.locked ∧ control ≠ .relock

theorem InScope.disciplined {g : Guarded Q E Time} (h : g.InScope) : g.Disciplined S := by
  rcases g with ⟨m, s, ⟨op⟩ | ⟨control⟩, held⟩
  · obtain ⟨rfl, hb⟩ := h
    refine ⟨fun frozen => ?_, fun h => by cases h⟩
    cases op with
    | call c => exact ⟨_, (enter_locks (S := S) hb).1⟩
    | _ => exact ⟨false, rfl⟩
  · obtain ⟨rfl, hc⟩ := h
    refine ⟨fun frozen => tickLocks_runs hc, fun h => ?_⟩
    cases h
    rfl

theorem InScope.step {g g' : Guarded Q E Time} (h : g.InScope) {frozen : Bool}
    (hs : g.step S port frozen = some g') : g'.InScope := by
  obtain ⟨held, hheld, hp⟩ := Option.bind_eq_some_iff.mp hs
  rcases g with ⟨m, s, ⟨op⟩ | ⟨control⟩, held₀⟩
  · obtain ⟨rfl, hb⟩ := h
    cases op with
    | call c =>
      cases hp
      obtain ⟨hrun, hc⟩ := enter_locks (S := { S with config := s.config }) hb
      exact ⟨Option.some.inj (hheld.symm.trans hrun), hc⟩
    | _ =>
      cases hp
      cases hheld
      exact ⟨rfl, by simp⟩
  · obtain ⟨rfl, hc⟩ := h
    obtain ⟨x, hx, rfl⟩ := Option.map_eq_some_iff.mp hp
    obtain ⟨hrun, hc'⟩ := tick_locks (tick_flow hx) hc
    exact ⟨Option.some.inj (hheld.symm.trans hrun), hc'⟩

end Guarded

/-- **The machine locks itself out by a time that moved backwards, and by nothing else.**  From
every state of the machine, with every configuration and all answers of `output_frozen`, an
operation uses its lock properly all along if and only if it is not an `accept_time` with a time
before `mCurrent_time`. -/
theorem never_locked_out (m : Machine Q Time) (s : Settings Time) (op : Operation E Time) :
    (∀ (answers : List Bool) (g : Guarded Q E Time),
      runs (Guarded.step S port) (.begin m s op) answers = some g → g.Disciplined S) ↔
      ¬Backwards m op := by
  constructor
  · rintro hall ⟨now, rfl, hnow⟩
    have henter : enter { S with config := s.config } m (.acceptTime now) =
        { machine := m, control := .relock } := by
      rw [enter, acceptTime]
      exact if_pos hnow
    have hlocks : enterLocks m (.acceptTime now : Call E Time) = [.lock] := if_pos hnow
    have hproceed : (Guarded.begin m s (.call (.acceptTime now)) : Guarded Q E Time).proceed S port
        false true = some ⟨m, s, .running .relock, true⟩ := by
      simp only [Guarded.proceed, Guarded.begin, Guarded.setup, henter]
    have hstep : (Guarded.begin m s (.call (.acceptTime now)) : Guarded Q E Time).step S port false
        = some ⟨m, s, .running .relock, true⟩ := by
      show (runs lockStep false (enterLocks m (.acceptTime now : Call E Time))).bind _ = _
      rw [hlocks]
      exact hproceed
    have hrun : runs (Guarded.step S port) (.begin m s (.call (.acceptTime now))) [false] =
        some ⟨m, s, .running .relock, true⟩ := by
      rw [runs_cons, hstep]
      rfl
    obtain ⟨held, hheld⟩ := (hall [false] _ hrun).1 false
    cases hheld
  · intro hb answers g h
    have hstart : (Guarded.begin m s op).InScope := ⟨rfl, hb⟩
    exact (runs_inv hstart (fun _ _ _ hg hs => hg.step hs) h).disciplined

end

/-- settings with the configuration of the tests -/
def testSettings : Settings Nat := ⟨testConfiguration, 0, 1, 10⟩

def testPort : Port Nat := ⟨Int.toNat, Int.toNat, Int.ofNat⟩

/-- After `accept_time(300)` a call of `accept_time(0)` locks, and is about to lock again. -/
theorem locked_out : ∃ (s : Sys (Triqueue TestEvent) TestEvent Nat)
    (g : Guarded (Triqueue TestEvent) TestEvent Nat),
    runs (Sys.step testSetup) fresh (during (.acceptTime 300) 6) = some s ∧ s.control = .idle ∧
    runs (Guarded.step testSetup testPort)
      (.begin s.machine testSettings (.call (.acceptTime 0))) [false] = some g ∧
    g.held = true ∧ g.locks testSetup false = [.lock, .unlock, .unlock] ∧
    ¬g.Disciplined testSetup := by
  have hs := Option.eq_some_of_isSome
    (o := runs (Sys.step testSetup) fresh (during (.acceptTime 300) 6)) (by decide)
  refine ⟨_, _, hs, by decide, rfl, rfl, rfl, fun h => ?_⟩
  obtain ⟨held, hheld⟩ := h.1 false
  cases hheld

end ForkNS
