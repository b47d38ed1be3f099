import ForkPlugin.Machine.Setup
import ForkPlugin.Queue.Triqueue
import Mathlib.Logic.Function.Basic

/-!
# The machine: its state and the transitions

`Machine Q Time` is the dynamic state of `forkingMachine` over a queue type `Q`.  The functions
below are those of `machine.h`, under its words:

* `rewindMachine`, `doConfirmNonForkBy`, `activateForkRewind`   how a decision ends;
* `applyEventToNormal`, `applyEventToSuspect`, `applyEventToVerifyState`   one event in each state;
* `transitionByKey`, `transitionByTime`, `transitionByForce`   the three ways to advance;
* `automatonBody`   one iteration of the loop of `run_automaton`, when the output is not frozen;
* `popEventIfPresent`, `pushTimeToNext`, `nextDecisionTime`   the locked parts of the rest.

`bugs` collects every assertion that fails and every branch that the code marks as a bug, in the
order in which they are met; the transition then goes on as the code without assertions does.
Debug output is left out.
-/

namespace ForkNS

/-- `fork_state_t` -/
inductive ForkState where
  | normal
  | suspect
  | verify
deriving DecidableEq, Repr

/-- failed assertions, the branches logged as bugs, and a `pop` of an empty output part -/
inductive Bug where
  | assertConfirmState      -- do_confirm_non_fork_by: state == st_suspect || state == st_verify
  | assertNormalState       -- apply_event_to_normal: state == st_normal
  | assertMiddleEmpty       -- apply_event_to_normal: tq.middle_empty()
  | assertSuspectState      -- apply_event_to_suspect: state == st_suspect
  | emptyQueue              -- activate_fork_rewind: "Bug -- empty queue"
  | timeStateNormal         -- transition_by_time: "Bug -- but state NORMAL"
  | forceEmpty              -- transition_by_force: "BUG -- state but empty"
  | moveToFirst             -- move_to_first: "BUG"
  | moveToSecond            -- move_to_second: "BUG"
  | popEmpty
deriving DecidableEq, Repr

structure Machine (Q Time : Type) where
  state : ForkState
  suspect : Keycode
  suspectTime : Time
  verificatorKeycode : Keycode
  verificatorTime : Time
  lastReleased : Keycode
  lastReleasedTime : Time
  mDecisionTime : Time
  mCurrentTime : Time
  forkActive : Keycode → Keycode
  tq : Q
  bugs : List Bug

namespace Machine
open TriqueueOps

variable {Q E Time : Type}

/-- the constructor of `forkingMachine`, with an empty queue -/
def create [Zero Time] (tq : Q) : Machine Q Time where
  state := .normal
  suspect := 0
  suspectTime := 0
  verificatorKeycode := 0
  verificatorTime := 0
  lastReleased := noKey
  lastReleasedTime := 0
  mDecisionTime := 0
  mCurrentTime := 0
  forkActive := fun _ => noKey
  tq := tq
  bugs := []

def check (m : Machine Q Time) (c : Bool) (b : Bug) : Machine Q Time :=
  if c then m else { m with bugs := m.bugs ++ [b] }

theorem check_eq (m : Machine Q Time) (c : Bool) (b : Bug) :
    ∃ l, m.check c b = { m with bugs := l } := by
  unfold check
  split_ifs
  · exact ⟨m.bugs, rfl⟩
  · exact ⟨_, rfl⟩

theorem check_tq (m : Machine Q Time) (c : Bool) (b : Bug) : (m.check c b).tq = m.tq := by
  unfold check
  split_ifs <;> rfl

/-! ### the queue, with the branches it logs as bugs -/

section
variable [TriqueueOps Q E]

def moveToFirst (m : Machine Q Time) : Machine Q Time :=
  let m := m.check (!middleEmpty m.tq) .moveToFirst
  { m with tq := TriqueueOps.moveToFirst m.tq }

def moveToSecond (m : Machine Q Time) : Machine Q Time :=
  let m := m.check (!thirdEmpty m.tq) .moveToSecond
  { m with tq := TriqueueOps.moveToSecond m.tq }

theorem moveToSecond_tq (m : Machine Q Time) :
    m.moveToSecond.tq = TriqueueOps.moveToSecond m.tq := by
  rw [moveToSecond, check_tq]

def pop (m : Machine Q Time) : Machine Q Time :=
  let m := m.check (canPop m.tq) .popEmpty
  { m with tq := (TriqueueOps.pop m.tq).2 }

end

/-! ### a decision -/

def keyForked (m : Machine Q Time) (code : Keycode) : Bool :=
  m.forkActive code != code && m.forkActive code != noKey

def setForkActive (m : Machine Q Time) (key code : Keycode) : Machine Q Time :=
  { m with forkActive := Function.update m.forkActive key code }

def changeState (m : Machine Q Time) (newState : ForkState) : Machine Q Time :=
  { m with state := newState }

section
variable [TriqueueOps Q E] [Zero Time]

def rewindMachine (m : Machine Q Time) : Machine Q Time :=
  { m.changeState .normal with
    suspect := noKey
    mDecisionTime := 0
    verificatorKeycode := noKey
    tq := rewindMiddle m.tq }

def doConfirmNonForkBy (m : Machine Q Time) : Machine Q Time :=
  let m := m.check (m.state == .suspect || m.state == .verify) .assertConfirmState
  m.moveToFirst.rewindMachine

variable (S : Setup E Time)

def activateForkRewind (m : Machine Q Time) : Machine Q Time :=
  if middleEmpty m.tq then m.check false .emptyQueue
  else
    match peekMiddle m.tq with
    | none => m
    | some pevent =>
      let originalKey := S.env.detailOf pevent
      let m := m.setForkActive originalKey (S.config.forkKeycode originalKey)
      let m := { m with
        tq := writeMiddle m.tq (S.env.rewriteEvent pevent (m.forkActive originalKey)) }
      m.moveToFirst.rewindMachine

end

section
variable (S : Setup E Time)

def recordLastReleaseEvent (m : Machine Q Time) (pevent : E) : Machine Q Time :=
  { m with lastReleased := S.env.detailOf pevent, lastReleasedTime := S.env.timeOf pevent }

def forkableP (code : Keycode) : Bool := S.config.forkKeycode code != noKey

end

def timeDifferenceMore [LT Time] [DecidableLT Time] [Add Time]
    (now past limitDifference : Time) : Bool :=
  decide (now > past + limitDifference)

section
variable [TriqueueOps Q E] [LinearOrder Time] [Add Time] [Zero Time] [NatCast Time]
  (S : Setup E Time)

/-! ### one event in each state; `pevent` is the head of the input part -/

def applyEventToNormal (m : Machine Q Time) (pevent : E) : Machine Q Time :=
  let key := S.env.detailOf pevent
  let simulatedTime := S.env.timeOf pevent
  let m := m.check (m.state == .normal) .assertNormalState
  if forkableP S key && S.env.pressP pevent && !S.env.ignoreEvent pevent then
    if !m.keyForked key && (m.lastReleased != key
        || timeDifferenceMore simulatedTime m.lastReleasedTime S.config.repeatMax) then
      if m.forkActive key = key then
        -- it's AR .- now
        m.moveToSecond.moveToFirst
      else
        let m := m.changeState .suspect
        let m := { m with suspect := key, suspectTime := S.env.timeOf pevent }
        let m := { m with
          mDecisionTime := m.suspectTime + S.config.verificationIntervalOf key noKey }
        m.moveToSecond
    else
      -- .- trick
      let m := m.setForkActive key key
      let m := m.check (middleEmpty m.tq) .assertMiddleEmpty
      m.moveToSecond.moveToFirst
  else if S.env.releaseP pevent && m.forkActive key != noKey then
    let m :=
      if S.config.considerForksForRepeat then m.recordLastReleaseEvent S pevent
      else { m with lastReleased := noKey, lastReleasedTime := 0 }
    let m := { m with tq := writeThird m.tq (S.env.rewriteEvent pevent (m.forkActive key)) }
    let m := m.setForkActive key noKey
    m.moveToSecond.moveToFirst
  else
    let m := if S.env.releaseP pevent then m.recordLastReleaseEvent S pevent else m
    m.moveToSecond.moveToFirst

def applyEventToSuspect (m : Machine Q Time) (pevent : E) : Machine Q Time :=
  let m := m.check (m.state == .suspect) .assertSuspectState
  let simulatedTime := S.env.timeOf pevent
  let key := S.env.detailOf pevent
  if S.env.releaseP pevent then
    if key = m.suspect then m.doConfirmNonForkBy
    else m.moveToSecond
  else if key = m.suspect then
    if S.config.forkRepeatable key then (m.setForkActive m.suspect m.suspect).doConfirmNonForkBy
    -- `return` without a move: the event stays at the head of the input part
    else m
  else
    let m := m.changeState .verify
    let m := { m with verificatorTime := simulatedTime, verificatorKeycode := key }
    let decisionTime := S.config.verifierDecisionTime m.suspect m.suspectTime
      m.verificatorKeycode m.verificatorTime
    let m := if decisionTime < m.mDecisionTime then { m with mDecisionTime := decisionTime } else m
    m.moveToSecond

def applyEventToVerifyState (m : Machine Q Time) (pevent : E) : Machine Q Time :=
  let key := S.env.detailOf pevent
  if key = m.suspect ∧ S.env.releaseP pevent then m.doConfirmNonForkBy
  else if m.verificatorKeycode = key ∧ S.env.releaseP pevent then
    { m.changeState .suspect with verificatorKeycode := 0 }.moveToSecond
  else m.moveToSecond

/-! ### the three transitions -/

def transitionByKey (m : Machine Q Time) (pevent : E) : Machine Q Time :=
  let key := S.env.detailOf pevent
  if m.keyForked key && S.env.pressP pevent && key != m.forkActive key then
    m.moveToSecond.activateForkRewind S
  else if m.state = .normal then m.applyEventToNormal S pevent
  else
    let simulatedTime := S.env.timeOf pevent
    if simulatedTime ≥ m.mDecisionTime then m.activateForkRewind S
    else if !S.env.pressP pevent && !S.env.releaseP pevent then m.moveToSecond
    else if m.state = .suspect then m.applyEventToSuspect S pevent
    else m.applyEventToVerifyState S pevent

/-- the second component is the returned value: the key is decided -/
def transitionByTime (m : Machine Q Time) (currentTime : Time) : Machine Q Time × Bool :=
  if m.state = .normal then (m.check false .timeStateNormal, false)
  else if currentTime ≥ m.mDecisionTime then (m.activateForkRewind S, true)
  else (m, false)

def transitionByForce (m : Machine Q Time) : Machine Q Time :=
  if m.state = .normal then m
  else if !middleEmpty m.tq then m.activateForkRewind S
  else m.check false .forceEmpty

/-- the end of an iteration: force, or `break` -/
def forceOrBreak (forceAlso : Bool) (m : Machine Q Time) : Machine Q Time × Bool :=
  if forceAlso ∧ m.state ≠ .normal then (m.transitionByForce S, true) else (m, false)

/-- one iteration of the loop; the second component is `false` after `break` -/
def automatonBody (forceAlso : Bool) (m : Machine Q Time) : Machine Q Time × Bool :=
  if !thirdEmpty m.tq then
    match peekThird m.tq with
    | none => (m, true)
    | some event => (m.transitionByKey S event, true)
  else if m.state ≠ .normal ∧ m.mCurrentTime ≠ 0 then
    let (m, decided) := m.transitionByTime S m.mCurrentTime
    if decided then (m, true) else forceOrBreak S forceAlso m
  else forceOrBreak S forceAlso m

end

/-! ### the other locked parts -/

def popEventIfPresent [TriqueueOps Q E] (m : Machine Q Time) : Option E × Machine Q Time :=
  if canPop m.tq then
    (head m.tq, m.pop)
  else (none, m)

/-- the time to hand over, and the machine left -/
def pushTimeToNext [TriqueueOps Q E] [Zero Time] (S : Setup E Time) (m : Machine Q Time) :
    Time × Machine Q Time :=
  match first m.tq with
  | none => (m.mCurrentTime, m)
  | some item => (S.env.timeOf item, { m with mCurrentTime := 0 })

def nextDecisionTime [Zero Time] (m : Machine Q Time) : Time :=
  if m.state = .verify ∨ m.state = .suspect then m.mDecisionTime else 0

end Machine

end ForkNS
