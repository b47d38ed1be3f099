import ForkPlugin.Machine.Setup
import Mathlib.Logic.Function.Basic

/-!
# The decision about a whole list of events

The purpose of the machine, stated without queues, states or replays: a resolver that has all the
events before it and reads them once, from left to right.

* `Keys`          what it remembers: `forkActive`, and the last release;
* `Look`, `see`   what it remembers while it looks ahead for one suspect: the deadline and the
                  verificator, if there is one;
* `lookAhead`     how the suspect ends, when the last thing known is the time `T`;
* `choose`        what becomes of the next event, or `none` while it is not decided;
* `resolve`       the events it sends, and those that stay undecided.
-/

namespace ForkNS

variable {E Time : Type} [LinearOrder Time] [Add Time] [Zero Time] [NatCast Time]
  (S : Setup E Time)

/-! ## one suspect -/

inductive Outcome where
  | forked
  | unforked
  | undecided
deriving DecidableEq, Repr

structure Look (Time : Type) where
  deadline : Time
  verificator : Option Keycode

/-- when a press becomes suspect -/
def Look.start (h : E) : Look Time where
  deadline := S.env.timeOf h + S.config.verificationIntervalOf (S.env.detailOf h) noKey
  verificator := none

/-- one more event, for the suspect `h` -/
def Look.see (h : E) (l : Look Time) (e : E) : Look Time :=
  let key := S.env.detailOf e
  if S.env.pressP e ∧ l.verificator = none then
    { deadline := min l.deadline (S.config.verifierDecisionTime (S.env.detailOf h) (S.env.timeOf h)
        key (S.env.timeOf e)),
      verificator := some key }
  else if S.env.releaseP e ∧ l.verificator = some key then { l with verificator := none }
  else l

def lookAhead (T : Time) (h : E) : Look Time → List E → Outcome
  | l, [] => if l.deadline ≤ T then .forked else .undecided
  | l, e :: es =>
    if l.deadline ≤ S.env.timeOf e then .forked
    else if S.env.releaseP e ∧ S.env.detailOf e = S.env.detailOf h then .unforked
    else lookAhead T h (l.see S h e) es

/-! ## all events -/

structure Keys (Time : Type) where
  forkActive : Keycode → Keycode
  lastReleased : Keycode
  lastReleasedTime : Time

namespace Keys

omit [LinearOrder Time] [Add Time] [NatCast Time] in
def start : Keys Time := ⟨fun _ => noKey, noKey, 0⟩

omit [LinearOrder Time] [Add Time] [Zero Time] [NatCast Time] in
def setFork (ks : Keys Time) (key code : Keycode) : Keys Time :=
  { ks with forkActive := Function.update ks.forkActive key code }

/-- the release of a key that is down as another code, or as itself -/
def release (ks : Keys Time) (e : E) : E × Keys Time :=
  let key := S.env.detailOf e
  if ks.forkActive key ≠ noKey then
    (S.env.rewriteEvent e (ks.forkActive key),
      { forkActive := Function.update ks.forkActive key noKey
        lastReleased := if S.config.considerForksForRepeat then key else noKey
        lastReleasedTime := if S.config.considerForksForRepeat then S.env.timeOf e else 0 })
  else (e, { ks with lastReleased := key, lastReleasedTime := S.env.timeOf e })

/-- a press that may fork -/
def mayFork (e : E) : Prop :=
  S.env.pressP e ∧ S.config.forkKeycode (S.env.detailOf e) ≠ noKey ∧ S.env.ignoreEvent e = false

/-- it was released just before -/
def quick (ks : Keys Time) (e : E) : Prop :=
  ks.lastReleased = S.env.detailOf e ∧ S.env.timeOf e ≤ ks.lastReleasedTime + S.config.repeatMax

instance (e : E) : Decidable (mayFork S e) := inferInstanceAs (Decidable (_ ∧ _))

instance (ks : Keys Time) (e : E) : Decidable (ks.quick S e) := inferInstanceAs (Decidable (_ ∧ _))

end Keys

/-- the suspect as it leaves, and the keys after it -/
def Outcome.decide (ks : Keys Time) (e : E) : Outcome → Option (E × Keys Time)
  | .forked =>
    let code := S.config.forkKeycode (S.env.detailOf e)
    some (S.env.rewriteEvent e code, ks.setFork (S.env.detailOf e) code)
  | .unforked => some (e, ks)
  | .undecided => none

/-- the event sent for `e`, before the events `es`, and the keys after it -/
def choose (T : Time) (ks : Keys Time) (e : E) (es : List E) : Option (E × Keys Time) :=
  let key := S.env.detailOf e
  if S.env.releaseP e then some (ks.release S e)
  else if Keys.mayFork S e then
    if ks.quick S e then some (e, ks.setFork key key)
    else (lookAhead S T e (Look.start S e) es).decide S ks e
  else some (e, ks)

def resolve (T : Time) : Keys Time → List E → List E × List E
  | _, [] => ([], [])
  | ks, e :: es =>
    match choose S T ks e es with
    | some (r, ks') => (r :: (resolve T ks' es).1, (resolve T ks' es).2)
    | none => ([], e :: es)

/-! ## where the machine decides the same -/

/-- In the look-ahead for `h`, a press of a key that is forked comes only where `h` will be forked
anyway. -/
def CalmAhead (T : Time) (fa : Keycode → Keycode) (h : E) : Look Time → List E → Prop
  | _, [] => True
  | l, e :: es =>
    (S.env.pressP e ∧ fa (S.env.detailOf e) ≠ S.env.detailOf e ∧ fa (S.env.detailOf e) ≠ noKey →
      lookAhead S T h l (e :: es) = .forked) ∧
    (S.env.timeOf e < l.deadline → ¬(S.env.releaseP e ∧ S.env.detailOf e = S.env.detailOf h) →
      CalmAhead T fa h (l.see S h e) es)

instance CalmAhead.decidable (T : Time) (fa : Keycode → Keycode) (h : E) :
    (l : Look Time) → (es : List E) → Decidable (CalmAhead S T fa h l es)
  | _, [] => isTrue trivial
  | l, e :: es =>
    have := CalmAhead.decidable T fa h (l.see S h e) es
    inferInstanceAs (Decidable ((_ → _) ∧ (_ → _ → _)))

variable {S} in
theorem calmAhead_of_forked {T : Time} (fa : Keycode → Keycode) {h : E} {l : Look Time}
    {es : List E} (hf : lookAhead S T h l es = .forked) : CalmAhead S T fa h l es := by
  induction es generalizing l with
  | nil => trivial
  | cons e es ih =>
    refine ⟨fun _ => hf, ?_⟩
    intro ht hr
    apply ih
    rwa [lookAhead, if_neg (not_le.mpr ht), if_neg hr] at hf

/-- and so in every look-ahead of the resolver -/
def Calm (T : Time) : Keys Time → List E → Prop
  | _, [] => True
  | ks, e :: es =>
    (S.env.releaseP e = false → Keys.mayFork S e → ¬ks.quick S e →
      CalmAhead S T ks.forkActive e (Look.start S e) es) ∧
    match choose S T ks e es with
    | some (_, ks') => Calm T ks' es
    | none => True

instance Calm.decidable (T : Time) :
    (ks : Keys Time) → (es : List E) → Decidable (Calm S T ks es)
  | _, [] => isTrue trivial
  | ks, e :: es =>
    have : Decidable (match choose S T ks e es with
        | some (_, ks') => Calm S T ks' es
        | none => True) :=
      match choose S T ks e es with
      | some (_, ks') => Calm.decidable T ks' es
      | none => isTrue trivial
    inferInstanceAs (Decidable ((_ → _ → _ → _) ∧ _))

end ForkNS
