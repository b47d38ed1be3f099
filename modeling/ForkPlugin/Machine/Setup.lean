import Mathlib.Order.Lattice
import Mathlib.Data.Nat.Cast.Defs

/-!
# What is fixed in a run: the environment and the configuration

* `Environment`           what `platformEnvironment` tells about an event and how it rewrites one;
                          its other methods are steps of the run (`Control`);
* `ForkConfiguration`     the tables, and the intervals the machine asks of them;
* `Setup`                 environment, configuration and the two choices of the build.

Events and times are type variables, as in the templates: nothing here depends on their size.
A keycode is a `Nat`; the tables are functions on all keycodes.

The answers about an event depend on the event alone.  (In the X server `ignore_event` reads the
MouseKeys control: it is taken as part of what is fixed.)
-/

namespace ForkNS

abbrev Keycode := Nat

/-- `KEYCODE_UNUSED` -/
abbrev noKey : Keycode := 0

structure Environment (E Time : Type) where
  pressP : E → Bool
  releaseP : E → Bool
  timeOf : E → Time
  detailOf : E → Keycode
  ignoreEvent : E → Bool
  rewriteEvent : E → Keycode → E

/-- `rewrite_event` changes only the keycode -/
structure Environment.RewritesCode {E Time : Type} (env : Environment E Time) : Prop where
  pressP : ∀ e c, env.pressP (env.rewriteEvent e c) = env.pressP e
  releaseP : ∀ e c, env.releaseP (env.rewriteEvent e c) = env.releaseP e
  timeOf : ∀ e c, env.timeOf (env.rewriteEvent e c) = env.timeOf e

/-- and the rewritten event carries the code it was given; no event is a press and a release -/
structure Environment.Lawful {E Time : Type} (env : Environment E Time) : Prop
    extends env.RewritesCode where
  detailOf : ∀ e c, env.detailOf (env.rewriteEvent e c) = c
  oneKind : ∀ e, env.pressP e = true → env.releaseP e = false

theorem Environment.Lawful.not_press {E Time : Type} {env : Environment E Time}
    (hE : env.Lawful) {e : E} (hr : env.releaseP e = true) : env.pressP e = false := by
  by_contra hp
  rw [Bool.not_eq_false] at hp
  rw [hE.oneKind e hp] at hr
  cases hr

/-- `keycode_parameter_matrix` -/
abbrev ParameterMatrix (Time : Type) := Keycode → Keycode → Time

/-- the two matrices of the build with `VERIFICATION_MATRIX` -/
structure ParameterMatrices (Time : Type) where
  overlapTolerance : ParameterMatrix Time
  verificationInterval : ParameterMatrix Time

/-- `matrices` is `none` in the build without `VERIFICATION_MATRIX` -/
structure ForkConfiguration (Time : Type) where
  forkKeycode : Keycode → Keycode
  forkRepeatable : Keycode → Bool
  matrices : Option (ParameterMatrices Time)
  repeatMax : Time
  considerForksForRepeat : Bool

section
variable {Time : Type} [LinearOrder Time] [Add Time] [Zero Time] [NatCast Time]

def getValueFromMatrix (matrix : ParameterMatrix Time) (code verificator : Keycode) : Time :=
  if matrix code verificator ≠ 0 then matrix code verificator
  else if matrix code 0 ≠ 0 then matrix code 0
  else matrix 0 0

namespace ForkConfiguration

def verificationIntervalOf (config : ForkConfiguration Time) (code verificator : Keycode) : Time :=
  match config.matrices with
  | some m => getValueFromMatrix m.verificationInterval code verificator
  | none => ((200 : Nat) : Time)

def overlapToleranceOf (config : ForkConfiguration Time) (code verificator : Keycode) : Time :=
  match config.matrices with
  | some m => getValueFromMatrix m.overlapTolerance code verificator
  | none => ((100 : Nat) : Time)

/-- when the verificator will trigger the fork of the suspect -/
def verifierDecisionTime (config : ForkConfiguration Time) (suspect : Keycode) (suspectTime : Time)
    (verificatorKeycode : Keycode) (verificatorTime : Time) : Time :=
  let interval := config.verificationIntervalOf suspect verificatorKeycode
  let oneKey := suspectTime + interval
  let tolerance := config.overlapToleranceOf suspect verificatorKeycode
  let decisionPointTime := verificatorTime + tolerance
  if decisionPointTime < oneKey then decisionPointTime else oneKey

end ForkConfiguration

end

/-- `maxKeycode` is the template argument `MAX_KEYCODE`; `stdLibrary` says that
`DISABLE_STD_LIBRARY` is not defined, so that `mLock` is a `std::mutex` -/
structure Setup (E Time : Type) where
  env : Environment E Time
  config : ForkConfiguration Time
  maxKeycode : Nat
  stdLibrary : Bool

end ForkNS
