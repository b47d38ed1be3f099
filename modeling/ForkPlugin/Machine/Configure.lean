import ForkPlugin.Machine.Setup
import Mathlib.Logic.Function.Basic

/-!
# Configuration requests

* `ForkConfigurationType`   `fork_configuration_t`, and the integers that are none of its values;
* `Port`                    what the platform's `Keycode` and `Time` make of an `int`, and back;
* `Settings`                the `ForkConfiguration` of a machine with the fields that the automaton
                            does not read, and `max_last`;
* `configureGlobal`, `configureKey`, `configureTwins`, `setDebug`   the bodies of the requests.

A request answers an `int`; `asserted` is `false` where the assertion of `fork_configure_switch`
fails.  In the build without `VERIFICATION_MATRIX` there are no matrices to set.
-/

namespace ForkNS

inductive ForkConfigurationType where
  | lastEvents
  | overlapLimit
  | totalLimit
  | repeatLimit
  | repeatConsiderForks
  | keyFork
  | keyForkRepeat
  | debug
  | switch
  | clone
  | clearInterval
  | serverDumpKeys
  | clientDumpKeys
  | other (code : Int)
deriving DecidableEq, Repr

/-- the tables of a configuration -/
inductive ConfigTable where
  | forkKeycode
  | forkRepeatable
  | overlapTolerance
  | verificationInterval
deriving DecidableEq, Repr

structure Port (Time : Type) where
  keycodeOfInt : Int → Keycode
  timeOfInt : Int → Time
  intOfTime : Time → Int

structure Settings (Time : Type) where
  config : ForkConfiguration Time
  clearInterval : Int
  debug : Int
  maxLast : Int

structure Reply (Time : Type) where
  settings : Settings Time
  value : Int := 0
  asserted : Bool := true

variable {Time : Type}

/-- `matrix[code][verificator] = value` -/
def ParameterMatrix.set (matrix : ParameterMatrix Time) (code verificator : Keycode)
    (value : Time) : ParameterMatrix Time :=
  Function.update matrix code (Function.update (matrix code) verificator value)

theorem ParameterMatrix.set_apply (matrix : ParameterMatrix Time) (code verificator : Keycode)
    (value : Time) (i j : Keycode) : matrix.set code verificator value i j =
      if i = code ∧ j = verificator then value else matrix i j := by
  unfold ParameterMatrix.set
  by_cases hi : i = code
  · subst hi
    by_cases hj : j = verificator
    · simp [hj]
    · simp [hj]
  · simp [hi]

namespace Settings

def withConfig (s : Settings Time) (config : ForkConfiguration Time) : Settings Time :=
  { s with config := config }

def withOverlapTolerance (s : Settings Time) (m : ParameterMatrices Time)
    (code verificator : Keycode) (value : Time) : Settings Time :=
  s.withConfig { s.config with
    matrices := some { m with
      overlapTolerance := m.overlapTolerance.set code verificator value } }

def withVerificationInterval (s : Settings Time) (m : ParameterMatrices Time)
    (code verificator : Keycode) (value : Time) : Settings Time :=
  s.withConfig { s.config with
    matrices := some { m with
      verificationInterval := m.verificationInterval.set code verificator value } }

/-- shrinking is not implemented -/
def setLastEventsCount (s : Settings Time) (newMax : Int) : Settings Time :=
  if s.maxLast > newMax then s else { s with maxLast := newMax }

def setDebug (s : Settings Time) (level : Int) : Settings Time := { s with debug := level }

@[simp] theorem withConfig_config (s : Settings Time) (config : ForkConfiguration Time) :
    (s.withConfig config).config = config := rfl

@[simp] theorem withOverlapTolerance_config (s : Settings Time) (m : ParameterMatrices Time)
    (code verificator : Keycode) (value : Time) :
    (s.withOverlapTolerance m code verificator value).config = { s.config with
      matrices := some { m with
        overlapTolerance := m.overlapTolerance.set code verificator value } } := rfl

@[simp] theorem withVerificationInterval_config (s : Settings Time) (m : ParameterMatrices Time)
    (code verificator : Keycode) (value : Time) :
    (s.withVerificationInterval m code verificator value).config = { s.config with
      matrices := some { m with
        verificationInterval := m.verificationInterval.set code verificator value } } := rfl

@[simp] theorem setLastEventsCount_config (s : Settings Time) (newMax : Int) :
    (s.setLastEventsCount newMax).config = s.config := by
  unfold setLastEventsCount
  split_ifs <;> rfl

@[simp] theorem setDebug_config (s : Settings Time) (level : Int) :
    (s.setDebug level).config = s.config := rfl

/-- `bool` as the `int` that is returned -/
def intOfBool (b : Bool) : Int := if b then 1 else 0

section
variable (port : Port Time)

def configureGlobal (s : Settings Time) (type : ForkConfigurationType) (value : Int)
    (set : Bool) : Reply Time :=
  match type, s.config.matrices with
  | .overlapLimit, some m =>
    if set then { settings := s.withOverlapTolerance m 0 0 (port.timeOfInt value) }
    else { settings := s, value := port.intOfTime (m.overlapTolerance 0 0) }
  | .totalLimit, some m =>
    if set then { settings := s.withVerificationInterval m 0 0 (port.timeOfInt value) }
    else { settings := s, value := port.intOfTime (m.verificationInterval 0 0) }
  | .clearInterval, _ =>
    if set then { settings := { s with clearInterval := value } }
    else { settings := s, value := s.clearInterval }
  | .repeatLimit, _ =>
    if set then
      { settings := s.withConfig { s.config with repeatMax := port.timeOfInt value } }
    else { settings := s, value := port.intOfTime s.config.repeatMax }
  | .repeatConsiderForks, _ =>
    -- a request to set answers as well
    let s := if set then s.withConfig { s.config with considerForksForRepeat := value != 0 } else s
    { settings := s, value := intOfBool s.config.considerForksForRepeat }
  | .lastEvents, _ =>
    if set then { settings := s.setLastEventsCount value }
    else { settings := s, value := s.maxLast }
  | .debug, _ =>
    if set then { settings := s.setDebug value }
    else { settings := s, value := s.debug }
  | .serverDumpKeys, _ => { settings := s }
  | .switch, _ => { settings := s, asserted := set }
  | _, _ => { settings := s }

def configureKey (s : Settings Time) (type : ForkConfigurationType) (key : Keycode) (value : Int)
    (set : Bool) : Reply Time :=
  match type with
  | .keyFork =>
    if set then
      { settings := s.withConfig { s.config with
          forkKeycode := Function.update s.config.forkKeycode key (port.keycodeOfInt value) } }
    else { settings := s, value := s.config.forkKeycode key }
  | .keyForkRepeat =>
    if set then
      { settings := s.withConfig { s.config with
          forkRepeatable := Function.update s.config.forkRepeatable key (value != 0) } }
    else { settings := s, value := intOfBool (s.config.forkRepeatable key) }
  | _ => { settings := s }

def configureTwins (s : Settings Time) (type : ForkConfigurationType) (key twin : Keycode)
    (value : Int) (set : Bool) : Reply Time :=
  match type, s.config.matrices with
  | .totalLimit, some m =>
    if set then { settings := s.withVerificationInterval m key twin (port.timeOfInt value) }
    else { settings := s, value := port.intOfTime (m.verificationInterval key twin) }
  | .overlapLimit, some m =>
    if set then { settings := s.withOverlapTolerance m key twin (port.timeOfInt value) }
    else { settings := s, value := port.intOfTime (m.overlapTolerance key twin) }
  | _, _ => { settings := s }

end

end Settings

end ForkNS
