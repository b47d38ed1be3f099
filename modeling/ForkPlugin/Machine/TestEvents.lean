import ForkPlugin.Machine.Calls
import Mathlib.Tactic.Ring

/-!
# Events that are a time, a keycode and a kind

The events of the tests, with the methods that the Windows environment has for its own: a release
is what is not a press, no event is ignored, and rewriting changes the key.

* `TestEvent`, `testEnvironment`   with `testEnvironment_lawful`;
* `testConfiguration`              three forkable keys with different intervals;
* `fresh`                          a constructed machine, with room for 100 events;
* `during`                         a call that runs for some steps, the output never frozen.
-/

namespace ForkNS

structure TestEvent where
  time : Nat
  key : Keycode
  press : Bool
deriving DecidableEq, Repr

def testEnvironment : Environment TestEvent Nat where
  pressP e := e.press
  releaseP e := !e.press
  timeOf e := e.time
  detailOf e := e.key
  ignoreEvent _ := false
  rewriteEvent e c := { e with key := c }

theorem testEnvironment_lawful : testEnvironment.Lawful where
  pressP _ _ := rfl
  releaseP _ _ := rfl
  timeOf _ _ := rfl
  detailOf _ _ := rfl
  oneKind e h := by
    show (!e.press) = false
    rw [show e.press = true from h]
    rfl

/-- keys 1, 2 and 3 fork to 11, 12 and 13; key 1 is slow to fork, key 2 is quick -/
def testConfiguration : ForkConfiguration Nat where
  forkKeycode k := if k = 1 then 11 else if k = 2 then 12 else if k = 3 then 13 else 0
  forkRepeatable _ := false
  matrices := some {
    overlapTolerance := fun code _ => if code = 1 then 1000 else 100
    verificationInterval := fun code _ => if code = 1 then 1000 else if code = 2 then 50 else 200 }
  repeatMax := 80
  considerForksForRepeat := true

def testSetup : Setup TestEvent Nat := ⟨testEnvironment, testConfiguration, 256, true⟩

def down (key : Keycode) (time : Nat) : TestEvent := ⟨time, key, true⟩
def up (key : Keycode) (time : Nat) : TestEvent := ⟨time, key, false⟩

abbrev fresh : Sys (Triqueue TestEvent) TestEvent Nat := Sys.create (Triqueue.create 100)

/-- a call, and the steps it takes while the output is not frozen -/
def during (c : Call TestEvent Nat) (steps : Nat) : List (Act TestEvent Nat) :=
  .call c :: List.replicate steps (.tick false)

end ForkNS
