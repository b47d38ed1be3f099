import ForkPlugin.Machine.Setup
import Mathlib.Data.Int.Order.Basic
import Mathlib.Tactic.Ring

/-!
# The events of the Windows driver

A keyboard packet is converted to an `extendedEvent` at once, and back when it is passed on.

* `KeyboardInputData`, `ExtendedEvent`   the packet, and what the machine keeps of it;
* `ExtendedEvent.detailOf`   the make code, with the flags E0 and E1 as bits 8 and 9;
* `ExtendedEvent.rewriteEvent`   replaces the make code alone;
* `winEnvironment`           the methods of `winEnvironment` that say what an event is;
* `winSetup`                 the machine of the driver;
* `rewrite_takes_effect`     when a rewritten event has the code it was given;
* `rewrite_of_e0`            an E0 key that is not.

`time_type` is `ℤ`: nothing here computes with it.
-/

namespace ForkNS

abbrev keyBreak : UInt16 := 1
abbrev keyE0 : UInt16 := 2
abbrev keyE1 : UInt16 := 4

/-- `KEYBOARD_INPUT_DATA` -/
structure KeyboardInputData where
  unitId : UInt16
  makeCode : UInt16
  flags : UInt16
  reserved : UInt16
  extraInformation : UInt32
deriving DecidableEq, Repr

structure ExtendedEvent where
  time : ℤ
  unitId : UInt16
  key : UInt16
  flags : UInt16
  reserved : UInt16
  extraInformation : UInt32
  forked : UInt16
  press : Bool
deriving DecidableEq, Repr

def winEventToExtended (event : KeyboardInputData) (time : ℤ) : ExtendedEvent where
  time := time
  key := event.makeCode
  forked := 0
  flags := event.flags
  press := event.flags &&& keyBreak = 0
  unitId := event.unitId
  reserved := event.reserved
  extraInformation := event.extraInformation

/-- every field of the packet is written -/
def extendedEventToWin (pevent : ExtendedEvent) : KeyboardInputData where
  makeCode := pevent.key
  flags := pevent.flags
  unitId := pevent.unitId
  reserved := pevent.reserved
  extraInformation := pevent.extraInformation

namespace ExtendedEvent

def detailOf (event : ExtendedEvent) : UInt16 :=
  event.key ||| (if event.flags &&& keyE0 ≠ 0 then (1 : UInt16) <<< 8 else 0)
    ||| (if event.flags &&& keyE1 ≠ 0 then (1 : UInt16) <<< 9 else 0)

def rewriteEvent (pevent : ExtendedEvent) (code : UInt16) : ExtendedEvent :=
  { pevent with key := code }

end ExtendedEvent

/-- a keycode of the machine is a `USHORT` -/
def winEnvironment : Environment ExtendedEvent ℤ where
  pressP event := event.press
  releaseP event := !event.press
  timeOf event := event.time
  detailOf event := event.detailOf.toNat
  ignoreEvent _ := false
  rewriteEvent pevent code := pevent.rewriteEvent (UInt16.ofNat code)

/-- the machine of the driver; `DISABLE_STD_LIBRARY` is defined -/
def winSetup (config : ForkConfiguration ℤ) : Setup ExtendedEvent ℤ where
  env := winEnvironment
  config := config
  maxKeycode := 512
  stdLibrary := false

/-! ## packets out and back -/

/-- the kind is in the flags, which are kept -/
theorem readBack_eq (event : KeyboardInputData) (code : UInt16) (t t' : ℤ) :
    winEventToExtended
        (extendedEventToWin ((winEventToExtended event t).rewriteEvent code)) t'
      = (winEventToExtended event t').rewriteEvent code := rfl

/-! ## bits -/

theorem or_two_pow_eq_self {n i : ℕ} : n ||| 2 ^ i = n ↔ n.testBit i = true := by
  constructor
  · intro h
    have hbit : (n ||| 2 ^ i).testBit i = true := by
      rw [Nat.testBit_or, Nat.testBit_two_pow_self, Bool.or_true]
    rwa [h] at hbit
  · intro h
    apply Nat.eq_of_testBit_eq
    intro j
    rw [Nat.testBit_or, Nat.testBit_two_pow]
    by_cases hij : i = j
    · rw [← hij, h, Bool.true_or]
    · rw [decide_eq_false hij, Bool.or_false]

/-- the highest bit of a number -/
theorem testBit_top {n i : ℕ} (h : n < 2 ^ (i + 1)) : n.testBit i = true ↔ 2 ^ i ≤ n := by
  constructor
  · intro hbit
    by_contra hlt
    rw [Nat.testBit_lt_two_pow (not_le.mp hlt)] at hbit
    cases hbit
  · intro hle
    exact Nat.testBit_of_two_pow_le_and_two_pow_add_one_gt hle h

theorem detailOf_toNat (event : ExtendedEvent) : event.detailOf.toNat =
    event.key.toNat ||| (if event.flags &&& keyE0 ≠ 0 then 2 ^ 8 else 0)
      ||| (if event.flags &&& keyE1 ≠ 0 then 2 ^ 9 else 0) := by
  simp only [ExtendedEvent.detailOf, UInt16.toNat_or]
  congr 1
  · congr 1
    split_ifs <;> rfl
  · split_ifs <;> rfl

/-- a key below 512 decodes to itself -/
theorem detailOf_eq_key {event : ExtendedEvent} (hkey : event.key.toNat < 512) :
    event.detailOf = event.key ↔
      event.flags &&& keyE1 = 0 ∧ (event.flags &&& keyE0 ≠ 0 → 256 ≤ event.key.toNat) := by
  rw [← UInt16.toNat_inj, detailOf_toNat]
  have hhigh : event.key.toNat.testBit 9 = false := Nat.testBit_lt_two_pow hkey
  by_cases h1 : event.flags &&& keyE1 = 0
  · rw [if_neg (not_not.mpr h1), Nat.or_zero]
    by_cases h0 : event.flags &&& keyE0 ≠ 0
    · rw [if_pos h0, or_two_pow_eq_self, testBit_top (by omega)]
      simp [h1, h0]
    · rw [if_neg h0, Nat.or_zero]
      simp [h1, h0]
  · -- bit 9 is set in the detail
    rw [if_pos h1]
    refine iff_of_false (fun h => ?_) fun h => h1 h.1
    have hbit := congrArg (Nat.testBit · 9) h
    simp only [Nat.testBit_or, Nat.testBit_two_pow_self, Bool.or_true, hhigh] at hbit
    cases hbit

/-! ## rewriting -/

/-- `ev` has the code, and is otherwise what `old` was -/
structure RewrittenTo (code : UInt16) (old ev : ExtendedEvent) : Prop where
  detail : ev.detailOf = code
  press : ev.press = old.press
  unitId : ev.unitId = old.unitId
  reserved : ev.reserved = old.reserved
  extraInformation : ev.extraInformation = old.extraInformation

theorem rewrittenTo_iff {code : UInt16} (hcode : code.toNat < 512) (event : KeyboardInputData)
    (t t' : ℤ) : RewrittenTo code (winEventToExtended event t)
        ((winEventToExtended event t').rewriteEvent code) ↔
      event.flags &&& keyE1 = 0 ∧ (event.flags &&& keyE0 ≠ 0 → 256 ≤ code.toNat) := by
  have hkey : ((winEventToExtended event t').rewriteEvent code).key.toNat < 512 := hcode
  have hiff := detailOf_eq_key hkey
  exact ⟨fun h => hiff.mp h.detail, fun h => ⟨hiff.mpr h, rfl, rfl, rfl, rfl⟩⟩

/-- the event rewritten, and the same event sent out and read back -/
def TakesEffect (event : KeyboardInputData) (code : UInt16) (t t' : ℤ) : Prop :=
  let ev := (winEventToExtended event t).rewriteEvent code
  RewrittenTo code (winEventToExtended event t) ev ∧
    RewrittenTo code (winEventToExtended event t)
      (winEventToExtended (extendedEventToWin ev) t')

/-- **Rewriting takes effect** unless a flag of the old key is kept that the new one has not. -/
theorem rewrite_takes_effect (event : KeyboardInputData) {code : UInt16}
    (hcode : code.toNat < 512) (t t' : ℤ) : TakesEffect event code t t' ↔
      event.flags &&& keyE1 = 0 ∧ (event.flags &&& keyE0 ≠ 0 → 256 ≤ code.toNat) := by
  rw [TakesEffect, readBack_eq, rewrittenTo_iff hcode, rewrittenTo_iff hcode, and_self]

/-- the right Alt, an E0 key -/
def rightAlt : KeyboardInputData := ⟨0, 0x38, keyE0, 0, 0⟩

theorem rewrite_takes_effect_e0 : TakesEffect rightAlt 0x11d 0 0 ↔
    rightAlt.flags &&& keyE1 = 0 ∧ (rightAlt.flags &&& keyE0 ≠ 0 → 256 ≤ (0x11d : UInt16).toNat) :=
  rewrite_takes_effect rightAlt (by decide) 0 0

/-- The right Alt rewritten to 29, the left Control, is key 285, the right Control. -/
theorem rewrite_of_e0 : ¬TakesEffect rightAlt 29 0 0 ∧
    ((winEventToExtended rightAlt 0).rewriteEvent 29).detailOf = 285 := by
  refine ⟨fun h => absurd h.1.detail (by decide), by decide⟩

end ForkNS
