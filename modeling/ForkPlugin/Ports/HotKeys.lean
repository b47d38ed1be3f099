import ForkPlugin.Machine.Streams
import Mathlib.Data.List.Induction

/-!
# The hot keys of the X plugin

While Pause is held the plugin is in `config_mode`: the keys configure it.  A filter takes the
events of Pause away from the machine; a keyboard that releases it at once is tolerated, and then
the mode lasts for one more event.

* `KeyEvent`, `xorgEnvironment`   the events of the X server, as far as they are read;
* `HotKeys`             the static variables of the two functions, one set for all devices;
* `Service`             what a hot key does to the machine;
* `handleConfigKey`, `filterConfigKeyMaybe`   the handler and the filter;
* `filter_result`       which events are not passed on;
* `Tolerated`           a release of Pause that comes soon enough;
* `passed_alternates_iff`   the passed events alternate if every release of Pause is tolerated, and
                        only then;
* `pause_unbalanced`    a release of Pause that is not.
-/

namespace ForkNS

/-- `KeyPress` or `KeyRelease`; other types of events are not processed -/
structure KeyEvent where
  press : Bool
  detail : Keycode
  time : UInt32
deriving DecidableEq, Repr

/-- `mouseKeys`: the control `XkbMouseKeysMask` -/
def xorgEnvironment (mouseKeys : Bool) : Environment KeyEvent UInt32 where
  pressP event := event.press
  releaseP event := !event.press
  timeOf event := event.time
  detailOf event := event.detail
  ignoreEvent _ := mouseKeys
  rewriteEvent event code := { event with detail := code }

abbrev pauseKey : Keycode := 127
abbrev keyK : Keycode := 45
abbrev keyL : Keycode := 46

abbrev minimumDuration : UInt32 := 30

/-- `config_mode`, `latch`, `last_press_time` and `key_to_fork` -/
structure HotKeys where
  configMode : Bool := false
  latch : Bool := false
  lastPressTime : UInt32 := 0
  keyToFork : Keycode := 0
deriving DecidableEq, Repr

inductive Service where
  | dumpLastEvents
  | setDebug (level : Int)
  | forkKeycode (key value : Keycode)   -- fork_keycode[key] = value
deriving DecidableEq, Repr

/-- the variables afterwards, the value returned, and what was done -/
structure Filtered where
  state : HotKeys
  result : Bool
  services : List Service := []
deriving DecidableEq, Repr

/-! ## the two functions -/

/-- without `MULTIPLE_CONFIGURATIONS` -/
def handleConfigKey (h : HotKeys) (event : KeyEvent) : Filtered :=
  if event.press then
    let keycode := event.detail
    if keycode = pauseKey then { state := h, result := true, services := [.dumpLastEvents] }
    else if keycode = keyL then { state := h, result := true, services := [.setDebug 1] }
    else if keycode = keyK then { state := h, result := true, services := [.setDebug 0] }
    -- press BREAK FROM TO to have FROM fork to TO
    else if h.keyToFork = 0 then { state := { h with keyToFork := keycode }, result := true }
    else
      { state := { h with keyToFork := 0 }, result := true,
        services := [.forkKeycode h.keyToFork keycode] }
  else { state := h, result := true }

def pausePressed (event : KeyEvent) : Bool := event.detail = pauseKey ∧ event.press
def pauseReleased (event : KeyEvent) : Bool := event.detail = pauseKey ∧ event.press = false

/-- the block of `config_mode`; the result is `true` where it returns -/
def configModeBlock (h : HotKeys) (event : KeyEvent) : Filtered :=
  if pauseReleased event then
    if event.time - h.lastPressTime < minimumDuration then
      { state := { h with latch := true }, result := true }
    else
      { state := { h with configMode := false }, result := false, services := [.dumpLastEvents] }
  else
    let handled := handleConfigKey { h with lastPressTime := 0 } event
    let h := { handled.state with configMode := handled.result }
    let h := if h.latch then { h with configMode := false, latch := false } else h
    { state := h, result := false, services := handled.services }

/-- the rest of the filter -/
def pauseBlock (h : HotKeys) (event : KeyEvent) (services : List Service) : Filtered :=
  if pausePressed event then
    { state := { h with lastPressTime := event.time, configMode := true }, result := true,
      services := services }
  else { state := { h with lastPressTime := 0 }, result := false, services := services }

/-- after the block -/
def afterConfigMode (h : HotKeys) (event : KeyEvent) : Filtered :=
  if h.configMode then configModeBlock h event else { state := h, result := false }

def filterConfigKeyMaybe (h : HotKeys) (event : KeyEvent) : Filtered :=
  let block := afterConfigMode h event
  if block.result then block else pauseBlock block.state event block.services

/-! ## event after event -/

def HotKeys.after (events : List KeyEvent) : HotKeys :=
  events.foldl (fun h event => (filterConfigKeyMaybe h event).state) {}

/-- the event is passed on to the machine -/
def passes (before : List KeyEvent) (event : KeyEvent) : Bool :=
  !(filterConfigKeyMaybe (.after before) event).result

/-- those of `events` that are passed on, when they come after `before` -/
def passedFrom (before : List KeyEvent) : List KeyEvent → List KeyEvent
  | [] => []
  | event :: events =>
    (if passes before event then [event] else []) ++ passedFrom (before ++ [event]) events

def passed (events : List KeyEvent) : List KeyEvent := passedFrom [] events

theorem HotKeys.after_snoc (events : List KeyEvent) (event : KeyEvent) :
    HotKeys.after (events ++ [event]) = (filterConfigKeyMaybe (.after events) event).state := by
  rw [HotKeys.after, List.foldl_append]
  rfl

theorem passedFrom_append (before events events' : List KeyEvent) :
    passedFrom before (events ++ events')
      = passedFrom before events ++ passedFrom (before ++ events) events' := by
  induction events generalizing before with
  | nil => simp [passedFrom]
  | cons event events ih =>
    rw [List.cons_append, passedFrom, passedFrom, ih, List.append_assoc, List.append_assoc]
    rfl

theorem passed_snoc (events : List KeyEvent) (event : KeyEvent) :
    passed (events ++ [event])
      = passed events ++ if passes events event then [event] else [] := by
  rw [passed, passedFrom_append, List.nil_append]
  simp [passed, passedFrom]

/-! ## the events of Pause -/

theorem pausePressed_iff {event : KeyEvent} :
    pausePressed event = true ↔ event.detail = pauseKey ∧ event.press = true := by
  simp [pausePressed]

theorem pauseReleased_iff {event : KeyEvent} :
    pauseReleased event = true ↔ event.detail = pauseKey ∧ event.press = false := by
  simp [pauseReleased]

/-- an event of Pause is one or the other -/
theorem pause_kinds {event : KeyEvent} (h : event.detail = pauseKey) :
    pausePressed event = event.press ∧ pauseReleased event = !event.press := by
  simp [pausePressed, pauseReleased, h]

theorem not_pause {event : KeyEvent} (h : event.detail ≠ pauseKey) :
    pausePressed event = false ∧ pauseReleased event = false := by
  simp [pausePressed, pauseReleased, h]

theorem not_pressed {event : KeyEvent} (hr : pauseReleased event = true) :
    pausePressed event = false := by
  obtain ⟨hd, hup⟩ := pauseReleased_iff.mp hr
  rw [(pause_kinds hd).1, hup]

theorem not_released {event : KeyEvent} (hp : pausePressed event = true) :
    pauseReleased event = false := by
  obtain ⟨hd, hdown⟩ := pausePressed_iff.mp hp
  rw [(pause_kinds hd).2, hdown]
  rfl

/-! ## what is not passed on -/

/-- the mode is on, and the release comes soon -/
def Tolerated (h : HotKeys) (event : KeyEvent) : Prop :=
  h.configMode = true ∧ event.time - h.lastPressTime < minimumDuration

instance (h : HotKeys) (event : KeyEvent) : Decidable (Tolerated h event) :=
  inferInstanceAs (Decidable (_ ∧ _))

/-- the presses of Pause, and the releases that are tolerated -/
theorem filter_result (h : HotKeys) (event : KeyEvent) :
    (filterConfigKeyMaybe h event).result = true ↔
      pausePressed event = true ∨ pauseReleased event = true ∧ Tolerated h event := by
  simp only [filterConfigKeyMaybe, afterConfigMode, configModeBlock, pauseBlock, Tolerated]
  by_cases hm : h.configMode = true
  · by_cases hr : pauseReleased event = true
    · have hp := not_pressed hr
      by_cases ht : event.time - h.lastPressTime < minimumDuration
      · simp [hm, hr, ht]
      · simp [hm, hr, ht, hp]
    · cases pausePressed event <;> simp [hm, hr]
  · cases pausePressed event <;> simp [hm]

theorem passes_eq_false (before : List KeyEvent) (event : KeyEvent) :
    passes before event = false ↔
      pausePressed event = true ∨
        pauseReleased event = true ∧ Tolerated (.after before) event := by
  rw [passes, Bool.not_eq_false', filter_result]

/-! ## the variables -/

/-- a press of a key that has no other meaning -/
def plainPressed (event : KeyEvent) : Bool :=
  event.press ∧ event.detail ≠ pauseKey ∧ event.detail ≠ keyL ∧ event.detail ≠ keyK

theorem plainPressed_iff {event : KeyEvent} : plainPressed event = true ↔
    event.press = true ∧ event.detail ≠ pauseKey ∧ event.detail ≠ keyL ∧ event.detail ≠ keyK := by
  simp [plainPressed]

theorem plainPressed_pause {event : KeyEvent} (h : event.detail = pauseKey) :
    plainPressed event = false := by
  simp [plainPressed, h]

/-- `key_to_fork` after an event -/
def keyAfter (h : HotKeys) (event : KeyEvent) : Keycode :=
  if h.configMode ∧ plainPressed event then if h.keyToFork = 0 then event.detail else 0
  else h.keyToFork

theorem handleConfigKey_state (h : HotKeys) (event : KeyEvent) :
    (handleConfigKey h event).result = true ∧ (handleConfigKey h event).state =
      { h with keyToFork :=
          if plainPressed event then if h.keyToFork = 0 then event.detail else 0
          else h.keyToFork } := by
  by_cases hp : event.press = true
  · by_cases hpause : event.detail = pauseKey
    · simp [handleConfigKey, plainPressed, hp, hpause]
    · by_cases hl : event.detail = keyL
      · simp [handleConfigKey, plainPressed, hp, hl, show keyL ≠ pauseKey by decide]
      · by_cases hk : event.detail = keyK
        · simp [handleConfigKey, plainPressed, hp, hk, show keyK ≠ pauseKey by decide,
            show keyK ≠ keyL by decide]
        · by_cases hz : h.keyToFork = 0 <;>
            simp [handleConfigKey, plainPressed, hp, hpause, hl, hk, hz]
  · simp [handleConfigKey, plainPressed, hp]

/-- the block, unless Pause is released -/
theorem afterConfigMode_other {h : HotKeys} {event : KeyEvent}
    (hr : pauseReleased event = false) : (afterConfigMode h event).result = false ∧
      (afterConfigMode h event).state =
        { configMode := h.configMode && !h.latch
          latch := h.latch && !h.configMode
          lastPressTime := if h.configMode then 0 else h.lastPressTime
          keyToFork := keyAfter h event } := by
  obtain ⟨hresult, hstate⟩ := handleConfigKey_state { h with lastPressTime := 0 } event
  rcases h with ⟨- | -, l, t, k⟩
  · simp [afterConfigMode, keyAfter]
  · simp only [afterConfigMode, configModeBlock, hr, if_true, hresult, hstate, keyAfter,
      Bool.false_eq_true, if_false]
    cases l <;> simp

/-- Pause is pressed -/
theorem filter_press {h : HotKeys} {event : KeyEvent} (hp : pausePressed event = true) :
    (filterConfigKeyMaybe h event).state =
      { h with configMode := true, latch := h.latch && !h.configMode,
               lastPressTime := event.time } := by
  have hkey : keyAfter h event = h.keyToFork := by
    simp [keyAfter, plainPressed_pause (pausePressed_iff.mp hp).1]
  obtain ⟨hresult, hstate⟩ := afterConfigMode_other (h := h) (not_released hp)
  simp [filterConfigKeyMaybe, hresult, hstate, pauseBlock, hp, hkey]

/-- it is released -/
theorem filter_release {h : HotKeys} {event : KeyEvent} (hr : pauseReleased event = true) :
    (filterConfigKeyMaybe h event).state =
      if Tolerated h event then { h with latch := true }
      else { h with configMode := false, lastPressTime := 0 } := by
  have hp := not_pressed hr
  rcases h with ⟨- | -, l, t, k⟩
  · simp [filterConfigKeyMaybe, afterConfigMode, pauseBlock, hp, Tolerated]
  · by_cases ht : event.time - t < minimumDuration
    · simp [filterConfigKeyMaybe, afterConfigMode, configModeBlock, hr, ht, Tolerated]
    · simp [filterConfigKeyMaybe, afterConfigMode, configModeBlock, pauseBlock, hp, hr, ht,
        Tolerated]

/-- another key -/
theorem filter_other {h : HotKeys} {event : KeyEvent} (hd : event.detail ≠ pauseKey) :
    (filterConfigKeyMaybe h event).state =
      { configMode := h.configMode && !h.latch, latch := h.latch && !h.configMode,
        lastPressTime := 0, keyToFork := keyAfter h event } := by
  obtain ⟨hp, hr⟩ := not_pause hd
  obtain ⟨hresult, hstate⟩ := afterConfigMode_other (h := h) hr
  simp [filterConfigKeyMaybe, hresult, hstate, pauseBlock, hp]

/-! ## press and release in turn -/

variable {mouseKeys : Bool} {events : List KeyEvent} {event : KeyEvent}

/-- `last_press_time`, if Pause is down -/
def precedingPressTime (before : List KeyEvent) : UInt32 :=
  match before.getLast? with
  | some event => if pausePressed event then event.time else 0
  | none => 0

theorem precedingPressTime_snoc (before : List KeyEvent) (event : KeyEvent) :
    precedingPressTime (before ++ [event])
      = if pausePressed event then event.time else 0 := by
  simp [precedingPressTime]

/-- the variables, when the events alternate: while Pause is down the mode is on, and nothing is
latched; otherwise it is on if it is latched -/
structure InTurn (down : Bool) (events : List KeyEvent) (h : HotKeys) : Prop where
  held : down = true → h.configMode = true ∧ h.latch = false ∧
    h.lastPressTime = precedingPressTime events
  up : down = false → h.latch = true → h.configMode = true

theorem InTurn.snoc {down : Bool} {h : HotKeys} (hT : InTurn down events h) {event : KeyEvent}
    (hpress : pausePressed event = true → down = false)
    (hrelease : pauseReleased event = true → down = true) :
    InTurn (if event.detail = pauseKey then event.press else down) (events ++ [event])
      (filterConfigKeyMaybe h event).state := by
  by_cases hd : event.detail = pauseKey
  · obtain ⟨hp, hr⟩ := pause_kinds hd
    rw [if_pos hd]
    cases hkind : event.press with
    | true =>
      rw [hkind] at hp
      have hup := hT.up (hpress hp)
      rw [filter_press hp]
      refine ⟨fun _ => ⟨rfl, ?_, ?_⟩, fun hf => absurd hf (by decide)⟩
      · -- a latched mode is left and entered again
        cases hl : h.latch with
        | false => rfl
        | true =>
          show (true && !h.configMode) = false
          rw [hup hl]
          rfl
      · rw [precedingPressTime_snoc, if_pos hp]
    | false =>
      rw [hkind] at hr
      obtain ⟨hmode, hlatch, -⟩ := hT.held (hrelease hr)
      rw [filter_release hr]
      refine ⟨fun hf => absurd hf (by decide), fun _ hl => ?_⟩
      split_ifs at hl ⊢ with ht
      · exact hmode
      · exact absurd hl (by simp [hlatch])
  · rw [if_neg hd, filter_other hd]
    refine ⟨fun hdown => ?_, fun hdown hl => ?_⟩
    · obtain ⟨hmode, hlatch, -⟩ := hT.held hdown
      refine ⟨by simp [hmode, hlatch], by simp [hlatch], ?_⟩
      rw [precedingPressTime_snoc, if_neg (by simp [(not_pause hd).1])]
    · have hup := hT.up hdown
      simp only [Bool.and_eq_true, Bool.not_eq_true'] at hl
      rw [hup hl.1] at hl
      cases hl.2

theorem isDown_key (es : List KeyEvent) (event : KeyEvent) (k : Keycode) :
    isDown (xorgEnvironment mouseKeys) (es ++ [event]) k =
      if event.detail = k then event.press
      else isDown (xorgEnvironment mouseKeys) es k := by
  rw [isDown_snoc]
  show (if event.detail = k then if event.press then true else if !event.press then false else _
    else _) = _
  cases event.press <;> rfl

/-- Pause is down before it is released -/
theorem FitsAfter.pause_down (hfits : FitsAfter (xorgEnvironment mouseKeys) events event)
    (hr : pauseReleased event = true) :
    isDown (xorgEnvironment mouseKeys) events pauseKey = true := by
  obtain ⟨hd, hup⟩ := pauseReleased_iff.mp hr
  have hrelease : (!event.press) = true := by rw [hup, Bool.not_false]
  exact hd ▸ hfits.2 hrelease

/-- and up before it is pressed -/
theorem FitsAfter.pause_up (hfits : FitsAfter (xorgEnvironment mouseKeys) events event)
    (hp : pausePressed event = true) :
    isDown (xorgEnvironment mouseKeys) events pauseKey = false := by
  obtain ⟨hd, hdown⟩ := pausePressed_iff.mp hp
  exact hd ▸ hfits.1 hdown

/-- the variables after events that alternate -/
theorem inTurn_after (hA : Alternates (xorgEnvironment mouseKeys) events) :
    InTurn (isDown (xorgEnvironment mouseKeys) events pauseKey) events (.after events) := by
  induction events using List.reverseRecOn with
  | nil =>
    refine ⟨fun hf => ?_, fun _ hf => ?_⟩
    · cases hf
    · cases hf
  | append_singleton events event ih =>
    obtain ⟨hA, hfits⟩ := alternates_snoc.mp hA
    rw [isDown_key, HotKeys.after_snoc]
    exact (ih hA).snoc hfits.pause_up hfits.pause_down

/-! ## balance -/

/-- Pause is never down in the passed events -/
theorem passed_pause_up (events : List KeyEvent) :
    isDown (xorgEnvironment mouseKeys) (passed events) pauseKey = false := by
  induction events using List.reverseRecOn with
  | nil => rfl
  | append_singleton events event ih =>
    rw [passed_snoc]
    cases hpass : passes events event with
    | false => simpa using ih
    | true =>
      rw [if_pos rfl, isDown_key]
      split_ifs with hd
      · -- a press is not passed on
        by_contra hpress
        rw [Bool.not_eq_false] at hpress
        have hp := (pause_kinds hd).1.trans hpress
        rw [(passes_eq_false events event).mpr (.inl hp)] at hpass
        cases hpass
      · exact ih

/-- a release that is passed on comes after no press -/
theorem tolerated_of_alternates {before after : List KeyEvent} {event : KeyEvent}
    (h : Alternates (xorgEnvironment mouseKeys) (passed (before ++ event :: after)))
    (hr : pauseReleased event = true) : Tolerated (.after before) event := by
  by_contra ht
  have hpass : passes before event = true := by
    by_contra hf
    rw [Bool.not_eq_true, passes_eq_false] at hf
    rcases hf with hp | ⟨-, hf⟩
    · rw [not_pressed hr] at hp
      cases hp
    · exact ht hf
  have hsplit : passed (before ++ event :: after)
      = passed before ++ event :: passedFrom (before ++ [event]) after := by
    rw [passed, passedFrom_append, List.nil_append, passedFrom, if_pos hpass]
    rfl
  rw [hsplit] at h
  have hdown := (alternates_split h).2.pause_down hr
  rw [passed_pause_up] at hdown
  cases hdown

/-- the other keys are passed on as they come -/
theorem alternates_of_tolerated (hA : Alternates (xorgEnvironment mouseKeys) events)
    (ht : ∀ before event after, events = before ++ event :: after →
      pauseReleased event = true → Tolerated (.after before) event) :
    Alternates (xorgEnvironment mouseKeys) (passed events) ∧
      ∀ k ≠ pauseKey, isDown (xorgEnvironment mouseKeys) (passed events) k
        = isDown (xorgEnvironment mouseKeys) events k := by
  induction events using List.reverseRecOn with
  | nil => exact ⟨trivial, fun _ _ => rfl⟩
  | append_singleton events event ih =>
    obtain ⟨hA, hfits⟩ := alternates_snoc.mp hA
    obtain ⟨hpassed, hsame⟩ := ih hA fun before e after he =>
      ht before e (after ++ [event]) (by rw [he, List.append_assoc]; rfl)
    rw [passed_snoc]
    by_cases hd : event.detail = pauseKey
    · -- an event of Pause is not passed on
      have hdrop : passes events event = false := by
        rw [passes_eq_false, (pause_kinds hd).1, (pause_kinds hd).2]
        cases hkind : event.press with
        | true => exact .inl rfl
        | false =>
          refine .inr ⟨rfl, ht events event [] rfl ?_⟩
          rw [(pause_kinds hd).2, hkind]
          rfl
      rw [hdrop, if_neg Bool.false_ne_true, List.append_nil]
      refine ⟨hpassed, fun k hk => ?_⟩
      rw [hsame k hk, isDown_key, if_neg fun h => hk (h.symm.trans hd)]
    · have hpass : passes events event = true := by
        by_contra hf
        rw [Bool.not_eq_true, passes_eq_false, (not_pause hd).1, (not_pause hd).2] at hf
        simp at hf
      rw [if_pos hpass, alternates_snoc]
      refine ⟨⟨hpassed, fun hp => ?_, fun hr => ?_⟩, fun k hk => ?_⟩
      · exact (hsame _ hd).trans (hfits.1 hp)
      · exact (hsame _ hd).trans (hfits.2 hr)
      · rw [isDown_key, isDown_key, hsame k hk]

/-- **The filter keeps keys balanced** if each release of Pause comes less than 30 ms after the
press, with no event between, and only then.  (With events between it has to come before 30.) -/
theorem passed_alternates_iff (hA : Alternates (xorgEnvironment mouseKeys) events) :
    Alternates (xorgEnvironment mouseKeys) (passed events) ↔
      ∀ before event after, events = before ++ event :: after → pauseReleased event = true →
        event.time - precedingPressTime before < minimumDuration := by
  have hheld : ∀ before event after, events = before ++ event :: after →
      pauseReleased event = true → (HotKeys.after before).configMode = true ∧
        (HotKeys.after before).lastPressTime = precedingPressTime before := by
    rintro before event after rfl hr
    obtain ⟨hbefore, hfits⟩ := alternates_split hA
    obtain ⟨hmode, -, htime⟩ := (inTurn_after hbefore).held (hfits.pause_down hr)
    exact ⟨hmode, htime⟩
  constructor
  · rintro h before event after rfl hr
    rw [← (hheld before event after rfl hr).2]
    exact (tolerated_of_alternates h hr).2
  · intro h
    refine (alternates_of_tolerated hA fun before event after he hr => ?_).1
    obtain ⟨hmode, htime⟩ := hheld before event after he hr
    exact ⟨hmode, htime ▸ h before event after he hr⟩

/-- a keyboard that releases Pause at once, and then a key -/
def tapped : List KeyEvent :=
  [⟨true, pauseKey, 1000⟩, ⟨false, pauseKey, 1005⟩, ⟨true, 38, 1200⟩, ⟨false, 38, 1300⟩]

theorem passed_alternates_tapped : Alternates (xorgEnvironment false) (passed tapped) ↔
    ∀ before event after, tapped = before ++ event :: after → pauseReleased event = true →
      event.time - precedingPressTime before < minimumDuration :=
  passed_alternates_iff (by decide)

/-- Pause is held for 100 ms: its press is taken away, and its release is passed on. -/
theorem pause_unbalanced :
    let events : List KeyEvent := [⟨true, pauseKey, 1000⟩, ⟨false, pauseKey, 1100⟩]
    Alternates (xorgEnvironment false) events ∧ passed events = [⟨false, pauseKey, 1100⟩] ∧
      ¬Alternates (xorgEnvironment false) (passed events) := by
  decide

end ForkNS
