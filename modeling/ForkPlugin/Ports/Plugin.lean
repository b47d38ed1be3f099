import ForkPlugin.Machine.Orderly
import ForkPlugin.Ports.HotKeys
import ForkPlugin.Ports.Request
import ForkPlugin.Runs.Wakeup
import ForkPlugin.Runs.Wrap

/-!
# The plugin in the pipeline of the X server

The server calls the plugin with events, times and notifications; the plugin filters its hot keys,
calls the machine, and sets its `wakeup_time` when the machine returns.  What the machine relays
goes to the next plugin of the pipeline.

* `InternalEvent`       an event of any type;
* `NextPlugin`          what the plugin reads of the next one: it may change whenever that is called;
* `Serving`, `Plugin`   the entry point that is running, and the plugin;
* `firstNonZero`, `setWakeupTime`, `forkProcessEvent`, `stepInTime`, `forkThawNotify`, `mouseCallBack`
                        the entry points, up to the call of the machine, and after it (`finish`);
* `Plugin.step`         one entry point at a time;
* `plugin_conserves`    whatever is reconfigured in between, the next plugin gets the passed key
                        events in order, with at most another keycode, and never while it is frozen;
* `plugin_wakes`        where each thaw is notified onwards, `wakeup_time` is the deadline.

Logs and the dumps of the last events are left out, and so are the stop and the end of the plugin.
-/

namespace ForkNS

open Runs Machine
open scoped Fin.NatCast

instance neZero32 : NeZero (2 ^ 32) := ⟨by decide⟩

/-! ## events -/

/-- `event->any.type` -/
inductive EventType where
  | keyPress
  | keyRelease
  | motion
  | other (type : Nat)
deriving DecidableEq, Repr

structure InternalEvent where
  type : EventType
  detail : Keycode
  time : UInt32
deriving DecidableEq, Repr

/-- `ET_KeyPress` and `ET_KeyRelease` -/
def InternalEvent.key? (event : InternalEvent) : Option KeyEvent :=
  match event.type with
  | .keyPress => some ⟨true, event.detail, event.time⟩
  | .keyRelease => some ⟨false, event.detail, event.time⟩
  | _ => none

/-- the events of the server, with times that are ordered and added modulo 2^32 -/
def xorgEnvironment32 (mouseKeys : Bool) : Environment KeyEvent Time32 where
  pressP := (xorgEnvironment mouseKeys).pressP
  releaseP := (xorgEnvironment mouseKeys).releaseP
  timeOf event := ((xorgEnvironment mouseKeys).timeOf event).toFin
  detailOf := (xorgEnvironment mouseKeys).detailOf
  ignoreEvent := (xorgEnvironment mouseKeys).ignoreEvent
  rewriteEvent := (xorgEnvironment mouseKeys).rewriteEvent

/-- `MAX_KEYCODE` is 256, and `mLock` is a `std::mutex` -/
def xorgSetup (mouseKeys : Bool) (settings : Settings Time32) : Setup KeyEvent Time32 where
  env := xorgEnvironment32 mouseKeys
  config := settings.config
  maxKeycode := 256
  stdLibrary := true

/-! ## the plugin -/

/-- `plugin->next` -/
structure NextPlugin where
  frozen : Bool
  wakeupTime : Time32
deriving DecidableEq, Repr

/-- the entry point that called the machine, and has not returned -/
inductive Serving where
  | nothing
  | processEvent
  | processTime
  | notifyThaw (now : Time32)
  | deviceEvent
deriving DecidableEq, Repr

def Serving.thaws : Serving → Bool
  | .notifyThaw _ => true
  | _ => false

/-- `prevNotified`: `PluginClass(plugin->prev)->NotifyThaw`; `freed` are the events that were freed,
`thawed` the times of the notifications that went upwards -/
structure Plugin where
  sys : Sys (Triqueue KeyEvent) KeyEvent Time32
  settings : Settings Time32
  hotKeys : HotKeys
  wakeupTime : Time32
  next : NextPlugin
  prevNotified : Bool
  serving : Serving
  freed : List InternalEvent
  thawed : List Time32

def firstNonZero (a b : Time32) : Time32 := if a = 0 then b else a

/-- what the last call of the machine returned -/
def lastReturned (trace : List (Obs KeyEvent Time32)) : Time32 :=
  (returnedTimes trace).getLast?.getD 0

/-- what a hot key does -/
def Service.serve (settings : Settings Time32) : Service → Settings Time32
  | .dumpLastEvents => settings
  | .setDebug level => settings.setDebug level
  | .forkKeycode key value => settings.withConfig { settings.config with
      forkKeycode := Function.update settings.config.forkKeycode key value }

namespace Plugin

/-- `create_plugin`: the machine has the capacity `c` -/
def create (settings : Settings Time32) (next : NextPlugin) (prevNotified : Bool) (c : ℕ) :
    Plugin where
  sys := Sys.create (Triqueue.create c)
  settings := settings
  hotKeys := {}
  wakeupTime := 0
  next := next
  prevNotified := prevNotified
  serving := .nothing
  freed := []
  thawed := []

def setWakeupTime (p : Plugin) (machineTime : Time32) : Plugin :=
  { p with wakeupTime := firstNonZero machineTime p.next.wakeupTime }

variable (mouseKeys : Bool)

/-- the call of the machine by an entry point -/
def callMachine (p : Plugin) (serving : Serving) (c : Call KeyEvent Time32) : Plugin :=
  { p with
    serving := serving
    sys := p.sys.apply (enter (xorgSetup mouseKeys p.settings) p.sys.machine c) }

/-- the event is freed by its owner, here or before the machine is called -/
def exitFree (p : Plugin) (event : InternalEvent) (owner : Bool) : Plugin :=
  if owner then { p with freed := p.freed ++ [event] } else p

/-- after `filter_config_key_maybe` -/
def filtered (p : Plugin) (key : KeyEvent) : Plugin :=
  { p with
    hotKeys := (filterConfigKeyMaybe p.hotKeys key).state
    settings := (filterConfigKeyMaybe p.hotKeys key).services.foldl Service.serve p.settings }

def forkProcessEvent (p : Plugin) (event : InternalEvent) (owner : Bool) : Plugin :=
  match event.key? with
  | none => p.exitFree event owner
  | some key =>
    if (filterConfigKeyMaybe p.hotKeys key).result then (p.filtered key).exitFree event owner
    else ((p.filtered key).exitFree event owner).callMachine mouseKeys .processEvent
      (.acceptEvent key)

def stepInTime (p : Plugin) (now : Time32) : Plugin :=
  p.callMachine mouseKeys .processTime (.acceptTime now)

def forkThawNotify (p : Plugin) (now : Time32) : Plugin :=
  p.callMachine mouseKeys (.notifyThaw now) (.acceptTime now)

/-- with `FORCE_BY_MOUSE` -/
def mouseCallBack (p : Plugin) (event : InternalEvent) : Plugin :=
  if event.type = .motion then p.callMachine mouseKeys .deviceEvent .acceptConfirmation else p

/-- the rest of the entry point, when the machine has returned -/
def finish (p : Plugin) : Plugin :=
  let next := lastReturned p.sys.trace
  match p.serving with
  | .nothing | .deviceEvent => { p with serving := .nothing }
  | .processEvent | .processTime => { p.setWakeupTime next with serving := .nothing }
  | .notifyThaw now =>
    if !p.next.frozen && p.prevNotified then
      { p.setWakeupTime next with serving := .nothing, thawed := p.thawed ++ [now] }
    else { p with serving := .nothing }

end Plugin

/-- `tick`: one step of the machine, with the next plugin as it is left if the step calls it;
`nextPlugin`: it changes between two entry points -/
inductive PluginAct where
  | processEvent (event : InternalEvent) (owner : Bool)
  | processTime (now : Time32)
  | notifyThaw (now : Time32)
  | deviceEvent (event : InternalEvent)
  | config (values : Nat → Int)
  | nextPlugin (next : NextPlugin)
  | tick (next : NextPlugin)
  | finish

namespace Plugin

/-- an entry point is called when none is running -/
def step (mouseKeys : Bool) (port : Port Time32) (p : Plugin) : PluginAct → Option Plugin
  | .tick next =>
    (p.sys.step (xorgSetup mouseKeys p.settings) (.tick p.next.frozen)).map fun sys =>
      { p with sys := sys, next := if p.sys.control.outside then next else p.next }
  | .finish =>
    if p.serving ≠ .nothing ∧ p.sys.control = .idle then some p.finish else none
  | act =>
    if p.serving = .nothing then
      match act with
      | .processEvent event owner => some (p.forkProcessEvent mouseKeys event owner)
      | .processTime now => some (p.stepInTime mouseKeys now)
      | .notifyThaw now => some (p.forkThawNotify mouseKeys now)
      | .deviceEvent event => some (p.mouseCallBack mouseKeys event)
      | .config values => some { p with
          settings := match machineConfigure values with
            | some request => (request.reply port p.settings).settings
            | none => p.settings }
      | .nextPlugin next => some { p with next := next }
      | _ => none
    else none

/-! ## what a step does -/

variable {mouseKeys : Bool} {port : Port Time32}

/-- one constructor for each way through an entry point -/
inductive Steps (mouseKeys : Bool) (p : Plugin) : PluginAct → Plugin → Prop
  | skip (event : InternalEvent) (owner : Bool) (hs : p.serving = .nothing)
      (hk : event.key? = none) :
      Steps mouseKeys p (.processEvent event owner) (p.exitFree event owner)
  | hot (event : InternalEvent) (owner : Bool) (key : KeyEvent) (hs : p.serving = .nothing)
      (hk : event.key? = some key) (hr : (filterConfigKeyMaybe p.hotKeys key).result = true) :
      Steps mouseKeys p (.processEvent event owner) ((p.filtered key).exitFree event owner)
  | pass (event : InternalEvent) (owner : Bool) (key : KeyEvent) (hs : p.serving = .nothing)
      (hk : event.key? = some key) (hr : (filterConfigKeyMaybe p.hotKeys key).result = false) :
      Steps mouseKeys p (.processEvent event owner)
        (((p.filtered key).exitFree event owner).callMachine mouseKeys .processEvent
          (.acceptEvent key))
  | time (now : Time32) (hs : p.serving = .nothing) : Steps mouseKeys p (.processTime now)
      (p.callMachine mouseKeys .processTime (.acceptTime now))
  | thaw (now : Time32) (hs : p.serving = .nothing) : Steps mouseKeys p (.notifyThaw now)
      (p.callMachine mouseKeys (.notifyThaw now) (.acceptTime now))
  | motion (event : InternalEvent) (hs : p.serving = .nothing) :
      Steps mouseKeys p (.deviceEvent event)
        (p.callMachine mouseKeys .deviceEvent .acceptConfirmation)
  | device (event : InternalEvent) (hs : p.serving = .nothing) :
      Steps mouseKeys p (.deviceEvent event) p
  | config (values : Nat → Int) (settings : Settings Time32) (hs : p.serving = .nothing) :
      Steps mouseKeys p (.config values) { p with settings := settings }
  | nextPlugin (next : NextPlugin) (hs : p.serving = .nothing) :
      Steps mouseKeys p (.nextPlugin next) { p with next := next }
  | tick (next : NextPlugin) (sys : Sys (Triqueue KeyEvent) KeyEvent Time32)
      (h : p.sys.step (xorgSetup mouseKeys p.settings) (.tick p.next.frozen) = some sys) :
      Steps mouseKeys p (.tick next)
        { p with sys := sys, next := if p.sys.control.outside then next else p.next }
  | finish (hs : p.serving ≠ .nothing) (hidle : p.sys.control = .idle) :
      Steps mouseKeys p .finish p.finish

theorem step_steps {p p' : Plugin} {a : PluginAct} (h : step mouseKeys port p a = some p') :
    Steps mouseKeys p a p' := by
  cases a with
  | tick next =>
    obtain ⟨sys, hsys, rfl⟩ := Option.map_eq_some_iff.mp h
    exact .tick next sys hsys
  | finish =>
    obtain ⟨⟨hs, hidle⟩, h⟩ := Option.ite_none_right_eq_some.mp h
    cases h
    exact .finish hs hidle
  | processEvent event owner =>
    obtain ⟨hs, h⟩ := Option.ite_none_right_eq_some.mp h
    cases h
    rw [forkProcessEvent]
    split
    · exact .skip event owner hs ‹_›
    · split_ifs with hr
      · exact .hot event owner _ hs ‹_› hr
      · exact .pass event owner _ hs ‹_› (Bool.not_eq_true _ ▸ hr)
  | processTime now =>
    obtain ⟨hs, h⟩ := Option.ite_none_right_eq_some.mp h
    cases h
    exact .time now hs
  | notifyThaw now =>
    obtain ⟨hs, h⟩ := Option.ite_none_right_eq_some.mp h
    cases h
    exact .thaw now hs
  | deviceEvent event =>
    obtain ⟨hs, h⟩ := Option.ite_none_right_eq_some.mp h
    cases h
    rw [mouseCallBack]
    split_ifs
    · exact .motion event hs
    · exact .device event hs
  | config values =>
    obtain ⟨hs, h⟩ := Option.ite_none_right_eq_some.mp h
    cases h
    exact .config values _ hs
  | nextPlugin next =>
    obtain ⟨hs, h⟩ := Option.ite_none_right_eq_some.mp h
    cases h
    exact .nextPlugin next hs

end Plugin

/-! ## every event is accounted for -/

/-- the key events that the plugin read -/
def keysOf (acts : List PluginAct) : List KeyEvent :=
  acts.filterMap fun
    | .processEvent event _ => event.key?
    | _ => none

/-- the events that it owned -/
def owned (acts : List PluginAct) : List InternalEvent :=
  acts.filterMap fun
    | .processEvent event true => some event
    | _ => none

def releasesOf (keys : List KeyEvent) : List KeyEvent := keys.filter fun key => !key.press

section
variable {mouseKeys : Bool} {port : Port Time32} {c : ℕ} {acts : List PluginAct} {p p' : Plugin}
  {a : PluginAct}

theorem keysOf_snoc (acts : List PluginAct) (a : PluginAct) :
    keysOf (acts ++ [a]) = keysOf acts ++ keysOf [a] := List.filterMap_append

theorem owned_snoc (acts : List PluginAct) (a : PluginAct) :
    owned (acts ++ [a]) = owned acts ++ owned [a] := List.filterMap_append

theorem keysOf_event (event : InternalEvent) (owner : Bool) :
    keysOf [.processEvent event owner] = event.key?.toList := by
  cases h : event.key? <;> simp [keysOf, h]

theorem releasesOf_append (xs ys : List KeyEvent) :
    releasesOf (xs ++ ys) = releasesOf xs ++ releasesOf ys := List.filter_append _ _

theorem exitFree_freed (p : Plugin) (event : InternalEvent) (owner : Bool) :
    (p.exitFree event owner).freed = p.freed ++ owned [.processEvent event owner] := by
  cases owner with
  | true => rfl
  | false => exact (List.append_nil _).symm

/-- only `freed` changes -/
theorem exitFree_eq (p : Plugin) (event : InternalEvent) (owner : Bool) :
    p.exitFree event owner =
      { p with freed := p.freed ++ owned [.processEvent event owner] } := by
  rw [← exitFree_freed]
  cases owner <;> rfl

/-- the machine has room for what the step brings -/
def Plugin.Fits (mouseKeys : Bool) (port : Port Time32) (c : ℕ) (p : Plugin)
    (a : PluginAct) : Prop :=
  ∀ p' ∈ p.step mouseKeys port a, p'.sys.machine.tq.buffer.contentsSize ≤ c

instance Plugin.decidableFits : Decidable (p.Fits mouseKeys port c a) :=
  inferInstanceAs (Decidable (∀ p' ∈ _, _))

/-- a key in range is pushed, unless it is pressed again while it is forked -/
theorem accept_pushes (mouseKeys : Bool) (settings : Settings Time32)
    (m : Machine (Triqueue KeyEvent) Time32) {key : KeyEvent} (hk : key.detail ≤ 256) :
    (enter (xorgSetup mouseKeys settings) m (.acceptEvent key)).pushed = [key] ∨
      (enter (xorgSetup mouseKeys settings) m (.acceptEvent key)).pushed = [] ∧
        key.press = true := by
  have hmax : ¬(xorgSetup mouseKeys settings).env.detailOf key
    > (xorgSetup mouseKeys settings).maxKeycode := not_lt.mpr hk
  simp only [enter, acceptEvent, if_neg hmax]
  split_ifs with hf
  · exact .inr ⟨rfl, ((Bool.and_eq_true _ _).mp hf).1⟩
  · exact .inl rfl

/-- what holds after every step -/
structure Accounts (mouseKeys : Bool) (c : ℕ) (acts : List PluginAct) (p : Plugin) : Prop where
  hotKeys : p.hotKeys = .after (keysOf acts)
  freed : p.freed = owned acts
  idle : p.serving = .nothing → p.sys.control = .idle
  delivers : p.sys.Delivers (xorgEnvironment32 mouseKeys) c
  pushed : p.sys.pushed.Sublist (passed (keysOf acts))
  releases : releasesOf p.sys.pushed = releasesOf (passed (keysOf acts))
  unfrozen : p.sys.control.inHand ≠ [] → p.next.frozen = false

theorem accounts_create {settings : Settings Time32} {next : NextPlugin} {prevNotified : Bool}
    (hc : 2 ≤ c) :
    Accounts mouseKeys c [] (Plugin.create settings next prevNotified c) where
  hotKeys := rfl
  freed := rfl
  idle _ := rfl
  delivers := .create hc
  pushed := .slnil
  releases := rfl
  unfrozen h := absurd rfl h

/-- a step that reads no event, and leaves the machine alone -/
theorem Accounts.same (h : Accounts mouseKeys c acts p) (hkeys : keysOf [a] = [])
    (howned : owned [a] = []) (hhot : p'.hotKeys = p.hotKeys) (hfreed : p'.freed = p.freed)
    (hsys : p'.sys = p.sys) (hidle : p.sys.control = .idle) :
    Accounts mouseKeys c (acts ++ [a]) p' := by
  have hk : keysOf (acts ++ [a]) = keysOf acts := by rw [keysOf_snoc, hkeys, List.append_nil]
  have ho : owned (acts ++ [a]) = owned acts := by rw [owned_snoc, howned, List.append_nil]
  refine ⟨?_, ?_, ?_, ?_, ?_, ?_, ?_⟩
  · rw [hk, hhot, h.hotKeys]
  · rw [ho, hfreed, h.freed]
  · exact fun _ => hsys ▸ hidle
  · exact hsys ▸ h.delivers
  · rw [hk, hsys]
    exact h.pushed
  · rw [hk, hsys]
    exact h.releases
  · rw [hsys, hidle]
    exact fun hn => absurd rfl hn

/-- the machine is called with no event -/
theorem Accounts.call (h : Accounts mouseKeys c acts p) (hkeys : keysOf [a] = [])
    (howned : owned [a] = []) (hidle : p.sys.control = .idle) {serving : Serving}
    {call : Call KeyEvent Time32} (hs : serving ≠ .nothing) (hcall : ∀ e, call ≠ .acceptEvent e)
    (hfit : (p.callMachine mouseKeys serving call).sys.machine.tq.buffer.contentsSize ≤ c) :
    Accounts mouseKeys c (acts ++ [a]) (p.callMachine mouseKeys serving call) := by
  have hk : keysOf (acts ++ [a]) = keysOf acts := by rw [keysOf_snoc, hkeys, List.append_nil]
  have ho : owned (acts ++ [a]) = owned acts := by rw [owned_snoc, howned, List.append_nil]
  have hpushed : (p.callMachine mouseKeys serving call).sys.pushed = p.sys.pushed := by
    have hnone : (enter (xorgSetup mouseKeys p.settings) p.sys.machine call).pushed = [] := by
      cases call with
      | acceptEvent e => exact absurd rfl (hcall e)
      | acceptTime now =>
        simp only [enter, acceptTime]
        split_ifs <;> rfl
      | acceptConfirmation => rfl
    exact (congrArg _ hnone).trans (List.append_nil _)
  refine ⟨hk ▸ h.hotKeys, ho ▸ h.freed, fun hn => absurd hn hs, ?_, ?_, ?_, ?_⟩
  · exact Sys.Delivers.enter (S := xorgSetup mouseKeys p.settings) h.delivers hidle hfit
  · rw [hk, hpushed]
    exact h.pushed
  · rw [hk, hpushed]
    exact h.releases
  · exact fun hn => absurd (enter_quiet call).2 hn

/-- a key event that is taken away -/
theorem Accounts.hot (h : Accounts mouseKeys c acts p) {event : InternalEvent} {owner : Bool}
    {key : KeyEvent} (hidle : p.sys.control = .idle) (hk : event.key? = some key)
    (hr : (filterConfigKeyMaybe p.hotKeys key).result = true) :
    Accounts mouseKeys c (acts ++ [.processEvent event owner])
      ((p.filtered key).exitFree event owner) := by
  have hkeys : keysOf (acts ++ [.processEvent event owner]) = keysOf acts ++ [key] := by
    rw [keysOf_snoc, keysOf_event, hk, Option.toList_some]
  have hpass : passed (keysOf acts ++ [key]) = passed (keysOf acts) := by
    rw [passed_snoc, passes, ← h.hotKeys, hr]
    exact List.append_nil _
  rw [exitFree_eq]
  refine ⟨?_, ?_, fun _ => hidle, h.delivers, ?_, ?_, ?_⟩
  · rw [hkeys, HotKeys.after_snoc, ← h.hotKeys]
    rfl
  · rw [owned_snoc, ← h.freed]
    rfl
  · rw [hkeys, hpass]
    exact h.pushed
  · rw [hkeys, hpass]
    exact h.releases
  · exact fun hn => absurd (congrArg Control.inHand hidle) hn

/-- a key event that is passed on -/
theorem Accounts.pass (h : Accounts mouseKeys c acts p) {event : InternalEvent} {owner : Bool}
    {key : KeyEvent} (hidle : p.sys.control = .idle) (hk : event.key? = some key)
    (hrange : key.detail ≤ 256) (hr : (filterConfigKeyMaybe p.hotKeys key).result = false)
    (hfit : (((p.filtered key).exitFree event owner).callMachine mouseKeys .processEvent
      (.acceptEvent key)).sys.machine.tq.buffer.contentsSize ≤ c) :
    Accounts mouseKeys c (acts ++ [.processEvent event owner])
      (((p.filtered key).exitFree event owner).callMachine mouseKeys .processEvent
        (.acceptEvent key)) := by
  have hkeys : keysOf (acts ++ [.processEvent event owner]) = keysOf acts ++ [key] := by
    rw [keysOf_snoc, keysOf_event, hk, Option.toList_some]
  have hpass : passed (keysOf acts ++ [key]) = passed (keysOf acts) ++ [key] := by
    rw [passed_snoc, passes, ← h.hotKeys, hr]
    rfl
  rw [exitFree_eq] at hfit ⊢
  have hpushes := accept_pushes mouseKeys (p.filtered key).settings p.sys.machine hrange
  refine ⟨?_, ?_, fun hn => absurd hn (by simp [Plugin.callMachine]), ?_, ?_, ?_, ?_⟩
  · rw [hkeys, HotKeys.after_snoc, ← h.hotKeys]
    rfl
  · rw [owned_snoc, ← h.freed]
    rfl
  · exact Sys.Delivers.enter (S := xorgSetup mouseKeys (p.filtered key).settings) h.delivers
      hidle hfit
  · rw [hkeys, hpass]
    refine h.pushed.append ?_
    rcases hpushes with hp | ⟨hp, -⟩
    · exact hp ▸ .refl _
    · exact hp ▸ List.nil_sublist _
  · rw [hkeys, hpass, releasesOf_append, ← h.releases]
    refine (releasesOf_append _ _).trans (congrArg _ ?_)
    rcases hpushes with hp | ⟨hp, hpress⟩
    · exact congrArg releasesOf hp
    · exact (congrArg releasesOf hp).trans (by simp [releasesOf, hpress])
  · exact fun hn => absurd (enter_quiet (.acceptEvent key)).2 hn

/-- one step of the machine -/
theorem Accounts.tick (h : Accounts mouseKeys c acts p) {next : NextPlugin}
    {sys : Sys (Triqueue KeyEvent) KeyEvent Time32}
    (hs : p.sys.step (xorgSetup mouseKeys p.settings) (.tick p.next.frozen) = some sys) :
    Accounts mouseKeys c (acts ++ [.tick next])
      { p with sys := sys, next := if p.sys.control.outside then next else p.next } := by
  obtain ⟨x, hx, rfl⟩ := Sys.step_tick hs
  have hrunning : p.serving ≠ .nothing := fun hn => by
    rw [h.idle hn] at hx
    cases hx
  have hpushed : (p.sys.apply x).pushed = p.sys.pushed := by
    rw [Sys.apply, tick_pushed hx, List.append_nil]
  have hkeys : keysOf (acts ++ [.tick next]) = keysOf acts := by
    rw [keysOf_snoc]
    exact List.append_nil _
  have howned : owned (acts ++ [.tick next]) = owned acts := by
    rw [owned_snoc]
    exact List.append_nil _
  refine ⟨hkeys ▸ h.hotKeys, howned ▸ h.freed, fun hn => absurd hn hrunning, ?_, ?_, ?_, ?_⟩
  · exact Sys.Delivers.tick (S := xorgSetup mouseKeys p.settings) h.delivers hs
  · rw [hkeys, hpushed]
    exact h.pushed
  · rw [hkeys, hpushed]
    exact h.releases
  · intro hhand
    -- the step that takes an event has asked, and calls nothing outside
    have hhands := tick_hands hx
    cases hout : p.sys.control.outside with
    | true => exact absurd (tick_outside hx hout) hhand
    | false =>
      have hempty : p.sys.control.inHand = [] := by
        generalize p.sys.control = k at hout
        cases k <;> first | rfl | cases hout
      have htaken : p.sys.control.taken x.control ≠ [] := by
        intro ht
        rw [hempty, ht] at hhands
        exact hhand (List.append_eq_nil_iff.mp hhands).2
      exact (tick_takes hx htaken).2.1

theorem Accounts.finish (h : Accounts mouseKeys c acts p) (hidle : p.sys.control = .idle) :
    Accounts mouseKeys c (acts ++ [.finish]) p.finish := by
  unfold Plugin.finish
  split
  · exact h.same rfl rfl rfl rfl rfl hidle
  · exact h.same rfl rfl rfl rfl rfl hidle
  · exact h.same rfl rfl rfl rfl rfl hidle
  · exact h.same rfl rfl rfl rfl rfl hidle
  · split_ifs
    · exact h.same rfl rfl rfl rfl rfl hidle
    · exact h.same rfl rfl rfl rfl rfl hidle

theorem Accounts.steps (h : Accounts mouseKeys c acts p) (hs : p.Steps mouseKeys a p')
    (hrange : ∀ key ∈ keysOf [a], key.detail ≤ 256)
    (hfit : p'.sys.machine.tq.buffer.contentsSize ≤ c) :
    Accounts mouseKeys c (acts ++ [a]) p' := by
  cases hs with
  | skip event owner hs hk =>
    have hidle := h.idle hs
    have hkeys : keysOf (acts ++ [.processEvent event owner]) = keysOf acts := by
      rw [keysOf_snoc, keysOf_event, hk, Option.toList_none, List.append_nil]
    rw [exitFree_eq]
    refine ⟨hkeys ▸ h.hotKeys, ?_, fun _ => hidle, h.delivers, hkeys ▸ h.pushed,
      hkeys ▸ h.releases, h.unfrozen⟩
    rw [owned_snoc, ← h.freed]
  | hot event owner key hs hk hr => exact h.hot (h.idle hs) hk hr
  | pass event owner key hs hk hr =>
    refine h.pass (h.idle hs) hk (hrange key ?_) hr hfit
    rw [keysOf_event, hk]
    exact List.mem_singleton_self key
  | time now hs =>
    exact h.call rfl rfl (h.idle hs) (by simp) (fun _ he => by cases he) hfit
  | thaw now hs =>
    exact h.call rfl rfl (h.idle hs) (by simp) (fun _ he => by cases he) hfit
  | motion event hs =>
    exact h.call rfl rfl (h.idle hs) (by simp) (fun _ he => by cases he) hfit
  | device event hs => exact h.same rfl rfl rfl rfl rfl (h.idle hs)
  | config values settings hs => exact h.same rfl rfl rfl rfl rfl (h.idle hs)
  | nextPlugin next hs => exact h.same rfl rfl rfl rfl rfl (h.idle hs)
  | tick next sys hs => exact h.tick hs
  | finish hs hidle => exact h.finish hidle

theorem accounts_run {settings : Settings Time32} {next : NextPlugin} {prevNotified : Bool}
    (hc : 2 ≤ c) (hrange : ∀ key ∈ keysOf acts, key.detail ≤ 256)
    (hfit : EachStep (Plugin.step mouseKeys port) (.create settings next prevNotified c)
      (Plugin.Fits mouseKeys port c) acts)
    (h : runs (Plugin.step mouseKeys port) (.create settings next prevNotified c) acts = some p) :
    Accounts mouseKeys c acts p := by
  refine runs_each (R := fun acts p => (∀ key ∈ keysOf acts, key.detail ≤ 256) →
    Accounts mouseKeys c acts p) (fun _ => accounts_create hc) ?_ hfit h hrange
  intro acts p a p' _ ih hfits hstep hrange
  rw [keysOf_snoc] at hrange
  exact (ih fun key hk => hrange key (List.mem_append_left _ hk)).steps
    (Plugin.step_steps hstep) (fun key hk => hrange key (List.mem_append_right _ hk))
    (hfits p' hstep)

/-- a rewritten event has another keycode at most -/
theorem rewritten_key {e r : KeyEvent} (h : Rewritten (xorgEnvironment32 mouseKeys) e r) :
    r.press = e.press ∧ r.time = e.time := by
  rcases h with rfl | ⟨code, rfl⟩ <;> exact ⟨rfl, rfl⟩

end

/-! ## two runs -/

/-- `KeyCode` has 8 bits, `Time` is unsigned -/
def serverPort : Port Time32 where
  keycodeOfInt := keyCodeOfInt
  timeOfInt value := Fin.ofNat _ (value % 2 ^ 32).toNat
  intOfTime time := if time.val < 2 ^ 31 then time.val else time.val - 2 ^ 32

/-- no key is forked yet -/
def plainSettings : Settings Time32 where
  config := {
    forkKeycode := fun _ => 0
    forkRepeatable := fun _ => false
    matrices := some {
      overlapTolerance := fun _ _ => 100
      verificationInterval := fun _ _ => 200 }
    repeatMax := 80
    considerForksForRepeat := true }
  clearInterval := 0
  debug := 1
  maxLast := 10

abbrev plugged : Plugin := .create plainSettings ⟨false, 0⟩ true 4

/-- key 38 is made to fork to 50, and then pressed -/
def suspectedRun : List PluginAct :=
  [.config (valuesOf [21, 38, 50]), .processEvent ⟨.keyPress, 38, 2000⟩ true]
    ++ List.replicate 7 (.tick ⟨false, 0⟩) ++ [.finish]

/-- the next plugin freezes when it gets key 30; key 38 is to wait -/
def blockedRun : List PluginAct :=
  [.config (valuesOf [21, 38, 50]), .processEvent ⟨.keyPress, 30, 2000⟩ true]
    ++ List.replicate 8 (.tick ⟨true, 0⟩) ++ [.finish, .processEvent ⟨.keyPress, 38, 2010⟩ false]
    ++ List.replicate 5 (.tick ⟨true, 0⟩) ++ [.finish]

section
variable {mouseKeys : Bool} {port : Port Time32} {c : ℕ} {acts : List PluginAct} {p p' : Plugin}
  {a : PluginAct}

/-! ## the wake-up time -/

/-- `wakeup_time` is the deadline, if there is one -/
def Plugin.Armed (p : Plugin) : Prop :=
  p.sys.machine.nextDecisionTime ≠ 0 → p.wakeupTime = p.sys.machine.nextDecisionTime

/-- the loop is not left yet -/
def deciding : Control KeyEvent Time32 → Bool
  | .runAutomaton _ | .automatonLoop _ => true
  | _ => false

/-- `accept_confirmation` is running: a deadline that stands is armed, or the loop takes it away -/
inductive Plugin.Confirming (p : Plugin) : Prop
  | loops (hf : p.next.frozen = false)
      (hc : p.sys.control = .runAutomaton true ∨ p.sys.control = .automatonLoop true)
  | blocked (hf : p.next.frozen = true) (hc : deciding p.sys.control = true) (ha : p.Armed)
  | left (hc : deciding p.sys.control = false) (ha : p.Armed)

/-- what holds after every step, where each thaw is notified onwards -/
structure Wakes (p : Plugin) : Prop where
  idle : p.serving = .nothing → p.sys.control = .idle ∧ p.Armed
  confirms : p.serving = .deviceEvent → p.Confirming
  returns : p.serving ≠ .nothing → p.serving ≠ .deviceEvent →
    ∃ old, Pending old p.sys ∨ Returned old p.sys

/-- a keycode in range, or a thaw that is notified upwards -/
def Plugin.Onward (p : Plugin) : PluginAct → Prop
  | .processEvent event _ => ∀ key ∈ event.key?, key.detail ≤ 256
  | .finish => p.serving.thaws = true → p.next.frozen = false ∧ p.prevNotified = true
  | _ => True

theorem popEventIfPresent_decision (m : Machine (Triqueue KeyEvent) Time32) :
    m.popEventIfPresent.2.nextDecisionTime = m.nextDecisionTime := by
  rw [popEventIfPresent]
  split_ifs with hpop
  · simp [Machine.pop, check, hpop, nextDecisionTime]
  · rfl

theorem pushTimeToNext_decision (S : Setup KeyEvent Time32)
    (m : Machine (Triqueue KeyEvent) Time32) :
    (m.pushTimeToNext S).2.nextDecisionTime = m.nextDecisionTime := by
  rw [pushTimeToNext]
  split <;> rfl

theorem deciding_afterAutomaton (f : Bool) : deciding (afterAutomaton f) = false := by
  cases f <;> rfl

/-- when the loop is left, the deadline stays -/
theorem left_tick {S : Setup KeyEvent Time32} {m : Machine (Triqueue KeyEvent) Time32}
    {frozen : Bool} {k : Control KeyEvent Time32} {x : Effect (Triqueue KeyEvent) KeyEvent Time32}
    (hx : ForkNS.tick S m frozen k = some x) (hk : deciding k = false) :
    deciding x.control = false ∧ x.machine.nextDecisionTime = m.nextDecisionTime := by
  cases tick_flow hx with
  | runAutomaton => cases hk
  | again => cases hk
  | done => cases hk
  | bodyFrozen => cases hk
  | pop f e m' hp =>
    have h := popEventIfPresent_decision m
    rw [hp] at h
    exact ⟨rfl, h⟩
  | popNone f m' hp =>
    have h := popEventIfPresent_decision m
    rw [hp] at h
    exact ⟨rfl, h⟩
  | popFrozen => exact ⟨rfl, rfl⟩
  | relay => exact ⟨rfl, rfl⟩
  | endTime f now m' hp =>
    have h := pushTimeToNext_decision S m
    rw [hp] at h
    exact ⟨rfl, h⟩
  | endNone f m' hp =>
    have h := pushTimeToNext_decision S m
    rw [hp] at h
    exact ⟨deciding_afterAutomaton f, h⟩
  | endFrozen f => exact ⟨deciding_afterAutomaton f, rfl⟩
  | pushTime _ f => exact ⟨deciding_afterAutomaton f, rfl⟩
  | nextDecisionTime => exact ⟨rfl, rfl⟩
  | relock => exact ⟨rfl, rfl⟩

/-- a loop that is left under `force_also` leaves no deadline -/
theorem done_normal {S : Setup KeyEvent Time32} {m m' : Machine (Triqueue KeyEvent) Time32}
    (h : m.automatonBody S true = (m', false)) : m'.nextDecisionTime = 0 := by
  cases automatonBody_iteration h with
  | done hi hd hs =>
    rw [nextDecisionTime_eq, if_pos]
    by_contra hn
    exact hs ⟨rfl, hn⟩

theorem Plugin.Confirming.tick (h : p.Confirming) {next : NextPlugin}
    {sys : Sys (Triqueue KeyEvent) KeyEvent Time32}
    (hs : p.sys.step (xorgSetup mouseKeys p.settings) (.tick p.next.frozen) = some sys) :
    Plugin.Confirming
      { p with sys := sys, next := if p.sys.control.outside then next else p.next } := by
  obtain ⟨x, hx, rfl⟩ := Sys.step_tick hs
  cases h with
  | left hc ha =>
    obtain ⟨hleft, hsame⟩ := left_tick hx hc
    refine .left hleft ?_
    intro hn
    exact (ha (hsame ▸ hn)).trans hsame.symm
  | blocked hf hc ha =>
    -- the loop is left as it was entered
    rw [hf] at hx
    generalize hk : p.sys.control = k at hx hc
    cases tick_flow hx with
    | runAutomaton f =>
      refine .blocked ?_ rfl ha
      simpa [hk, Control.outside] using hf
    | bodyFrozen f => exact .left rfl ha
    | _ => cases hc
  | loops hf hc =>
    rw [hf] at hx
    have hstay : (if p.sys.control.outside then next else p.next).frozen = false := by
      rcases hc with hc | hc <;> simpa [hc, Control.outside] using hf
    rcases hc with hc | hc
    · rw [hc] at hx
      cases tick_flow hx with
      | runAutomaton => exact .loops hstay (.inr rfl)
    · rw [hc] at hx
      cases tick_flow hx with
      | again => exact .loops hstay (.inr rfl)
      | done f m' hb =>
        refine .left rfl fun hn => absurd (done_normal hb) hn

/-- an entry point calls the machine, and waits for what it returns -/
theorem enter_pending {S : Setup KeyEvent Time32} {s : Sys (Triqueue KeyEvent) KeyEvent Time32}
    {call : Call KeyEvent Time32} (hcall : call ≠ .acceptConfirmation)
    (hrange : ∀ e, call = .acceptEvent e → S.env.detailOf e ≤ S.maxKeycode) :
    Pending (returnedTimes s.trace) (s.apply (enter S s.machine call)) := by
  cases call with
  | acceptEvent e =>
    have hmax : ¬S.env.detailOf e > S.maxKeycode := not_lt.mpr (hrange e rfl)
    simp only [enter, acceptEvent, if_neg hmax]
    split_ifs <;> exact ⟨by simp [Sys.apply], rfl, by simp [Sys.apply]⟩
  | acceptTime now =>
    simp only [enter, acceptTime]
    split_ifs <;> exact ⟨by simp [Sys.apply], rfl, by simp [Sys.apply]⟩
  | acceptConfirmation => exact absurd rfl hcall

/-- what it returned is armed -/
theorem armed_of_returned {old : List Time32} (h : Returned old p.sys) :
    (p.setWakeupTime (lastReturned p.sys.trace)).Armed := by
  intro hn
  have hlast : lastReturned p.sys.trace = p.sys.machine.nextDecisionTime := by
    rw [lastReturned, h.returned]
    simp
  show firstNonZero (lastReturned p.sys.trace) p.next.wakeupTime = _
  rw [hlast]
  exact if_neg hn

/-- between two entry points -/
theorem Wakes.quiet (h : Wakes p) {q : Plugin} (hs : p.serving = .nothing)
    (hserving : q.serving = p.serving) (hsys : q.sys = p.sys)
    (hwake : q.wakeupTime = p.wakeupTime) : Wakes q := by
  have hq := hserving.trans hs
  refine ⟨fun _ => ?_, fun hd => ?_, fun hd => absurd hq hd⟩
  · obtain ⟨hidle, ha⟩ := h.idle hs
    refine ⟨hsys ▸ hidle, ?_⟩
    rw [Plugin.Armed, hsys, hwake]
    exact ha
  · rw [hq] at hd
    cases hd

/-- an entry point that waits for a time -/
theorem wakes_pending {q : Plugin} (hn : q.serving ≠ .nothing) (hd : q.serving ≠ .deviceEvent)
    {old : List Time32} (hp : Pending old q.sys) : Wakes q where
  idle h := absurd h hn
  confirms h := absurd h hd
  returns _ _ := ⟨old, .inl hp⟩

/-- an entry point returns -/
theorem wakes_done {q : Plugin} (hq : q.serving = .nothing) (hidle : q.sys.control = .idle)
    (ha : q.Armed) : Wakes q := by
  refine ⟨fun _ => ⟨hidle, ha⟩, fun hd => ?_, fun hn => absurd hq hn⟩
  rw [hq] at hd
  cases hd

theorem Wakes.tick (h : Wakes p) {next : NextPlugin}
    {sys : Sys (Triqueue KeyEvent) KeyEvent Time32}
    (hs : p.sys.step (xorgSetup mouseKeys p.settings) (.tick p.next.frozen) = some sys) :
    Wakes { p with sys := sys, next := if p.sys.control.outside then next else p.next } := by
  have hrunning : p.sys.control ≠ .idle := fun hidle => by
    obtain ⟨x, hx, -⟩ := Sys.step_tick hs
    rw [hidle] at hx
    cases hx
  refine ⟨fun hn => absurd (h.idle hn).1 hrunning, fun hd => (h.confirms hd).tick hs,
    fun hn hd => ?_⟩
  obtain ⟨old, hp | hr⟩ := h.returns hn hd
  · exact ⟨old, hp.tick hs⟩
  · exact absurd hr.idle hrunning

theorem Wakes.finish (h : Wakes p) (hs : p.serving ≠ .nothing) (hidle : p.sys.control = .idle)
    (ho : p.Onward .finish) : Wakes p.finish := by
  have hreturn : p.serving ≠ .deviceEvent →
      (p.setWakeupTime (lastReturned p.sys.trace)).Armed := fun hd => by
    obtain ⟨old, hp | hr⟩ := h.returns hs hd
    · exact absurd hidle hp.running
    · exact armed_of_returned hr
  unfold Plugin.finish
  split
  · exact absurd ‹_› hs
  · refine wakes_done rfl hidle ?_
    cases h.confirms ‹_› with
    | loops _ hc => rcases hc with hc | hc <;> cases hidle.symm.trans hc
    | blocked _ hc =>
      rw [hidle] at hc
      cases hc
    | left _ ha => exact ha
  · exact wakes_done rfl hidle (hreturn (by simp [*]))
  · exact wakes_done rfl hidle (hreturn (by simp [*]))
  · have hon := ho (by simp [Serving.thaws, *])
    rw [if_pos (by simp [hon])]
    exact wakes_done rfl hidle (hreturn (by simp [*]))

theorem Wakes.steps (h : Wakes p) (hs : p.Steps mouseKeys a p') (ho : p.Onward a) : Wakes p' := by
  cases hs with
  | skip event owner hs hk =>
    rw [exitFree_eq]
    exact h.quiet hs rfl rfl rfl
  | hot event owner key hs hk hr =>
    rw [exitFree_eq]
    exact h.quiet hs rfl rfl rfl
  | pass event owner key hs hk hr =>
    refine wakes_pending (by simp [Plugin.callMachine]) (by simp [Plugin.callMachine])
      (enter_pending (by simp) fun e he => ?_)
    cases he
    exact ho key hk
  | time now hs =>
    exact wakes_pending (by simp [Plugin.callMachine]) (by simp [Plugin.callMachine])
      (enter_pending (by simp) (by simp))
  | thaw now hs =>
    exact wakes_pending (by simp [Plugin.callMachine]) (by simp [Plugin.callMachine])
      (enter_pending (by simp) (by simp))
  | motion event hs =>
    refine ⟨fun hn => absurd hn (by simp [Plugin.callMachine]), fun _ => ?_,
      fun _ hd => absurd rfl hd⟩
    cases hf : p.next.frozen with
    | false => exact .loops hf (.inl rfl)
    | true => exact .blocked hf rfl (h.idle hs).2
  | device event hs => exact h.quiet hs rfl rfl rfl
  | config values settings hs => exact h.quiet hs rfl rfl rfl
  | nextPlugin next hs => exact h.quiet hs rfl rfl rfl
  | tick next sys hs => exact h.tick hs
  | finish hs hidle => exact h.finish hs hidle ho

/-- **The plugin asks to be woken up in time**: whenever no entry point is running and a key is
suspected with a deadline, `wakeup_time` is that deadline, whatever was called before in whatever
order, as long as each thaw was notified onwards. -/
theorem plugin_wakes {settings : Settings Time32} {next : NextPlugin} {prevNotified : Bool}
    (ho : EachStep (Plugin.step mouseKeys port) (.create settings next prevNotified c)
      Plugin.Onward acts)
    (h : runs (Plugin.step mouseKeys port) (.create settings next prevNotified c) acts = some p)
    (hs : p.serving = .nothing) (hn : p.sys.machine.state ≠ .normal)
    (hd : p.sys.machine.mDecisionTime ≠ 0) : p.wakeupTime = p.sys.machine.mDecisionTime := by
  have hwakes : Wakes p := by
    refine runs_each (R := fun _ p => Wakes p) ?_ ?_ ho h
    · exact wakes_done rfl rfl fun hn => absurd rfl hn
    · exact fun _ u a v _ hu ho hstep => hu.steps (Plugin.step_steps hstep) ho
  have hdue : p.sys.machine.nextDecisionTime = p.sys.machine.mDecisionTime := by
    rw [nextDecisionTime_eq, if_neg hn]
  have harmed := (hwakes.idle hs).2
  rw [Plugin.Armed, hdue] at harmed
  exact harmed hd

end

instance Plugin.decidableOnward (p : Plugin) : (a : PluginAct) → Decidable (p.Onward a)
  | .processEvent event _ => inferInstanceAs (Decidable (∀ key ∈ event.key?, key.detail ≤ 256))
  | .finish => inferInstanceAs (Decidable (_ → _))
  | .processTime _ | .notifyThaw _ | .deviceEvent _ | .config _ | .nextPlugin _ | .tick _ =>
    inferInstanceAs (Decidable True)

theorem plugin_wakes_suspected : ∃ p,
    runs (Plugin.step false serverPort) plugged suspectedRun = some p ∧
    p.sys.machine.mDecisionTime = 2200 ∧ p.wakeupTime = p.sys.machine.mDecisionTime := by
  have hrun := Option.eq_some_of_isSome
    (o := runs (Plugin.step false serverPort) plugged suspectedRun) (by decide)
  exact ⟨_, hrun, by decide, plugin_wakes (by decide) hrun (by decide) (by decide) (by decide)⟩

end ForkNS
