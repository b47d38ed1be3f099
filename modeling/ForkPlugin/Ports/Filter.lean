import ForkPlugin.Machine.Orderly
import ForkPlugin.Ports.Driver
import ForkPlugin.Ports.Registry

/-!
# The keyboard filter of Windows

The port driver reports arrays of packets, the timer fires, and requests reconfigure the machine at
any moment.  What the machine relays goes up to the class driver as packets.

* `Callback`, `Filter`   the callback that is running, and the filter around its driver;
* `Filter.step`          one iteration of the callback, a firing of the timer, a step of the machine,
                         or a request;
* `Filter.passedUp`      the packets that the class driver got;
* `inRange`              a packet whose keycode the machine takes;
* `reported`             the packets that came from the port driver;
* `filter_conserves`     between two calls of the machine they were passed up, in order and but for
                         their make codes, except those under the suspected key.

The timer does not fire while the machine is called.
-/

namespace ForkNS

open Runs Machine

/-! ## the filter -/

/-- `KbFilter_ServiceCallback`: the packets from `event` on, and how many there were -/
structure Callback where
  rest : List KeyboardInputData
  count : ℕ
deriving DecidableEq, Repr

/-- `consumed`: what was stored in `*InputDataConsumed`, callback after callback -/
structure Filter where
  driver : Driver (Triqueue ExtendedEvent)
  settings : Settings ℤ
  callback : Option Callback
  consumed : List ℕ

/-- `acceptEvent` is an iteration, `serviceReturn` the end of the loop; what is not copied into the
`values` of a request is arbitrary -/
inductive FilterAct where
  | serviceCallback (packets : List KeyboardInputData)
  | acceptEvent (now : ℤ)
  | serviceReturn
  | wdfTimer (time : ℤ)
  | tick
  | setFork (values : Nat → Int)

namespace Filter

def create (settings : Settings ℤ) (c : ℕ) : Filter where
  driver := Driver.create (Triqueue.create c)
  settings := settings
  callback := none
  consumed := []

/-- the driver makes a step, under the configuration of the moment -/
def drive (s : Filter) (callback : Option Callback) (act : DriverAct) : Option Filter :=
  (s.driver.step s.settings.config act).map fun driver =>
    { s with driver := driver, callback := callback }

def step (s : Filter) : FilterAct → Option Filter
  | .serviceCallback packets =>
    match s.callback with
    | none => some { s with callback := some ⟨packets, packets.length⟩ }
    | some _ => none
  | .acceptEvent now =>
    match s.callback with
    | some ⟨packet :: rest, count⟩ =>
      s.drive (some ⟨rest, count⟩) (.call (.acceptEvent packet now))
    | _ => none
  | .serviceReturn =>
    match s.callback, s.driver.sys.control with
    | some ⟨[], count⟩, .idle =>
      some { s with callback := none, consumed := s.consumed ++ [ulongOfInt count] }
    | _, _ => none
  | .wdfTimer time => s.drive s.callback (.call (.acceptTime time))
  | .tick => s.drive s.callback .tick
  | .setFork values => some { s with settings := winConfigured s.settings values }

/-- `pass_event`, event after event -/
def passedUp (s : Filter) : List KeyboardInputData :=
  (relayed s.driver.sys.trace).map extendedEventToWin

/-- the packets that the callback did not come to -/
def rest (s : Filter) : List KeyboardInputData := (s.callback.map Callback.rest).getD []

end Filter

/-! ## the packets -/

/-- the machine takes its keycode -/
def inRange (packet : KeyboardInputData) : Bool :=
  (winEventToExtended packet 0).detailOf.toNat ≤ winMaxKeycode

/-- the flag `KEY_BREAK` -/
def isBreak (packet : KeyboardInputData) : Bool := packet.flags &&& keyBreak ≠ 0

def breaksOf (packets : List KeyboardInputData) : List KeyboardInputData := packets.filter isBreak

/-- the arrays that the port driver reported -/
def callbacksOf (acts : List FilterAct) : List (List KeyboardInputData) :=
  acts.filterMap fun
    | .serviceCallback packets => some packets
    | _ => none

def reported (acts : List FilterAct) : List KeyboardInputData := (callbacksOf acts).flatten

/-- every field but the make code -/
def SamePacket (p q : KeyboardInputData) : Prop := q = { p with makeCode := q.makeCode }

theorem samePacket_of_rewritten {e r : ExtendedEvent} (h : Rewritten winEnvironment e r) :
    SamePacket (extendedEventToWin e) (extendedEventToWin r) := by
  rcases h with rfl | ⟨code, rfl⟩ <;> rfl

theorem callbacksOf_snoc (acts : List FilterAct) (a : FilterAct) :
    callbacksOf (acts ++ [a]) = callbacksOf acts ++ callbacksOf [a] := List.filterMap_append

theorem reported_snoc (acts : List FilterAct) (a : FilterAct) :
    reported (acts ++ [a]) = reported acts ++ reported [a] := by
  rw [reported, callbacksOf_snoc, List.flatten_append]
  rfl

theorem breaksOf_append (xs ys : List KeyboardInputData) :
    breaksOf (xs ++ ys) = breaksOf xs ++ breaksOf ys := List.filter_append _ _

/-- a packet in range is pushed, unless its key is pressed again while it is forked -/
theorem packet_pushes (config : ForkConfiguration ℤ) (m : Machine (Triqueue ExtendedEvent) ℤ)
    (packet : KeyboardInputData) (now : ℤ) :
    let pushed := (enter (winSetup config) m
      (.acceptEvent (winEventToExtended packet now))).pushed.map extendedEventToWin
    pushed.Sublist ([packet].filter inRange) ∧
      breaksOf pushed = breaksOf ([packet].filter inRange) := by
  have hrange : inRange packet = true ↔ ¬(winSetup config).env.detailOf
      (winEventToExtended packet now) > (winSetup config).maxKeycode := by
    rw [inRange, decide_eq_true_eq, gt_iff_lt, not_lt]
    rfl
  simp only [enter, acceptEvent]
  by_cases hr : inRange packet = true
  · have hkept : [packet].filter inRange = [packet] := by simp [hr]
    rw [if_neg (hrange.mp hr), hkept]
    split_ifs with hf
    · refine ⟨List.nil_sublist _, ?_⟩
      -- it is pressed
      have hpress : packet.flags &&& keyBreak = 0 :=
        of_decide_eq_true ((Bool.and_eq_true _ _).mp hf).1
      simp [breaksOf, isBreak, hpress]
    · exact ⟨.refl _, rfl⟩
  · have hnone : [packet].filter inRange = [] := by simp [hr]
    rw [if_pos (not_not.mp fun h => hr (hrange.mpr h)), hnone]
    exact ⟨.refl _, rfl⟩

/-! ## the accounts -/

section
variable {c : ℕ} {acts : List FilterAct} {s s' : Filter} {a : FilterAct}

/-- the machine has room for what the step brings -/
def Filter.Fits (c : ℕ) (s : Filter) (a : FilterAct) : Prop :=
  ∀ s' ∈ s.step a, s'.driver.sys.machine.tq.buffer.contentsSize ≤ c

instance Filter.decidableFits : Decidable (s.Fits c a) := inferInstanceAs (Decidable (∀ s' ∈ _, _))

/-- what holds after every step; `taken` are the packets that the callbacks came to -/
structure Passes (c : ℕ) (acts : List FilterAct) (s : Filter) : Prop where
  drains : s.driver.sys.Drains winEnvironment c
  taken : ∃ taken, reported acts = taken ++ s.rest ∧
    (s.driver.sys.pushed.map extendedEventToWin).Sublist (taken.filter inRange) ∧
    breaksOf (s.driver.sys.pushed.map extendedEventToWin) = breaksOf (taken.filter inRange)
  consumed : s.consumed ++ (s.callback.map fun cb => ulongOfInt cb.count).toList
    = (callbacksOf acts).map fun packets => ulongOfInt packets.length

/-- a driver's call -/
theorem Driver.step_call {Q : Type} [TriqueueOps Q ExtendedEvent] {config : ForkConfiguration ℤ}
    {d d' : Driver Q} {call : DriverCall} (h : d.step config (.call call) = some d') :
    d.sys.control = .idle ∧
      d'.sys = d.sys.apply (enter (winSetup config) d.sys.machine call.call) := by
  cases hidle : d.sys.control with
  | idle =>
    simp only [Driver.step, hidle] at h
    exact ⟨rfl, by rw [← Option.some.inj h]; rfl⟩
  | _ => simp [Driver.step, hidle] at h

/-- a step of the machine under it -/
theorem Driver.step_tick {Q : Type} [TriqueueOps Q ExtendedEvent] {config : ForkConfiguration ℤ}
    {d d' : Driver Q} (h : d.step config .tick = some d') :
    d.sys.step (winSetup config) (.tick false) = some d'.sys := by
  obtain ⟨call, -, h⟩ := Option.bind_eq_some_iff.mp h
  obtain ⟨x, hx, rfl⟩ := Option.map_eq_some_iff.mp h
  exact Option.map_eq_some_iff.mpr ⟨x, hx, rfl⟩

/-- a step that reports nothing, and takes nothing -/
theorem Passes.same (h : Passes c acts s) (ha : callbacksOf [a] = [])
    (hdrains : s'.driver.sys.Drains winEnvironment c)
    (hpushed : s'.driver.sys.pushed = s.driver.sys.pushed) (hcallback : s'.callback = s.callback)
    (hconsumed : s'.consumed = s.consumed) : Passes c (acts ++ [a]) s' := by
  have hcb : callbacksOf (acts ++ [a]) = callbacksOf acts := by
    rw [callbacksOf_snoc, ha, List.append_nil]
  have hrest : s'.rest = s.rest := by rw [Filter.rest, hcallback, Filter.rest]
  refine ⟨hdrains, ?_, ?_⟩
  · rw [reported, hcb, hrest, hpushed]
    exact h.taken
  · rw [hcb, hconsumed, hcallback]
    exact h.consumed

/-- an iteration of the callback -/
theorem Passes.take (h : Passes c acts s) {packet : KeyboardInputData}
    {rest : List KeyboardInputData} {count : ℕ} {now : ℤ} {d : Driver (Triqueue ExtendedEvent)}
    (hcb : s.callback = some ⟨packet :: rest, count⟩)
    (hd : s.driver.step s.settings.config (.call (.acceptEvent packet now)) = some d)
    (hfit : d.sys.machine.tq.buffer.contentsSize ≤ c) :
    Passes c (acts ++ [.acceptEvent now])
      { s with driver := d, callback := some ⟨rest, count⟩ } := by
  obtain ⟨hidle, hsys⟩ := Driver.step_call hd
  obtain ⟨taken, htaken, hsub, hbreaks⟩ := h.taken
  obtain ⟨hsub', hbreaks'⟩ := packet_pushes s.settings.config s.driver.sys.machine packet now
  have hpushed : d.sys.pushed = s.driver.sys.pushed ++ _ := congrArg Sys.pushed hsys
  have hrest : s.rest = packet :: rest := by rw [Filter.rest, hcb]; rfl
  have hreported : reported (acts ++ [.acceptEvent now]) = reported acts := by
    rw [reported_snoc]
    exact List.append_nil _
  refine ⟨?_, ⟨taken ++ [packet], ?_, ?_, ?_⟩, ?_⟩
  · dsimp only
    rw [hsys] at hfit ⊢
    exact h.drains.enter (S := winSetup s.settings.config) hidle hfit
  · rw [hreported, htaken, hrest]
    simp [Filter.rest]
  · dsimp only
    rw [hpushed, List.map_append, List.filter_append]
    exact hsub.append hsub'
  · dsimp only
    rw [hpushed, List.map_append, List.filter_append, breaksOf_append, breaksOf_append, hbreaks]
    exact congrArg _ hbreaks'
  · have hconsumed := h.consumed
    rw [hcb] at hconsumed
    rw [callbacksOf_snoc]
    exact hconsumed.trans (congrArg _ (List.append_nil _).symm)

theorem Passes.step (h : Passes c acts s) (hs : s.step a = some s')
    (hfit : s'.driver.sys.machine.tq.buffer.contentsSize ≤ c) : Passes c (acts ++ [a]) s' := by
  cases a with
  | serviceCallback packets =>
    simp only [Filter.step] at hs
    cases hcb : s.callback with
    | some cb => simp [hcb] at hs
    | none =>
      simp only [hcb, Option.some.injEq] at hs
      subst hs
      obtain ⟨taken, htaken, hsub, hbreaks⟩ := h.taken
      have hrest : s.rest = [] := by rw [Filter.rest, hcb]; rfl
      refine ⟨h.drains, ⟨taken, ?_, hsub, hbreaks⟩, ?_⟩
      · rw [reported_snoc, htaken, hrest, List.append_nil]
        exact congrArg _ (List.append_nil _)
      · rw [callbacksOf_snoc, List.map_append, ← h.consumed, hcb]
        simp [callbacksOf]
  | acceptEvent now =>
    simp only [Filter.step] at hs
    cases hcb : s.callback with
    | none => simp [hcb] at hs
    | some cb =>
      obtain ⟨_ | ⟨packet, rest⟩, count⟩ := cb
      · simp [hcb] at hs
      · simp only [hcb, Filter.drive] at hs
        obtain ⟨d, hd, rfl⟩ := Option.map_eq_some_iff.mp hs
        exact h.take hcb hd hfit
  | serviceReturn =>
    simp only [Filter.step] at hs
    split at hs
    · rename_i count hcb hidle
      cases hs
      obtain ⟨taken, htaken, hsub, hbreaks⟩ := h.taken
      have hrest : s.rest = [] := by rw [Filter.rest, hcb]; rfl
      refine ⟨h.drains, ⟨taken, ?_, hsub, hbreaks⟩, ?_⟩
      · rw [reported_snoc, htaken, hrest]
        exact List.append_nil _
      · have hconsumed := h.consumed
        rw [hcb] at hconsumed
        rw [callbacksOf_snoc]
        refine (List.append_nil _).trans (hconsumed.trans ?_)
        exact congrArg _ (List.append_nil _).symm
    · cases hs
  | wdfTimer time =>
    obtain ⟨d, hd, rfl⟩ := Option.map_eq_some_iff.mp hs
    obtain ⟨hidle, hsys⟩ := Driver.step_call hd
    refine h.same rfl ?_ ?_ rfl rfl
    · dsimp only at hfit ⊢
      rw [hsys] at hfit ⊢
      exact h.drains.enter (S := winSetup s.settings.config) hidle hfit
    · dsimp only
      rw [hsys]
      show s.driver.sys.pushed ++ (acceptTime s.driver.sys.machine time).pushed = _
      rw [acceptTime]
      split_ifs <;> exact List.append_nil _
  | tick =>
    obtain ⟨d, hd, rfl⟩ := Option.map_eq_some_iff.mp hs
    have htick := Driver.step_tick hd
    refine h.same rfl (h.drains.tick (S := winSetup s.settings.config) htick) ?_ rfl rfl
    obtain ⟨x, hx, hsys⟩ := Sys.step_tick htick
    dsimp only
    rw [hsys, Sys.apply, tick_pushed hx, List.append_nil]
  | setFork values =>
    cases hs
    exact h.same rfl h.drains rfl rfl rfl

theorem passes_run {settings : Settings ℤ} (hc : 2 ≤ c)
    (hfit : EachStep Filter.step (Filter.create settings c) (Filter.Fits c) acts)
    (h : runs Filter.step (Filter.create settings c) acts = some s) : Passes c acts s := by
  have h0 : Passes c [] (Filter.create settings c) :=
    ⟨.create hc, ⟨[], rfl, List.nil_sublist _, rfl⟩, rfl⟩
  refine runs_each (R := Passes c) h0 ?_ hfit h
  exact fun _ u a v _ hu hfits hstep => hu.step hstep (hfits v hstep)

/-- between two calls of the machine -/
theorem Passes.order (h : Passes c acts s) (hidle : s.driver.sys.control = .idle) :
    ∃ taken, reported acts = taken ++ s.rest ∧ ∃ mid sent,
      Triqueue.Rep c s.driver.sys.machine.tq ⟨[], mid, []⟩ ∧
      (s.driver.sys.machine.state = .normal ↔ mid = []) ∧
      (sent ++ mid.map extendedEventToWin).Sublist (taken.filter inRange) ∧
      breaksOf (sent ++ mid.map extendedEventToWin) = breaksOf (taken.filter inRange) ∧
      List.Forall₂ SamePacket sent s.passedUp := by
  obtain ⟨mid, hrep, hnormal, sent, hpushed, hall⟩ := h.drains.order hidle
  obtain ⟨taken, htaken, hsub, hbreaks⟩ := h.taken
  rw [hpushed, List.map_append] at hsub hbreaks
  refine ⟨taken, htaken, mid, sent.map extendedEventToWin, hrep, hnormal, hsub, hbreaks, ?_⟩
  rw [Filter.passedUp, List.forall₂_map_left_iff, List.forall₂_map_right_iff]
  exact hall.imp fun _ _ => samePacket_of_rewritten

/-- nothing goes up before anything is reported -/
theorem Passes.silent (h : Passes c acts s) (hnone : reported acts = []) : s.passedUp = [] := by
  obtain ⟨taken, htaken, hsub, -⟩ := h.taken
  obtain ⟨l, -, hl, -⟩ := h.drains
  obtain ⟨sent, hp, hsent⟩ := hl.sent
  have htaken' : taken = [] := (List.append_eq_nil_iff.mp (htaken.symm.trans hnone)).1
  rw [htaken', List.filter_nil, List.sublist_nil, List.map_eq_nil_iff] at hsub
  rw [hsub] at hp
  have hnil : sent = [] := (List.append_eq_nil_iff.mp hp.symm).1
  rw [hnil, List.forall₂_nil_left_iff, List.append_assoc, List.append_eq_nil_iff] at hsent
  rw [Filter.passedUp, hsent.1, List.map_nil]

/-- what went up stays -/
theorem Filter.step_passedUp (h : s.step a = some s') :
    ∃ new, s'.passedUp = s.passedUp ++ new := by
  have hdrive : ∀ callback act, s.drive callback act = some s' →
      ∃ new, s'.passedUp = s.passedUp ++ new := by
    intro callback act h
    obtain ⟨d, hd, rfl⟩ := Option.map_eq_some_iff.mp h
    cases act with
    | call call =>
      obtain ⟨-, hsys⟩ := Driver.step_call hd
      refine ⟨(relayed (enter (winSetup s.settings.config) s.driver.sys.machine
        call.call).seen).map extendedEventToWin, ?_⟩
      simp only [Filter.passedUp]
      rw [hsys, Sys.apply, relayed_append, List.map_append]
    | tick =>
      obtain ⟨x, -, hsys⟩ := Sys.step_tick (Driver.step_tick hd)
      refine ⟨(relayed x.seen).map extendedEventToWin, ?_⟩
      simp only [Filter.passedUp]
      rw [hsys, Sys.apply, relayed_append, List.map_append]
  cases a with
  | serviceCallback packets =>
    simp only [Filter.step] at h
    split at h
    · cases h
      exact ⟨[], (List.append_nil _).symm⟩
    · cases h
  | acceptEvent now =>
    simp only [Filter.step] at h
    split at h
    · exact hdrive _ _ h
    · cases h
  | serviceReturn =>
    simp only [Filter.step] at h
    split at h
    · cases h
      exact ⟨[], (List.append_nil _).symm⟩
    · cases h
  | wdfTimer time => exact hdrive _ _ h
  | tick => exact hdrive _ _ h
  | setFork values =>
    cases h
    exact ⟨[], (List.append_nil _).symm⟩

end

/-- three packets at once: key 48 goes up, key 30 is suspected, and Pause is out of range; a
request has made 30 fork before -/
def mixedRun : List FilterAct :=
  [.setFork (valuesOf [21, 30, 29]),
    .serviceCallback [⟨0, 48, 0, 0, 0⟩, ⟨0, 30, 0, 0, 7⟩, ⟨0, 29, keyE1, 0, 0⟩], .acceptEvent 100]
    ++ List.replicate 8 .tick ++ [.acceptEvent 120] ++ List.replicate 7 .tick
    ++ [.acceptEvent 130, .serviceReturn]

end ForkNS
