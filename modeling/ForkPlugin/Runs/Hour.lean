import ForkPlugin.Machine.Lockstep
import ForkPlugin.Runs.Conserve
import ForkPlugin.Runs.Delay

/-!
# A clock that reads the time within the hour

The Windows driver reads its clock in milliseconds modulo an hour, and stamps events and timers
with that.  Within one hour all differences of times are the true ones.

* `currentTimeMiliseconds`   the reading, `miliseconds` is the true time;
* `windowsSetup`     the machine of the driver, its times read by a clock;
* `hourClocks`       how the stored times are related: the deadline is the same time ahead;
* `WithinHour`       a step compares no times of two hours;
* `Behind`           a reading 0 is not handed over by `push_time`: one step less;
* `hour_unnoticed`   as long as no step compares times of two hours, the same events with the same
                     keycodes are relayed;
* `hour_noticed`     otherwise they need not be.
-/

namespace ForkNS

open Runs Machine TriqueueOps

variable {E : Type}

/-- the system time counts intervals of 100 nanoseconds -/
def miliseconds (systemTime : ℕ) : ℤ := (systemTime / (1000 * 10) : ℕ)

/-- inside 1 hour -/
def currentTimeMiliseconds (systemTime : ℕ) : ℤ :=
  (systemTime / (1000 * 10) % (3600 * 1000) : ℕ)

/-- the time within the hour -/
def hourly (t : ℤ) : ℤ := t % (3600 * 1000)

theorem hourly_zero : hourly 0 = 0 := rfl

def SameHour (s t : ℤ) : Prop := s / (3600 * 1000) = t / (3600 * 1000)

instance (s t : ℤ) : Decidable (SameHour s t) := inferInstanceAs (Decidable (_ = _))

theorem currentTimeMiliseconds_eq (systemTime : ℕ) :
    currentTimeMiliseconds systemTime = hourly (miliseconds systemTime) := by
  simp only [currentTimeMiliseconds, hourly, miliseconds]
  push_cast
  rfl

/-- within one hour differences are the true ones -/
theorem SameHour.sub_eq {s t : ℤ} (h : SameHour s t) : hourly s - hourly t = s - t := by
  unfold SameHour at h
  unfold hourly
  omega

/-- events carry the system time at which they came; `DISABLE_STD_LIBRARY` is defined -/
def windowsSetup (env : Environment E ℕ) (config : ForkConfiguration ℤ) (maxKeycode : ℕ)
    (clock : ℕ → ℤ) : Setup E ℤ :=
  ⟨env.retimed clock, config, maxKeycode, false⟩

/-- the same machine, its clock read within the hour -/
def Setup.hourly (S : Setup E ℤ) : Setup E ℤ :=
  ⟨S.env.retimed ForkNS.hourly, S.config, S.maxKeycode, S.stdLibrary⟩

theorem windowsSetup_hourly (env : Environment E ℕ) (config : ForkConfiguration ℤ)
    (maxKeycode : ℕ) : windowsSetup env config maxKeycode currentTimeMiliseconds
      = (windowsSetup env config maxKeycode miliseconds).hourly := by
  simp only [windowsSetup, Setup.hourly, Environment.retimed, currentTimeMiliseconds_eq]

/-- the stored times are read within the hour, and the deadline is as far ahead -/
def hourClocks : Clocks ℤ ℤ where
  decision s d s' d' := s' = hourly s ∧ d' - s' = d - s
  release key r r' := key ≠ noKey → r' = hourly r
  clock c c' := c' = hourly c
  release_none h := absurd rfl h
  clock_none := hourly_zero.symm

variable (S : Setup E ℤ)

theorem hourly_alike : SetupAlike S S.hourly id := by
  constructor <;> intros <;> rfl

section
variable {Q : Type}

/-- the event is compared with times of its own hour only -/
def EventWithinHour (m : Machine Q ℤ) (e : E) : Prop :=
  (m.ReadsDeadline S e → SameHour (S.env.timeOf e) m.suspectTime) ∧
  (m.ReadsRelease S e → SameHour (S.env.timeOf e) m.lastReleasedTime)

/-- so is the timer; where it reads 0, it is not due -/
def TimerWithinHour (m : Machine Q ℤ) : Prop :=
  m.state ≠ .normal → m.mCurrentTime ≠ 0 →
    SameHour m.mCurrentTime m.suspectTime ∧
      (hourly m.mCurrentTime = 0 → m.mCurrentTime < m.mDecisionTime)

variable [TriqueueOps Q E]

/-- the next iteration of the loop has no event to read -/
def readsTimer (s : Sys Q E ℤ) : Bool :=
  match s.control with
  | .automatonLoop _ => thirdEmpty s.machine.tq
  | _ => false

/-- no times of two hours are compared in this step -/
def WithinHour (s : Sys Q E ℤ) : Act E ℤ → Prop
  | .call (.acceptTime now) =>
    s.machine.mCurrentTime ≠ 0 → SameHour now s.machine.mCurrentTime
  | .tick false =>
    (∀ e ∈ nextEvent s, EventWithinHour S s.machine e) ∧
      (readsTimer s = true → TimerWithinHour s.machine)
  | _ => True

instance (m : Machine Q ℤ) (e : E) : Decidable (EventWithinHour S m e) :=
  inferInstanceAs (Decidable (_ ∧ _))

instance (m : Machine Q ℤ) : Decidable (TimerWithinHour m) :=
  inferInstanceAs (Decidable (_ → _ → _))

instance (s : Sys Q E ℤ) : (a : Act E ℤ) → Decidable (WithinHour S s a)
  | .call (.acceptTime _) => inferInstanceAs (Decidable (_ → _))
  | .call (.acceptEvent _) => inferInstanceAs (Decidable True)
  | .call .acceptConfirmation => inferInstanceAs (Decidable True)
  | .tick false => inferInstanceAs (Decidable (_ ∧ _))
  | .tick true => inferInstanceAs (Decidable True)

end

/-! ## comparisons -/

section
variable {S} {Q Q' : Type} {g : Q → Q'} {m : Machine Q ℤ} {m' : Machine Q' ℤ}

theorem hourly_verifier (config : ForkConfiguration ℤ) (suspect verificator : Keycode)
    {s t : ℤ} (h : SameHour t s) :
    config.verifierDecisionTime suspect (hourly s) verificator (hourly t) - hourly s
      = config.verifierDecisionTime suspect s verificator t - s := by
  have hsub := h.sub_eq
  simp only [ForkConfiguration.verifierDecisionTime]
  split_ifs <;> omega

theorem hourly_tests (h : Like hourClocks g m m') {e : E} (hok : EventWithinHour S m e) :
    TestsAlike hourClocks S S.hourly id m m' e where
  deadline hd := by
    obtain ⟨hs, hdec⟩ := h.decision hd.1
    have hsub := (hok.1 hd).sub_eq
    show m.mDecisionTime ≤ S.env.timeOf e ↔ m'.mDecisionTime ≤ hourly (S.env.timeOf e)
    omega
  quick hr := by
    have hrel : m'.lastReleasedTime = hourly m.lastReleasedTime :=
      h.release (hr.2.2.2.2.2.1 ▸ hr.2.2.2.2.2.2)
    have hsub := (hok.2 hr).sub_eq
    show m.lastReleasedTime + S.config.repeatMax < S.env.timeOf e ↔
      m'.lastReleasedTime + S.config.repeatMax < hourly (S.env.timeOf e)
    omega
  release _ _ := rfl
  start _ := by
    refine ⟨rfl, ?_⟩
    show hourly (S.env.timeOf e) + S.config.verificationIntervalOf (S.env.detailOf e) noKey
      - hourly (S.env.timeOf e) = S.env.timeOf e
        + S.config.verificationIntervalOf (S.env.detailOf e) noKey - S.env.timeOf e
    omega
  verify hv := by
    have hg := guard_verdict S m e
    rw [hv] at hg
    have hn : m.state ≠ .normal := by
      rw [hg.1]
      decide
    obtain ⟨hs, hdec⟩ := h.decision hn
    have hread : m.ReadsDeadline S e := by
      refine ⟨hn, fun hk => ?_⟩
      rw [hg.2.2.2.2.2] at hk
      exact absurd hk.2 (by decide)
    refine ⟨hs, ?_⟩
    have hver := hourly_verifier S.config m.suspect (S.env.detailOf e) (hok.1 hread)
    rw [← hs] at hver
    simp only [verifiedTime, h.suspect]
    show min m'.mDecisionTime (S.config.verifierDecisionTime m.suspect m'.suspectTime
      (S.env.detailOf e) (hourly (S.env.timeOf e))) - m'.suspectTime = _
    omega

theorem hourly_timerDue (h : Like hourClocks g m m') (hok : TimerWithinHour m) :
    m.TimerDue ↔ m'.TimerDue := by
  have hc : m'.mCurrentTime = hourly m.mCurrentTime := h.clock
  by_cases hn : m.state = .normal
  · constructor
    · exact fun hd => absurd hn hd.1
    · exact fun hd => absurd (h.state.trans hn) hd.1
  by_cases hz : m.mCurrentTime = 0
  · constructor
    · exact fun hd => absurd hz hd.2.1
    · exact fun hd => absurd (hc.trans (by rw [hz]; rfl)) hd.2.1
  obtain ⟨hs, hdec⟩ := h.decision hn
  obtain ⟨hsame, hzero⟩ := hok hn hz
  have hsub := hsame.sub_eq
  constructor
  · rintro ⟨-, -, hd⟩
    refine ⟨h.state ▸ hn, fun h0 => ?_, by omega⟩
    have := hzero (hc.symm.trans h0)
    omega
  · rintro ⟨-, -, hd⟩
    exact ⟨hn, hz, by omega⟩

end

/-! ## steps -/

/-- the same control, or 0 is not handed over -/
def Behind (c c' : Control E ℤ) : Prop :=
  c' = c.map id hourly ∨ ∃ f now, c = .pushTime f now ∧ c' = afterAutomaton f

theorem Behind.idle {c' : Control E ℤ} (h : Behind .idle c') : c' = .idle := by
  rcases h with hc | ⟨f, now, hc, -⟩
  · exact hc
  · cases hc

section
variable {S} {Q Q' : Type} [TriqueueOps Q E] [TriqueueOps Q' E] {g : Q → Q'}
  (hg : TriqueueMap g (id : E → E))

structure HourLike (g : Q → Q') (s : Sys Q E ℤ) (s' : Sys Q' E ℤ) : Prop where
  machine : Like hourClocks g s.machine s'.machine
  control : Behind s.control s'.control
  relayed : relayed s'.trace = relayed s.trace

omit [TriqueueOps Q E] [TriqueueOps Q' E] in
theorem HourLike.apply {s : Sys Q E ℤ} {s' : Sys Q' E ℤ} (h : HourLike g s s')
    {x : Effect Q E ℤ} {x' : Effect Q' E ℤ} (hm : Like hourClocks g x.machine x'.machine)
    (hc : Behind x.control x'.control) (hr : ForkNS.relayed x'.seen = ForkNS.relayed x.seen) :
    HourLike g (s.apply x) (s'.apply x') := by
  refine ⟨hm, hc, ?_⟩
  rw [Sys.apply, Sys.apply, relayed_append, relayed_append, h.relayed, hr]

include hg

/-- the time that is handed over may read 0 -/
theorem hourly_flushEnd {m : Machine Q ℤ} {m' : Machine Q' ℤ} (h : Like hourClocks g m m')
    (f : Bool) : Behind
      (if (m.pushTimeToNext S).1 ≠ 0 then Control.pushTime f (m.pushTimeToNext S).1
        else afterAutomaton f : Control E ℤ)
      (if (m'.pushTimeToNext S.hourly).1 ≠ 0 then
        Control.pushTime f (m'.pushTimeToNext S.hourly).1 else afterAutomaton f) := by
  obtain ⟨-, hnow⟩ := h.pushTimeToNext S S.hourly hg
  have hread : (m'.pushTimeToNext S.hourly).1 = hourly (m.pushTimeToNext S).1 := by
    rcases hnow with hclock | ⟨e, he, he'⟩
    · exact hclock
    · rw [he, he']
      rfl
  rw [hread]
  generalize (m.pushTimeToNext S).1 = now
  by_cases hz : now = 0
  · subst hz
    exact .inl (map_afterAutomaton id hourly f).symm
  rw [if_pos hz]
  by_cases hz' : hourly now = 0
  · rw [if_neg (not_not.mpr hz')]
    exact .inr ⟨f, now, rfl, rfl⟩
  · rw [if_pos hz']
    exact .inl rfl

theorem hourly_tick {m : Machine Q ℤ} {m' : Machine Q' ℤ} (h : Like hourClocks g m m')
    {frozen : Bool} {c : Control E ℤ} {x : Effect Q E ℤ} (hx : tick S m frozen c = some x)
    (htimer : ∀ f, frozen = false → c = .automatonLoop f → thirdEmpty m.tq = true →
      TimerWithinHour m)
    (hevent : ∀ f, frozen = false → c = .automatonLoop f → thirdEmpty m.tq = false →
      ∀ e, peekThird m.tq = some e → EventWithinHour S m e) :
    ∃ x', tick S.hourly m' frozen (c.map id hourly) = some x' ∧
      Like hourClocks g x.machine x'.machine ∧ Behind x.control x'.control ∧
      relayed x'.seen = relayed x.seen := by
  -- the steps that hand over no time and return no value
  have hother : (∀ f, frozen = false → c ≠ .flushEnd f) → ¬(c = .nextDecisionTime ∨ c = .relock) →
      ∃ x', tick S.hourly m' frozen (c.map id hourly) = some x' ∧
        Like hourClocks g x.machine x'.machine ∧ Behind x.control x'.control ∧
        relayed x'.seen = relayed x.seen := by
    intro hflush hreturn
    have hrel : Option.Rel (EffectLike hourClocks g id hourly) (tick S m frozen c)
        (tick S.hourly m' frozen (c.map id hourly)) := by
      refine h.tick hg (hourly_alike S) (fun f hf hc => ?_)
        (fun f hf hc => absurd hc (hflush f hf)) fun hc => absurd hc hreturn
      exact h.automatonBody hg (hourly_alike S) f
        (fun e hi hp => hourly_tests h (hevent f hf hc hi e hp))
        fun hi => hourly_timerDue h (htimer f hf hc hi)
    rw [hx] at hrel
    generalize tick S.hourly m' frozen (c.map id hourly) = y at hrel ⊢
    cases hrel with
    | some hlike =>
      exact ⟨_, rfl, hlike.machine, .inl hlike.control, by
        rw [hlike.seen, relayed_map, List.map_id]⟩
  cases c with
  | flushEnd f =>
    cases frozen with
    | true => exact hother (fun _ hf => absurd hf (by decide)) (by simp)
    | false =>
      obtain ⟨hpush, -⟩ := h.pushTimeToNext S S.hourly hg
      cases hx
      exact ⟨_, rfl, hpush, hourly_flushEnd hg h f, rfl⟩
  | nextDecisionTime =>
    cases hx
    exact ⟨_, rfl, h, .inl rfl, rfl⟩
  | relock =>
    have hlock : S.hourly.stdLibrary = S.stdLibrary := rfl
    simp only [tick, Control.map, hlock] at hx ⊢
    split_ifs at hx ⊢ with hl
    cases hx
    exact ⟨_, rfl, h, .inl rfl, rfl⟩
  | _ => exact hother (fun _ _ => by simp) (by simp)

/-- a step, or none where 0 is handed over -/
theorem hourly_step {s t : Sys Q E ℤ} {s' : Sys Q' E ℤ} (h : HourLike g s s') {a : Act E ℤ}
    (hok : WithinHour S s a) (hpos : ∀ now, a = .call (.acceptTime now) → 0 ≤ now)
    (ha : s.step S a = some t) :
    ∃ as t', runs (Sys.step S.hourly) s' as = some t' ∧ HourLike g t t' ∧
      calls as = (calls [a]).map (Call.map id hourly) ∧ (.tick true ∉ [a] → .tick true ∉ as) := by
  cases a with
  | call c =>
    obtain ⟨hidle, rfl⟩ := Sys.step_call ha
    have hidle' : s'.control = .idle := (hidle ▸ h.control).idle
    have henter := h.machine.enter (o := hourly) hg (hourly_alike S) rfl (c := c) fun now hnow => ?_
    · refine ⟨[.call (c.map id hourly)], _, ?_, h.apply henter.machine (.inl henter.control) ?_,
        rfl, by simp⟩
      · rw [runs_cons, Sys.step, hidle']
        rfl
      · rw [henter.seen, relayed_map, List.map_id]
    · subst hnow
      refine ⟨rfl, ?_⟩
      rw [show s'.machine.mCurrentTime = _ from h.machine.clock]
      by_cases hz : s.machine.mCurrentTime = 0
      · -- no time is before a clock that is not set
        have hnow := hpos now rfl
        rw [hz]
        unfold hourly
        omega
      · have hsub := (hok hz).sub_eq
        omega
  | tick frozen =>
    obtain ⟨x, hx, rfl⟩ := Sys.step_tick ha
    rcases h.control with hc | ⟨f, now, hc, hc'⟩
    · obtain ⟨x', hx', hm, hcx, hr⟩ := hourly_tick hg h.machine hx
        (fun f hf hcs hi => by
          subst hf
          exact hok.2 (by rw [readsTimer, hcs]; exact hi))
        fun f hf hcs hi e hp => by
          subst hf
          exact hok.1 e (by simp [nextEvent, hcs, hi, hp])
      refine ⟨[.tick frozen], _, ?_, h.apply hm hcx hr, rfl, id⟩
      rw [runs_cons, Sys.step, hc, hx']
      rfl
    · rw [hc] at hx
      cases hx
      refine ⟨[], s', rfl, ⟨h.machine, ?_, ?_⟩, rfl, by simp⟩
      · rw [hc']
        exact .inl (map_afterAutomaton id hourly f).symm
      · rw [h.relayed, Sys.apply, relayed_append]
        simp

end

/-! ## runs -/

section
variable {S} {Q : Type} [TriqueueOps Q E]

/-- the condition depends on the step alone -/
theorem hourly_run {q : Q} {acts : List (Act E ℤ)}
    (hpos : ∀ now, .call (.acceptTime now) ∈ acts → 0 ≤ now)
    (hok : EachStep (Sys.step S) (Sys.create q) (WithinHour S) acts) {s : Sys Q E ℤ}
    (h : runs (Sys.step S) (Sys.create q) acts = some s) :
    ∃ acts' s', runs (Sys.step S.hourly) (Sys.create q) acts' = some s' ∧ HourLike id s s' ∧
      calls acts' = (calls acts).map (Call.map id hourly) ∧
      (.tick true ∉ acts → .tick true ∉ acts') := by
  have hrun := runs_each (R := fun acts (s : Sys Q E ℤ) =>
    (∀ now, .call (.acceptTime now) ∈ acts → 0 ≤ now) → ∃ acts' s',
      runs (Sys.step S.hourly) (Sys.create q) acts' = some s' ∧ HourLike id s s' ∧
      calls acts' = (calls acts).map (Call.map id hourly) ∧
      (.tick true ∉ acts → .tick true ∉ acts')) ?_ ?_ hok h
  · exact hrun hpos
  · intro _
    exact ⟨[], _, rfl, ⟨create_like q, .inl rfl, rfl⟩, rfl, id⟩
  · intro acts u a v _ ih hP hstep hpos
    obtain ⟨acts', u', hu', hlike, hcalls, hfrozen⟩ :=
      ih fun now hnow => hpos now (List.mem_append_left _ hnow)
    obtain ⟨as, v', hv', hlike', hcalls', hfrozen'⟩ := hourly_step TriqueueMap.id hlike hP
      (fun now hnow => hpos now (by simp [hnow])) hstep
    refine ⟨acts' ++ as, v', runs_append_some.mpr ⟨u', hu', hv'⟩, hlike', ?_, fun hn hmem => ?_⟩
    · rw [calls_append, calls_append, hcalls, hcalls', List.map_append]
    · rcases List.mem_append.mp hmem with hmem | hmem
      · exact hfrozen (fun h => hn (List.mem_append_left _ h)) hmem
      · exact hfrozen' (fun h => hn (List.mem_append_right _ h)) hmem

end

theorem calls_map {E' Time Time' : Type} (f : E → E') (o : Time → Time')
    (acts : List (Act E Time)) :
    calls (acts.map (Act.map f o)) = (calls acts).map (Call.map f o) := by
  rw [calls, calls, List.filterMap_map, List.map_filterMap]
  refine List.filterMap_congr fun a _ => ?_
  cases a <;> rfl

/-- a call that is read twice -/
theorem map_hourly (c : Call E ℕ) : (c.map id miliseconds).map id hourly
    = c.map id currentTimeMiliseconds := by
  cases c with
  | acceptTime now => exact congrArg Call.acceptTime (currentTimeMiliseconds_eq now).symm
  | _ => rfl

/-- **The hour is not noticed as long as no step compares times of two hours.**  The calls are
those of the run with true times, every one stamped by the reading of the clock. -/
theorem hour_unnoticed {env : Environment E ℕ} {config : ForkConfiguration ℤ} {maxKeycode c : ℕ}
    {acts : List (Act E ℕ)} (hfrozen : .tick true ∉ acts)
    (hok : EachStep (Sys.step (windowsSetup env config maxKeycode miliseconds))
      (Sys.create (Triqueue.create c))
      (WithinHour (windowsSetup env config maxKeycode miliseconds))
      (acts.map (Act.map id miliseconds)))
    {s : Sys (Triqueue E) E ℤ}
    (h : runs (Sys.step (windowsSetup env config maxKeycode miliseconds))
      (Sys.create (Triqueue.create c)) (acts.map (Act.map id miliseconds)) = some s) :
    ∃ acts' s', runs (Sys.step (windowsSetup env config maxKeycode currentTimeMiliseconds))
        (Sys.create (Triqueue.create c)) acts' = some s' ∧
      calls acts' = (calls acts).map (Call.map id currentTimeMiliseconds) ∧
      .tick true ∉ acts' ∧ (s.control = .idle → s'.control = .idle) ∧
      relayed s'.trace = relayed s.trace := by
  have hpos : ∀ now, .call (.acceptTime now) ∈ acts.map (Act.map id miliseconds) → 0 ≤ now := by
    intro now hnow
    obtain ⟨a, -, ha⟩ := List.mem_map.mp hnow
    rcases a with (e | t | -) | frozen <;> cases ha
    exact Int.natCast_nonneg _
  have hfrozen' : (.tick true : Act E ℤ) ∉ acts.map (Act.map id miliseconds) := by
    intro hmem
    obtain ⟨a, ha, heq⟩ := List.mem_map.mp hmem
    rcases a with c | frozen <;> cases heq
    exact hfrozen ha
  obtain ⟨acts', s', hs', hlike, hcalls, hno⟩ := hourly_run hpos hok h
  rw [← windowsSetup_hourly] at hs'
  refine ⟨acts', s', hs', ?_, hno hfrozen', fun hc => (hc ▸ hlike.control).idle, hlike.relayed⟩
  rw [hcalls, calls_map, List.map_map]
  exact List.map_congr_left fun c _ => map_hourly c

/-- the setup of the tests on Windows -/
abbrev testWindows (clock : ℕ → ℤ) : Setup TestEvent ℤ :=
  windowsSetup testEnvironment (testConfiguration.retimed Nat.cast) 256 clock

/-- the system time at so many miliseconds -/
abbrev ms (t : ℕ) : ℕ := t * (1000 * 10)

/-- key 2 is pressed, its timer rings 70 ms later, and 10 ms later it is released; the calls take
so many steps -/
def heldPast (t timer release : ℕ) : List (Act TestEvent ℕ) :=
  during (.acceptEvent (down 2 (ms t))) 7 ++ during (.acceptTime (ms (t + 70))) timer ++
    during (.acceptEvent (up 2 (ms (t + 80)))) release

theorem hour_unnoticed_once : ∃ s,
    runs (Sys.step (testWindows miliseconds)) (Sys.create (Triqueue.create 2))
      ((heldPast 1000 9 8).map (Act.map id miliseconds)) = some s ∧
    relayed s.trace = [down 12 (ms 1000), up 12 (ms 1080)] ∧
    ∃ acts' s', runs (Sys.step (testWindows currentTimeMiliseconds))
        (Sys.create (Triqueue.create 2)) acts' = some s' ∧
      calls acts' = (calls (heldPast 1000 9 8)).map (Call.map id currentTimeMiliseconds) ∧
      .tick true ∉ acts' ∧ (s.control = .idle → s'.control = .idle) ∧
      relayed s'.trace = relayed s.trace := by
  have hs := Option.eq_some_of_isSome (o := runs (Sys.step (testWindows miliseconds))
    (Sys.create (Triqueue.create 2)) ((heldPast 1000 9 8).map (Act.map id miliseconds)))
    (by decide)
  exact ⟨_, hs, by decide, hour_unnoticed (by decide) (by decide) hs⟩

/-- The key is pressed 10 ms before the hour.  By the true time it is forked by its timer; by the
clock both the timer and the release come before the deadline. -/
theorem hour_noticed : ∃ s s',
    times testEnvironment (calls (heldPast 3599990 9 8)) = [ms 3599990, ms 3600060, ms 3600070] ∧
    calls (heldPast 3599990 6 11) = calls (heldPast 3599990 9 8) ∧
    runs (Sys.step (testWindows miliseconds)) (Sys.create (Triqueue.create 2))
      ((heldPast 3599990 9 8).map (Act.map id miliseconds)) = some s ∧
    runs (Sys.step (testWindows currentTimeMiliseconds)) (Sys.create (Triqueue.create 2))
      ((heldPast 3599990 6 11).map (Act.map id currentTimeMiliseconds)) = some s' ∧
    s.control = .idle ∧ s'.control = .idle ∧
    (relayed s.trace).map testEnvironment.detailOf = [12, 12] ∧
    (relayed s'.trace).map testEnvironment.detailOf = [2, 2] := by
  have hs := Option.eq_some_of_isSome (o := runs (Sys.step (testWindows miliseconds))
    (Sys.create (Triqueue.create 2)) ((heldPast 3599990 9 8).map (Act.map id miliseconds)))
    (by decide)
  have hs' := Option.eq_some_of_isSome (o := runs (Sys.step (testWindows currentTimeMiliseconds))
    (Sys.create (Triqueue.create 2))
    ((heldPast 3599990 6 11).map (Act.map id currentTimeMiliseconds))) (by decide)
  exact ⟨_, _, by decide, by decide, hs, hs', by decide, by decide, by decide, by decide⟩

end ForkNS
