import ForkPlugin.Machine.Lockstep
import ForkPlugin.Runs.Conserve
import ForkPlugin.Runs.Delay

/-!
# Decisions depend on time differences only

Every time of a run is shifted by the same amount.  The machine keeps 0 for "no time" beside real
times, so a stored time is either shifted or 0 in both runs; as long as every input is at least 1,
no real time is 0.

* `shift`              a time is shifted, no time stays no time;
* `Environment.Later`  an event that differs from another in its time only;
* `Obs.shifted`        what the environment sees then;
* `Setup.timed`        the events whose time is at least 1, as a type of their own;
* `shiftClocks`        how the stored times are related;
* `shifted`            so the whole trace is shifted.
-/

namespace ForkNS

open Runs Machine

variable {E : Type}

/-- 0 is no time -/
def shift (d t : ℤ) : ℤ := if t = 0 then 0 else t + d

theorem shift_of_pos {d t : ℤ} (h : 0 < t) : shift d t = t + d := if_neg (by omega)

/-- `later e` is `e`, but `d` later -/
structure Environment.Later (env : Environment E ℤ) (d : ℤ) (later : E → E) : Prop where
  pressP : ∀ e, env.pressP (later e) = env.pressP e
  releaseP : ∀ e, env.releaseP (later e) = env.releaseP e
  detailOf : ∀ e, env.detailOf (later e) = env.detailOf e
  ignoreEvent : ∀ e, env.ignoreEvent (later e) = env.ignoreEvent e
  rewriteEvent : ∀ e c, env.rewriteEvent (later e) c = later (env.rewriteEvent e c)
  timeOf : ∀ e, env.timeOf (later e) = env.timeOf e + d

/-- the intervals that the machine asks for are not negative -/
structure ForkConfiguration.NonNegative (config : ForkConfiguration ℤ) : Prop where
  interval : ∀ code verificator, 0 ≤ config.verificationIntervalOf code verificator
  tolerance : ∀ code verificator, 0 ≤ config.overlapToleranceOf code verificator

theorem ForkConfiguration.NonNegative.verifier_pos {config : ForkConfiguration ℤ}
    (hI : config.NonNegative) {s t : ℤ} (hs : 0 < s) (ht : 0 < t) (suspect verificator : Keycode) :
    0 < config.verifierDecisionTime suspect s verificator t := by
  have hint := hI.interval suspect verificator
  have htol := hI.tolerance suspect verificator
  simp only [ForkConfiguration.verifierDecisionTime]
  split_ifs <;> omega

theorem verifier_shift (config : ForkConfiguration ℤ) (d s t : ℤ)
    (suspect verificator : Keycode) :
    config.verifierDecisionTime suspect (s + d) verificator (t + d)
      = config.verifierDecisionTime suspect s verificator t + d := by
  simp only [ForkConfiguration.verifierDecisionTime]
  split_ifs <;> omega

/-- what the environment sees in the shifted run; a wake-up time 0 stays 0 -/
def Obs.shifted (later : E → E) (d : ℤ) : Obs E ℤ → Obs E ℤ
  | .outputFrozen answer => .outputFrozen answer
  | .relayEvent pevent => .relayEvent (later pevent)
  | .pushTime now => .pushTime (now + d)
  | .returned next => .returned (shift d next)

/-! ## 0 is never pushed -/

section
variable {Q Time : Type} [TriqueueOps Q E] [LinearOrder Time] [Add Time] [Zero Time]
  [NatCast Time] {S : Setup E Time}

def Control.PushesTime : Control E Time → Prop
  | .pushTime _ now => now ≠ 0
  | _ => True

omit [LinearOrder Time] [Add Time] [NatCast Time] in
theorem pushesTime_afterAutomaton (f : Bool) : (afterAutomaton f : Control E Time).PushesTime := by
  cases f <;> trivial

theorem step_pushesTime {s s' : Sys Q E Time} {a : Act E Time}
    (h : s.control.PushesTime ∧ .pushTime 0 ∉ s.trace) (hs : s.step S a = some s') :
    s'.control.PushesTime ∧ .pushTime 0 ∉ s'.trace := by
  obtain ⟨hc, ht⟩ := h
  have hseen : ∀ x : Effect Q E Time, x.control.PushesTime → .pushTime 0 ∉ x.seen →
      (s.apply x).control.PushesTime ∧ .pushTime 0 ∉ (s.apply x).trace := fun x hx hn =>
    ⟨hx, fun h => (List.mem_append.mp h).elim ht hn⟩
  cases a with
  | call c =>
    obtain ⟨-, rfl⟩ := Sys.step_call hs
    cases c with
    | acceptEvent e =>
      simp only [enter, acceptEvent]
      split_ifs <;> exact hseen _ trivial (by simp)
    | acceptTime now =>
      simp only [enter, acceptTime]
      split_ifs <;> exact hseen _ trivial (by simp)
    | acceptConfirmation => exact hseen _ trivial (by simp [enter])
  | tick frozen =>
    obtain ⟨x, hx, rfl⟩ := Sys.step_tick hs
    have hflow := tick_flow hx
    generalize s.control = c at hflow hc
    cases hflow with
    | endTime f now m' hp hn => exact hseen _ hn (by simp)
    | pushTime f now => exact hseen _ (pushesTime_afterAutomaton _) (by simpa using Ne.symm hc)
    | endNone | endFrozen => exact hseen _ (pushesTime_afterAutomaton _) (by simp)
    | _ => exact hseen _ trivial (by simp)

theorem pushTime_ne_zero {q : Q} {acts : List (Act E Time)} {s : Sys Q E Time}
    (h : runs (Sys.step S) (Sys.create q) acts = some s) : .pushTime 0 ∉ s.trace := by
  have hs : s.control.PushesTime ∧ .pushTime 0 ∉ s.trace := by
    refine runs_inv (I := fun s : Sys Q E Time => s.control.PushesTime ∧ .pushTime 0 ∉ s.trace)
      ⟨?_, ?_⟩ (fun _ _ _ => step_pushesTime) h
    · trivial
    · exact List.not_mem_nil
  exact hs.2

end

/-! ## events that have a time -/

section
variable (S : Setup E ℤ)

/-- the setup on the events whose time is at least 1 -/
def Setup.timed (hE : S.env.RewritesCode) : Setup {e : E // 1 ≤ S.env.timeOf e} ℤ where
  env := {
    pressP := fun e => S.env.pressP e
    releaseP := fun e => S.env.releaseP e
    timeOf := fun e => S.env.timeOf e
    detailOf := fun e => S.env.detailOf e
    ignoreEvent := fun e => S.env.ignoreEvent e
    rewriteEvent := fun e c => ⟨S.env.rewriteEvent e c, by rw [hE.timeOf]; exact e.2⟩ }
  config := S.config
  maxKeycode := S.maxKeycode
  stdLibrary := S.stdLibrary

/-- all times are the same -/
def sameClocks : Clocks ℤ ℤ where
  decision s d s' d' := s' = s ∧ d' = d
  release _ r r' := r' = r
  clock c c' := c' = c
  release_none := rfl
  clock_none := rfl

/-- 0 is 0 in both runs, any other time is shifted; the deadline is one -/
def shiftClocks (d : ℤ) : Clocks ℤ ℤ where
  decision s t s' t' := (0 < s ∧ s' = s + d) ∧ 0 < t ∧ t' = t + d
  release key r r' := key ≠ noKey → r' = r + d
  clock c c' := 0 ≤ c ∧ c' = shift d c
  release_none h := absurd rfl h
  clock_none := ⟨le_refl 0, rfl⟩

variable {S} {hE : S.env.RewritesCode} {Q Q' : Type}

theorem timed_alike : SetupAlike (S.timed hE) S Subtype.val := by
  constructor <;> intros <;> rfl

theorem timed_synchronous {g : Q → Q'} :
    Synchronous sameClocks g (S.timed hE) S Subtype.val id fun _ _ => True where
  setup := timed_alike
  zero := rfl
  clock h := ⟨h, by rw [h]⟩
  event _ := ⟨rfl, Iff.rfl⟩
  due h := h.2
  deadline e h := by
    rw [h.2]
    rfl
  timer h hc _ := by rw [h.2, show _ = _ from hc]
  release _ := rfl
  quick h _ _ := by
    rw [show _ = _ from h.release]
    rfl
  start _ _ := ⟨rfl, rfl⟩
  verify {m _ e} h _ hv := by
    have hs := guard_verdict (S.timed hE) m e
    rw [hv] at hs
    obtain ⟨hsus, hdec⟩ := h.decision (by rw [hs.1]; decide)
    refine ⟨hsus, ?_⟩
    rw [verifiedTime, verifiedTime, h.suspect, hsus, hdec]
    rfl

theorem shift_synchronous {g : Q → Q'} (hI : S.config.NonNegative) {d : ℤ} (hd : 0 ≤ d)
    {later : E → E} (hL : S.env.Later d later) :
    Synchronous (shiftClocks d) g (S.timed hE) S (fun e => later e) (shift d)
      fun _ _ => True where
  setup := {
    pressP := fun e => hL.pressP e
    releaseP := fun e => hL.releaseP e
    detailOf := fun e => hL.detailOf e
    ignoreEvent := fun e => hL.ignoreEvent e
    rewriteEvent := fun e => hL.rewriteEvent e
    forkKeycode := rfl
    forkRepeatable := rfl
    considerForks := rfl
    maxKeycode := rfl
    stdLibrary := rfl }
  zero := rfl
  clock h := by
    refine ⟨h.2, ?_⟩
    rw [h.2, shift]
    split_ifs with hz
    · simp [hz]
    · have := h.1
      omega
  event e := by
    have he : 1 ≤ (S.timed hE).env.timeOf e := e.2
    rw [hL.timeOf, shift_of_pos (by omega)]
    refine ⟨rfl, ?_⟩
    show (S.timed hE).env.timeOf e + d = 0 ↔ _
    omega
  due h := by rw [h.2.2, shift_of_pos h.2.1]
  deadline e h := by
    rw [h.2.2, hL.timeOf]
    exact (add_le_add_iff_right d).symm
  timer h hc hz := by
    rw [h.2.2, hc.2, shift, if_neg hz]
    exact (add_le_add_iff_right d).symm
  release e _ := hL.timeOf e
  quick {m m' e} h _ hr := by
    rw [show m'.lastReleasedTime = m.lastReleasedTime + d from
      h.release (hr.2.2.2.2.2.1 ▸ hr.2.2.2.2.2.2), hL.timeOf]
    show _ ↔ m.lastReleasedTime + d + S.config.repeatMax < (S.timed hE).env.timeOf e + d
    rw [show (S.timed hE).config = S.config from rfl]
    omega
  start {m e} _ _ := by
    have he : 1 ≤ (S.timed hE).env.timeOf e := e.2
    have hi := hI.interval ((S.timed hE).env.detailOf e) noKey
    refine ⟨⟨by omega, hL.timeOf e⟩, ?_, ?_⟩
    · show 0 < (S.timed hE).env.timeOf e + S.config.verificationIntervalOf _ noKey
      omega
    · rw [hL.timeOf]
      show (S.timed hE).env.timeOf e + d + S.config.verificationIntervalOf _ noKey =
        (S.timed hE).env.timeOf e + S.config.verificationIntervalOf _ noKey + d
      omega
  verify {m m' e} h _ hv := by
    have he : 1 ≤ (S.timed hE).env.timeOf e := e.2
    have hs := guard_verdict (S.timed hE) m e
    rw [hv] at hs
    obtain ⟨⟨hpos, hsus⟩, hdpos, hdec⟩ := h.decision (by rw [hs.1]; decide)
    have hcode : S.env.detailOf (later e) = (S.timed hE).env.detailOf e := hL.detailOf e
    have htime : S.env.timeOf (later e) = (S.timed hE).env.timeOf e + d := hL.timeOf e
    refine ⟨⟨hpos, hsus⟩, lt_min hdpos (hI.verifier_pos hpos (by omega) _ _), ?_⟩
    rw [verifiedTime, verifiedTime, h.suspect, hsus, hdec, hcode, htime, verifier_shift,
      min_add_add_right]
    rfl

/-! ## runs -/

theorem exists_timed {acts : List (Act E ℤ)} (h : ∀ t ∈ times S.env (calls acts), 1 ≤ t) :
    ∃ timed : List (Act {e : E // 1 ≤ S.env.timeOf e} ℤ),
      timed.map (Act.map Subtype.val id) = acts := by
  have hrange : acts ∈ Set.range (List.map (Act.map (Subtype.val (p := fun e : E =>
      1 ≤ S.env.timeOf e)) (id : ℤ → ℤ))) := by
    rw [Set.range_list_map]
    intro a ha
    cases a with
    | tick frozen => exact ⟨.tick frozen, rfl⟩
    | call c =>
      cases c with
      | acceptEvent e =>
        have ht : S.env.timeOf e ∈ times S.env (calls acts) :=
          List.mem_filterMap.mpr ⟨_, mem_calls.mpr ha, rfl⟩
        exact ⟨.call (.acceptEvent ⟨e, h _ ht⟩), rfl⟩
      | acceptTime now => exact ⟨.call (.acceptTime now), rfl⟩
      | acceptConfirmation => exact ⟨.call .acceptConfirmation, rfl⟩
  exact hrange

/-- where every timer has a time, all of it is shifted -/
theorem map_later {E' : Type} {f : E' → E} {later : E → E} {d : ℤ} {acts : List (Act E' ℤ)}
    (h : ∀ now, .call (.acceptTime now) ∈ acts → 1 ≤ now) :
    (acts.map (Act.map f id)).map (Act.map later (· + d))
      = acts.map (Act.map (fun e => later (f e)) (shift d)) := by
  rw [List.map_map]
  refine List.map_congr_left fun a ha => ?_
  cases a with
  | tick frozen => rfl
  | call c =>
    cases c with
    | acceptTime now =>
      have hnow := h now ha
      show Act.call (.acceptTime (now + d)) = Act.call (.acceptTime (shift d now))
      rw [shift_of_pos (by omega)]
    | _ => rfl

theorem shifted_trace {E' : Type} {f : E' → E} {later : E → E} {d : ℤ} {trace : List (Obs E' ℤ)}
    (h : .pushTime 0 ∉ trace) :
    trace.map (Obs.map (fun e => later (f e)) (shift d))
      = (trace.map (Obs.map f id)).map (Obs.shifted later d) := by
  rw [List.map_map]
  refine List.map_congr_left fun x hx => ?_
  cases x with
  | pushTime now =>
    have hnow : now ≠ 0 := fun hz => h (hz ▸ hx)
    exact congrArg Obs.pushTime (if_neg hnow)
  | _ => rfl

/-- **The shifted run shows the same, shifted.** -/
theorem shifted (hE : S.env.RewritesCode) (hI : S.config.NonNegative) {d : ℤ} (hd : 0 ≤ d)
    {later : E → E} (hL : S.env.Later d later) (c : ℕ) {acts : List (Act E ℤ)}
    (hpos : ∀ t ∈ times S.env (calls acts), 1 ≤ t) :
    (runs (Sys.step S) (Sys.create (Triqueue.create c)) (acts.map (Act.map later (· + d)))).map
        Sys.trace
      = (runs (Sys.step S) (Sys.create (Triqueue.create c)) acts).map
        fun s => s.trace.map (Obs.shifted later d) := by
  obtain ⟨timed, rfl⟩ := exists_timed hpos
  have htime : ∀ now, .call (.acceptTime now) ∈ timed → 1 ≤ now := by
    intro now hnow
    refine hpos now (List.mem_filterMap.mpr ⟨.acceptTime now, mem_calls.mpr ?_, rfl⟩)
    exact List.mem_map.mpr ⟨_, hnow, rfl⟩
  have hall : EachEvent (S.timed hE) (Triqueue.create c) (fun _ _ => True) timed :=
    fun _ _ _ _ _ _ _ _ _ => trivial
  have hsame := lockstep (Triqueue.mapped Subtype.val) timed_synchronous
    (fun now _ => ⟨rfl, fun c c' hc => by rw [show c' = c from hc]; rfl⟩) hall
  have hshift := lockstep (Triqueue.mapped fun e => later e.val) (shift_synchronous hI hd hL)
    ?_ hall
  · rw [Triqueue.map_create] at hsame hshift
    rw [map_later htime]
    generalize hu : runs (Sys.step (S.timed hE)) (Sys.create (Triqueue.create c)) timed = u
      at hsame hshift
    generalize runs (Sys.step S) (Sys.create (Triqueue.create c))
      (timed.map (Act.map Subtype.val id)) = v at hsame ⊢
    generalize runs (Sys.step S) (Sys.create (Triqueue.create c))
      (timed.map (Act.map (fun e => later e.val) (shift d))) = w at hshift ⊢
    cases hsame with
    | none =>
      cases hshift
      rfl
    | some hv =>
      cases hshift with
      | some hw =>
        simp only [Option.map_some, hv.trace, hw.trace]
        rw [shifted_trace (pushTime_ne_zero hu)]
  · intro now hnow
    have h1 := htime now hnow
    refine ⟨⟨by omega, rfl⟩, ?_⟩
    rintro b b' ⟨hb, rfl⟩
    rw [shift_of_pos (by omega), shift]
    split_ifs <;> omega

end

/-- the setup of the tests, with exact times -/
abbrev exactSetup : Setup TestEvent ℤ := testSetup.retimed Nat.cast

theorem exactSetup_nonNegative : exactSetup.config.NonNegative := by
  constructor <;> intro code verificator
  · simp only [ForkConfiguration.verificationIntervalOf, exactSetup, Setup.retimed,
      ForkConfiguration.retimed, testSetup, testConfiguration, Option.map_some,
      getValueFromMatrix, ParameterMatrices.retimed]
    split_ifs <;> exact Int.natCast_nonneg _
  · simp only [ForkConfiguration.overlapToleranceOf, exactSetup, Setup.retimed,
      ForkConfiguration.retimed, testSetup, testConfiguration, Option.map_some,
      getValueFromMatrix, ParameterMatrices.retimed]
    split_ifs <;> exact Int.natCast_nonneg _

def fiveLater (e : TestEvent) : TestEvent := { e with time := e.time + 5 }

theorem shifted_fork : ∃ acts : List (Act TestEvent ℤ), ∃ u v,
    runs (Sys.step exactSetup) (Sys.create (Triqueue.create 2)) acts = some u ∧
    runs (Sys.step exactSetup) (Sys.create (Triqueue.create 2))
      (acts.map (Act.map fiveLater (· + 5))) = some v ∧
    u.trace.length = 15 ∧ Obs.pushTime (100 : ℤ) ∈ u.trace ∧ Obs.pushTime (105 : ℤ) ∈ v.trace ∧
    v.trace = u.trace.map (Obs.shifted fiveLater 5) := by
  let acts : List (Act TestEvent ℤ) := typedUnderFork.map (Act.map id Nat.cast)
  have hu := Option.eq_some_of_isSome
    (o := runs (Sys.step exactSetup) (Sys.create (Triqueue.create 2)) acts) (by decide)
  have hv := Option.eq_some_of_isSome (o := runs (Sys.step exactSetup)
    (Sys.create (Triqueue.create 2)) (acts.map (Act.map fiveLater (· + 5)))) (by decide)
  refine ⟨acts, _, _, hu, hv, by decide, by decide, by decide, ?_⟩
  have hL : exactSetup.env.Later 5 fiveLater := by
    constructor <;> intros <;> rfl
  have hpos : ∀ t ∈ times exactSetup.env (calls acts), 1 ≤ t := by decide
  have h := shifted (testEnvironment_lawful.toRewritesCode.retimed _) exactSetup_nonNegative
    (by decide) hL 2 hpos
  rw [hu, hv] at h
  exact Option.some.inj h

end ForkNS
