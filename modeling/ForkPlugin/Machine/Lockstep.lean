import ForkPlugin.Machine.Clocks
import ForkPlugin.Machine.Flow

/-!
# Two systems in lockstep

Where the times of one machine are an image of those of another, the two take the same steps.

* `Call.map`, `Act.map`, `Control.map`, `Obs.map`   with other events and other times;
* `Synchronous`     the clocks agree at every comparison, but for the sums that depend on the state:
                    for these a condition `Ok` on the machine and its next event is left;
* `SysLike`         the systems are alike, with the same control and trace;
* `EachEvent`       every event that an iteration reads in a run satisfies a condition;
* `lockstep`        as long as every event is `Ok`, both runs stay alike, or stop together.
-/

namespace ForkNS

open Runs Machine TriqueueOps

variable {Q Q' E E' Time Time' : Type}

section
variable (f : E → E') (o : Time → Time')

def Call.map : Call E Time → Call E' Time'
  | .acceptEvent pevent => .acceptEvent (f pevent)
  | .acceptTime now => .acceptTime (o now)
  | .acceptConfirmation => .acceptConfirmation

def Act.map : Act E Time → Act E' Time'
  | .call c => .call (c.map f o)
  | .tick frozen => .tick frozen

def Control.map : Control E Time → Control E' Time'
  | .idle => .idle
  | .runAutomaton forceAlso => .runAutomaton forceAlso
  | .automatonLoop forceAlso => .automatonLoop forceAlso
  | .flushLoop forceAlso => .flushLoop forceAlso
  | .relayEvent forceAlso pevent => .relayEvent forceAlso (f pevent)
  | .flushEnd forceAlso => .flushEnd forceAlso
  | .pushTime forceAlso now => .pushTime forceAlso (o now)
  | .nextDecisionTime => .nextDecisionTime
  | .relock => .relock

def Obs.map : Obs E Time → Obs E' Time'
  | .outputFrozen answer => .outputFrozen answer
  | .relayEvent pevent => .relayEvent (f pevent)
  | .pushTime now => .pushTime (o now)
  | .returned next => .returned (o next)

theorem relayed_map (trace : List (Obs E Time)) :
    relayed (trace.map (Obs.map f o)) = (relayed trace).map f := by
  rw [relayed, relayed, List.filterMap_map, List.map_filterMap]
  refine List.filterMap_congr fun x _ => ?_
  cases x <;> rfl

theorem map_afterAutomaton (forceAlso : Bool) :
    (afterAutomaton forceAlso : Control E Time).map f o = afterAutomaton forceAlso := by
  cases forceAlso <;> rfl

end

/-! ## effects -/

section
variable [Zero Time] [Zero Time']

structure EffectLike (K : Clocks Time Time') (g : Q → Q') (f : E → E') (o : Time → Time')
    (x : Effect Q E Time) (x' : Effect Q' E' Time') : Prop where
  machine : Like K g x.machine x'.machine
  control : x'.control = x.control.map f o
  pushed : x'.pushed = x.pushed.map f
  seen : x'.seen = x.seen.map (Obs.map f o)

structure SysLike (K : Clocks Time Time') (g : Q → Q') (f : E → E') (o : Time → Time')
    (s : Sys Q E Time) (s' : Sys Q' E' Time') : Prop where
  machine : Like K g s.machine s'.machine
  control : s'.control = s.control.map f o
  pushed : s'.pushed = s.pushed.map f
  trace : s'.trace = s.trace.map (Obs.map f o)

variable {K : Clocks Time Time'} {g : Q → Q'} {f : E → E'} {o : Time → Time'}

theorem SysLike.apply {s : Sys Q E Time} {s' : Sys Q' E' Time'} (h : SysLike K g f o s s')
    {x : Effect Q E Time} {x' : Effect Q' E' Time'} (hx : EffectLike K g f o x x') :
    SysLike K g f o (s.apply x) (s'.apply x') where
  machine := hx.machine
  control := hx.control
  pushed := by
    rw [Sys.apply, Sys.apply, h.pushed, hx.pushed, List.map_append]
  trace := by
    rw [Sys.apply, Sys.apply, h.trace, hx.seen, List.map_append]

theorem create_sysLike (q : Q) : SysLike K g f o (Sys.create q) (Sys.create (g q)) :=
  ⟨create_like q, rfl, rfl, rfl⟩

section
variable [LinearOrder Time] [LinearOrder Time'] [TriqueueOps Q E] [TriqueueOps Q' E']
  {S : Setup E Time} {S' : Setup E' Time'}

/-- the first block of a call; only `accept_time` compares times -/
theorem Machine.Like.enter (hg : TriqueueMap g f) {m : Machine Q Time} {m' : Machine Q' Time'}
    (h : Like K g m m') (hS : SetupAlike S S' f) (hz : o 0 = 0) {c : Call E Time}
    (hc : ∀ now, c = .acceptTime now →
      K.clock now (o now) ∧ (now < m.mCurrentTime ↔ o now < m'.mCurrentTime)) :
    EffectLike K g f o (enter S m c) (enter S' m' (c.map f o)) := by
  cases c with
  | acceptConfirmation => exact ⟨h, rfl, rfl, rfl⟩
  | acceptTime now =>
    obtain ⟨hclock, hback⟩ := hc now rfl
    simp only [Call.map, ForkNS.enter, acceptTime]
    by_cases hb : m.mCurrentTime > now
    · rw [if_pos hb, if_pos (show m'.mCurrentTime > o now from hback.mp hb)]
      exact ⟨h, rfl, rfl, rfl⟩
    · rw [if_neg hb,
        if_neg (show ¬m'.mCurrentTime > o now from fun h' => hb (hback.mpr h'))]
      refine ⟨?_, rfl, rfl, rfl⟩
      cases h with
      | mk s v r d _ b hd hr _ =>
        exact .mk { m with mCurrentTime := now } s v r d (o now) b hd hr hclock
  | acceptEvent e =>
    have hclear : Like K g { m with mCurrentTime := 0 } { m' with mCurrentTime := 0 } := by
      cases h with
      | mk s v r d _ b hd hr _ =>
        exact .mk { m with mCurrentTime := 0 } s v r d 0 b hd hr K.clock_none
    simp only [Call.map, ForkNS.enter, acceptEvent, hS.detailOf, hS.pressP,
      hS.maxKeycode]
    by_cases hmax : S.env.detailOf e > S.maxKeycode
    · rw [if_pos hmax, if_pos hmax]
      exact ⟨hclear, rfl, rfl, by simp [Obs.map, hz]⟩
    rw [if_neg hmax, if_neg hmax]
    change EffectLike K g f o (if (S.env.pressP e && m.keyForked (S.env.detailOf e)) = true then _
      else _) (if (S.env.pressP e && m'.keyForked (S.env.detailOf e)) = true then _ else _)
    rw [h.keyForked]
    by_cases hp : (S.env.pressP e && m.keyForked (S.env.detailOf e)) = true
    · rw [if_pos hp, if_pos hp]
      exact ⟨hclear, rfl, rfl, rfl⟩
    · rw [if_neg hp, if_neg hp]
      refine ⟨hclear.setQueue ?_, rfl, rfl, rfl⟩
      rw [← hg.push, h.tq]

end

end

/-! ## what an iteration reads -/

section
variable [TriqueueOps Q E]

/-- the event that the next iteration of the loop reads -/
def nextEvent (s : Sys Q E Time) : Option E :=
  match s.control with
  | .automatonLoop _ => if thirdEmpty s.machine.tq then none else peekThird s.machine.tq
  | _ => none

variable [LinearOrder Time] [Add Time] [Zero Time] [NatCast Time]

/-- every event that an iteration of the run reads satisfies `Ok` -/
abbrev EachEvent (S : Setup E Time) (q : Q) (Ok : Machine Q Time → E → Prop)
    (acts : List (Act E Time)) : Prop :=
  EachStep (Sys.step S) (Sys.create q)
    (fun u a => a = .tick false → ∀ e ∈ nextEvent u, Ok u.machine e) acts

end

/-! ## what the clocks have to agree on -/

section
variable [LinearOrder Time] [Add Time] [Zero Time] [NatCast Time]
  [LinearOrder Time'] [Add Time'] [Zero Time'] [NatCast Time']

structure Synchronous (K : Clocks Time Time') (g : Q → Q') (S : Setup E Time)
    (S' : Setup E' Time') (f : E → E') (o : Time → Time') (Ok : Machine Q Time → E → Prop) :
    Prop where
  setup : SetupAlike S S' f
  zero : o 0 = 0
  clock : ∀ {c c'}, K.clock c c' → c' = o c ∧ (c' = 0 ↔ c = 0)
  event : ∀ e, S'.env.timeOf (f e) = o (S.env.timeOf e) ∧
    (S'.env.timeOf (f e) = 0 ↔ S.env.timeOf e = 0)
  due : ∀ {s d s' d'}, K.decision s d s' d' → d' = o d
  deadline : ∀ {s d s' d'} e, K.decision s d s' d' →
    (d ≤ S.env.timeOf e ↔ d' ≤ S'.env.timeOf (f e))
  timer : ∀ {s d s' d' c c'}, K.decision s d s' d' → K.clock c c' → c ≠ 0 → (d ≤ c ↔ d' ≤ c')
  release : ∀ e, K.release (S.env.detailOf e) (S.env.timeOf e) (S'.env.timeOf (f e))
  quick : ∀ {m : Machine Q Time} {m' : Machine Q' Time'} {e}, Like K g m m' → Ok m e →
    m.ReadsRelease S e → (m.lastReleasedTime + S.config.repeatMax < S.env.timeOf e ↔
      m'.lastReleasedTime + S'.config.repeatMax < S'.env.timeOf (f e))
  start : ∀ {m : Machine Q Time} {e}, Ok m e → m.verdict S e = .startSuspect →
    K.decision (S.env.timeOf e)
      (S.env.timeOf e + S.config.verificationIntervalOf (S.env.detailOf e) noKey)
      (S'.env.timeOf (f e))
      (S'.env.timeOf (f e) + S'.config.verificationIntervalOf (S.env.detailOf e) noKey)
  verify : ∀ {m : Machine Q Time} {m' : Machine Q' Time'} {e}, Like K g m m' → Ok m e →
    m.verdict S e = .verify →
    K.decision m.suspectTime (m.verifiedTime S e) m'.suspectTime (m'.verifiedTime S' (f e))

/-- a time that a call may bring -/
def Admits (K : Clocks Time Time') (o : Time → Time') (now : Time) : Prop :=
  K.clock now (o now) ∧ ∀ c c', K.clock c c' → (now < c ↔ o now < c')

variable {K : Clocks Time Time'} {g : Q → Q'} {S : Setup E Time} {S' : Setup E' Time'}
  {f : E → E'} {o : Time → Time'} {Ok : Machine Q Time → E → Prop}
  {m : Machine Q Time} {m' : Machine Q' Time'}

theorem Synchronous.tests (hK : Synchronous K g S S' f o Ok) (h : Like K g m m') {e : E}
    (hok : Ok m e) : TestsAlike K S S' f m m' e where
  deadline hd := hK.deadline e (h.decision hd.1)
  quick := hK.quick h hok
  release _ := hK.release e
  start := hK.start hok
  verify := hK.verify h hok

theorem Synchronous.timerDue (hK : Synchronous K g S S' f o Ok) (h : Like K g m m') :
    m.TimerDue ↔ m'.TimerDue := by
  have hzero := (hK.clock h.clock).2
  constructor
  · rintro ⟨hs, hc, hd⟩
    exact ⟨h.state ▸ hs, fun hz => hc (hzero.mp hz), (hK.timer (h.decision hs) h.clock hc).mp hd⟩
  · rintro ⟨hs, hc, hd⟩
    rw [h.state] at hs
    have hc' : m.mCurrentTime ≠ 0 := fun hz => hc (hzero.mpr hz)
    exact ⟨hs, hc', (hK.timer (h.decision hs) h.clock hc').mpr hd⟩

theorem Synchronous.nextDecisionTime (hK : Synchronous K g S S' f o Ok) (h : Like K g m m') :
    m'.nextDecisionTime = o m.nextDecisionTime := by
  unfold Machine.nextDecisionTime
  rw [h.state]
  split_ifs with hs
  · refine hK.due (h.decision ?_)
    rcases hs with hs | hs <;> rw [hs] <;> decide
  · exact hK.zero.symm

variable [TriqueueOps Q E] [TriqueueOps Q' E'] (hg : TriqueueMap g f)
include hg

/-! ## steps -/

theorem Synchronous.enter (hK : Synchronous K g S S' f o Ok) (h : Like K g m m')
    {c : Call E Time} (hc : ∀ now, c = .acceptTime now → Admits K o now) :
    EffectLike K g f o (enter S m c) (enter S' m' (c.map f o)) := by
  refine h.enter hg hK.setup hK.zero fun now hnow => ?_
  obtain ⟨hclock, hback⟩ := hc now hnow
  exact ⟨hclock, hback _ _ h.clock⟩

/-- **One step of a call**, where the iteration of the loop, the time handed over and the value
returned are alike. -/
theorem Machine.Like.tick (h : Like K g m m') (hS : SetupAlike S S' f) {frozen : Bool}
    {c : Control E Time}
    (hbody : ∀ b, frozen = false → c = .automatonLoop b →
      Like K g (m.automatonBody S b).1 (m'.automatonBody S' b).1 ∧
        (m'.automatonBody S' b).2 = (m.automatonBody S b).2)
    (hnow : ∀ b, frozen = false → c = .flushEnd b →
      (m'.pushTimeToNext S').1 = o (m.pushTimeToNext S).1 ∧
        ((m'.pushTimeToNext S').1 = 0 ↔ (m.pushTimeToNext S).1 = 0))
    (hnext : c = .nextDecisionTime ∨ c = .relock → m'.nextDecisionTime = o m.nextDecisionTime) :
    Option.Rel (EffectLike K g f o) (ForkNS.tick S m frozen c)
      (ForkNS.tick S' m' frozen (c.map f o)) := by
  have hreturned : c = .nextDecisionTime ∨ c = .relock → [Obs.returned m'.nextDecisionTime]
      = [(Obs.returned m.nextDecisionTime : Obs E Time)].map (Obs.map f o) := fun hc => by
    rw [hnext hc]
    rfl
  cases c with
  | idle => exact .none
  | runAutomaton b => exact .some ⟨h, rfl, rfl, rfl⟩
  | automatonLoop b =>
    cases frozen with
    | true => exact .some ⟨h, rfl, rfl, rfl⟩
    | false =>
      obtain ⟨hlike, hagain⟩ := hbody b rfl rfl
      refine .some ⟨hlike, ?_, rfl, rfl⟩
      show (if (m'.automatonBody S' b).2 then Control.automatonLoop b else .flushLoop b) =
        (if (m.automatonBody S b).2 then Control.automatonLoop b else .flushLoop b).map f o
      rw [hagain]
      cases (m.automatonBody S b).2 <;> rfl
  | flushLoop b =>
    cases frozen with
    | true => exact .some ⟨h, rfl, rfl, rfl⟩
    | false =>
      obtain ⟨hitem, hpop⟩ := h.popEventIfPresent hg
      rcases hm : m.popEventIfPresent with ⟨item, m₁⟩
      rcases hm' : m'.popEventIfPresent with ⟨item', m₁'⟩
      rw [hm, hm'] at hitem hpop
      obtain rfl : item' = item.map f := hitem
      cases item with
      | none =>
        simp only [Control.map, ForkNS.tick, hm, hm']
        exact .some ⟨hpop, rfl, rfl, rfl⟩
      | some e =>
        simp only [Control.map, ForkNS.tick, hm, hm']
        exact .some ⟨hpop, rfl, rfl, rfl⟩
  | relayEvent b e => exact .some ⟨h, rfl, rfl, rfl⟩
  | flushEnd b =>
    cases frozen with
    | true => exact .some ⟨h, (map_afterAutomaton f o b).symm, rfl, rfl⟩
    | false =>
      obtain ⟨hpush, -⟩ := h.pushTimeToNext S S' hg
      obtain ⟨hsame, hzero⟩ := hnow b rfl rfl
      refine .some ⟨hpush, ?_, rfl, rfl⟩
      show (if (m'.pushTimeToNext S').1 ≠ 0 then Control.pushTime b (m'.pushTimeToNext S').1
          else afterAutomaton b) =
        (if (m.pushTimeToNext S).1 ≠ 0 then Control.pushTime b (m.pushTimeToNext S).1
          else afterAutomaton b).map f o
      by_cases hz : (m.pushTimeToNext S).1 = 0
      · rw [if_neg (not_not.mpr (hzero.mpr hz)), if_neg (not_not.mpr hz), map_afterAutomaton]
      · rw [if_pos (fun h => hz (hzero.mp h)), if_pos hz, hsame]
        rfl
  | pushTime b now => exact .some ⟨h, (map_afterAutomaton f o b).symm, rfl, rfl⟩
  | nextDecisionTime => exact .some ⟨h, rfl, rfl, hreturned (.inl rfl)⟩
  | relock =>
    simp only [Control.map, ForkNS.tick, hS.stdLibrary]
    split_ifs
    · exact .none
    · exact .some ⟨h, rfl, rfl, hreturned (.inr rfl)⟩

theorem Synchronous.tick (hK : Synchronous K g S S' f o Ok) (h : Like K g m m') (frozen : Bool)
    (c : Control E Time)
    (hok : ∀ b, frozen = false → c = .automatonLoop b → ∀ e, thirdEmpty m.tq = false →
      peekThird m.tq = some e → Ok m e) :
    Option.Rel (EffectLike K g f o) (tick S m frozen c) (tick S' m' frozen (c.map f o)) := by
  refine h.tick hg hK.setup (fun b hf hc => ?_) (fun b hf hc => ?_)
    fun _ => hK.nextDecisionTime h
  · exact h.automatonBody hg hK.setup b
      (fun e hi hp => hK.tests h (hok b hf hc e hi hp)) fun _ => hK.timerDue h
  · obtain ⟨-, hclock | ⟨e, he, he'⟩⟩ := h.pushTimeToNext S S' hg
    · exact hK.clock hclock
    · rw [he, he']
      exact hK.event e

theorem Synchronous.step (hK : Synchronous K g S S' f o Ok) {s : Sys Q E Time}
    {s' : Sys Q' E' Time'} (h : SysLike K g f o s s') {a : Act E Time}
    (hcall : ∀ now, a = .call (.acceptTime now) → Admits K o now)
    (hok : a = .tick false → ∀ e ∈ nextEvent s, Ok s.machine e) :
    Option.Rel (SysLike K g f o) (s.step S a) (s'.step S' (a.map f o)) := by
  cases a with
  | tick frozen =>
    have htick := hK.tick hg h.machine frozen s.control fun b hf hc e hi hp => by
      refine hok (by rw [hf]) e ?_
      simp [nextEvent, hc, hi, hp]
    simp only [Act.map, Sys.step, h.control]
    generalize ForkNS.tick S s.machine frozen s.control = x at htick ⊢
    generalize ForkNS.tick S' s'.machine frozen (s.control.map f o) = x' at htick ⊢
    cases htick with
    | none => exact .none
    | some hx => exact .some (h.apply hx)
  | call c =>
    simp only [Act.map, Sys.step, h.control]
    cases hcs : s.control with
    | idle =>
      refine .some (h.apply (hK.enter hg h.machine fun now hnow => hcall now (by rw [hnow])))
    | _ => exact .none

/-- **The runs stay alike, or stop together.** -/
theorem lockstep (hK : Synchronous K g S S' f o Ok) {q : Q} {acts : List (Act E Time)}
    (hcalls : ∀ now, .call (.acceptTime now) ∈ acts → Admits K o now)
    (hok : EachEvent S q Ok acts) :
    Option.Rel (SysLike K g f o) (runs (Sys.step S) (Sys.create q) acts)
      (runs (Sys.step S') (Sys.create (g q)) (acts.map (Act.map f o))) := by
  induction acts using List.reverseRecOn with
  | nil => exact .some (create_sysLike q)
  | append_singleton acts a ih =>
    have hrel := ih (fun now hnow => hcalls now (List.mem_append_left _ hnow)) hok.left
    rw [List.map_append, List.map_singleton, runs_snoc, runs_snoc]
    generalize hu : runs (Sys.step S) (Sys.create q) acts = u at hrel ⊢
    generalize runs (Sys.step S') (Sys.create (g q)) (acts.map (Act.map f o)) = u' at hrel ⊢
    cases hrel with
    | none => exact .none
    | some h =>
      refine hK.step hg h (fun now hnow => hcalls now ?_) fun ha => ?_
      · simp [hnow]
      · exact hok.last hu ha

end

end ForkNS
