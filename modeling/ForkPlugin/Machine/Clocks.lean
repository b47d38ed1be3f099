import ForkPlugin.Machine.Calls
import ForkPlugin.Machine.Respond
import ForkPlugin.Queue.Map

/-!
# Two machines with different clocks

Two machines read the same keys, but their times are of different types, or told by different
clocks.  They stay in step as long as their comparisons of times come out alike.

* `SetupAlike`      environment and configuration differ in their times only;
* `Setup.retimed`   all times of a setup are read through a function;
* `Clocks`          how the times that the machines store are related;
* `Like`            the machines agree in all but their times, and these are related;
* `ReadsDeadline`, `ReadsRelease`   an event is compared with the deadline, with the last release;
* `TestsAlike`      these comparisons come out alike, and so do the new deadlines;
* `Like.verdict`    then both take the same verdict;
* `Like.respond`, `Like.automatonBody`   and are alike after it.
-/

namespace ForkNS

open TriqueueOps

variable {Q Q' E E' Time Time' : Type}

/-- `S'` reads from `f e` what `S` reads from `e`, but for the time -/
structure SetupAlike (S : Setup E Time) (S' : Setup E' Time') (f : E → E') : Prop where
  pressP : ∀ e, S'.env.pressP (f e) = S.env.pressP e
  releaseP : ∀ e, S'.env.releaseP (f e) = S.env.releaseP e
  detailOf : ∀ e, S'.env.detailOf (f e) = S.env.detailOf e
  ignoreEvent : ∀ e, S'.env.ignoreEvent (f e) = S.env.ignoreEvent e
  rewriteEvent : ∀ e c, S'.env.rewriteEvent (f e) c = f (S.env.rewriteEvent e c)
  forkKeycode : S'.config.forkKeycode = S.config.forkKeycode
  forkRepeatable : S'.config.forkRepeatable = S.config.forkRepeatable
  considerForks : S'.config.considerForksForRepeat = S.config.considerForksForRepeat
  maxKeycode : S'.maxKeycode = S.maxKeycode
  stdLibrary : S'.stdLibrary = S.stdLibrary

/-- the same environment, with another reading of its clock -/
def Environment.retimed (env : Environment E Time) (o : Time → Time') : Environment E Time' where
  pressP := env.pressP
  releaseP := env.releaseP
  timeOf e := o (env.timeOf e)
  detailOf := env.detailOf
  ignoreEvent := env.ignoreEvent
  rewriteEvent := env.rewriteEvent

theorem Environment.RewritesCode.retimed {env : Environment E Time} (hE : env.RewritesCode)
    (o : Time → Time') : (env.retimed o).RewritesCode :=
  ⟨hE.pressP, hE.releaseP, fun e c => congrArg o (hE.timeOf e c)⟩

def ParameterMatrices.retimed (matrices : ParameterMatrices Time) (o : Time → Time') :
    ParameterMatrices Time' where
  overlapTolerance code verificator := o (matrices.overlapTolerance code verificator)
  verificationInterval code verificator := o (matrices.verificationInterval code verificator)

def ForkConfiguration.retimed (config : ForkConfiguration Time) (o : Time → Time') :
    ForkConfiguration Time' where
  forkKeycode := config.forkKeycode
  forkRepeatable := config.forkRepeatable
  matrices := config.matrices.map fun matrices => matrices.retimed o
  repeatMax := o config.repeatMax
  considerForksForRepeat := config.considerForksForRepeat

def Setup.retimed (S : Setup E Time) (o : Time → Time') : Setup E Time' :=
  ⟨S.env.retimed o, S.config.retimed o, S.maxKeycode, S.stdLibrary⟩

theorem setupAlike_retimed (S : Setup E Time) (o : Time → Time') :
    SetupAlike S (S.retimed o) id := by
  constructor <;> intros <;> rfl

/-! ## the intervals of such a configuration -/

section
variable [LinearOrder Time] [Zero Time] [NatCast Time] [LinearOrder Time'] [Zero Time']
  [NatCast Time'] {o : Time → Time'} (ho : ∀ t, o t = 0 ↔ t = 0) (code verificator : Keycode)
include ho

omit [NatCast Time] [NatCast Time'] in
theorem getValueFromMatrix_retimed (matrix : ParameterMatrix Time) :
    getValueFromMatrix (fun i j => o (matrix i j)) code verificator
      = o (getValueFromMatrix matrix code verificator) := by
  simp only [getValueFromMatrix, ne_eq, ho]
  split_ifs <;> rfl

theorem ForkConfiguration.verificationIntervalOf_retimed (config : ForkConfiguration Time)
    (hdefault : o ((200 : Nat) : Time) = ((200 : Nat) : Time')) :
    (config.retimed o).verificationIntervalOf code verificator
      = o (config.verificationIntervalOf code verificator) := by
  rcases config with ⟨fk, fr, - | m, rm, cf⟩
  · exact hdefault.symm
  · exact getValueFromMatrix_retimed ho code verificator m.verificationInterval

theorem ForkConfiguration.overlapToleranceOf_retimed (config : ForkConfiguration Time)
    (hdefault : o ((100 : Nat) : Time) = ((100 : Nat) : Time')) :
    (config.retimed o).overlapToleranceOf code verificator
      = o (config.overlapToleranceOf code verificator) := by
  rcases config with ⟨fk, fr, - | m, rm, cf⟩
  · exact hdefault.symm
  · exact getValueFromMatrix_retimed ho code verificator m.overlapTolerance

end

/-- how stored times are related: `suspect_time` and `mDecision_time` together, the time of the
last release with its key, and `mCurrent_time` -/
structure Clocks (Time Time' : Type) [Zero Time] [Zero Time'] where
  decision : Time → Time → Time' → Time' → Prop
  release : Keycode → Time → Time' → Prop
  clock : Time → Time' → Prop
  release_none : release noKey 0 0
  clock_none : clock 0 0

namespace Machine

/-- the same machine with other times, and another log of bugs -/
def retimed (m : Machine Q Time) (q : Q')
    (suspectTime verificatorTime lastReleasedTime mDecisionTime mCurrentTime : Time')
    (bugs : List Bug) : Machine Q' Time' where
  state := m.state
  suspect := m.suspect
  suspectTime := suspectTime
  verificatorKeycode := m.verificatorKeycode
  verificatorTime := verificatorTime
  lastReleased := m.lastReleased
  lastReleasedTime := lastReleasedTime
  mDecisionTime := mDecisionTime
  mCurrentTime := mCurrentTime
  forkActive := m.forkActive
  tq := q
  bugs := bugs

/-- the machines agree in all but their times; nothing is said of the times that are not read, nor
of the logs -/
inductive Like [Zero Time] [Zero Time'] (K : Clocks Time Time') (g : Q → Q') :
    Machine Q Time → Machine Q' Time' → Prop
  | mk (m : Machine Q Time) (s v r d c : Time') (b : List Bug)
      (hd : m.state ≠ .normal → K.decision m.suspectTime m.mDecisionTime s d)
      (hr : K.release m.lastReleased m.lastReleasedTime r) (hc : K.clock m.mCurrentTime c) :
      Like K g m (m.retimed (g m.tq) s v r d c b)

section
variable [Zero Time] [Zero Time'] {K : Clocks Time Time'} {g : Q → Q'} {m : Machine Q Time}
  {m' : Machine Q' Time'}

theorem create_like (q : Q) : Like K g (create q) (create (g q)) :=
  .mk (create q) 0 0 0 0 0 [] (fun h => absurd rfl h) K.release_none K.clock_none

section
variable (h : Like K g m m')
include h

theorem Like.state : m'.state = m.state := by cases h; rfl
theorem Like.suspect : m'.suspect = m.suspect := by cases h; rfl
theorem Like.lastReleased : m'.lastReleased = m.lastReleased := by cases h; rfl
theorem Like.forkActive : m'.forkActive = m.forkActive := by cases h; rfl
theorem Like.tq : m'.tq = g m.tq := by cases h; rfl

theorem Like.decision (hs : m.state ≠ .normal) :
    K.decision m.suspectTime m.mDecisionTime m'.suspectTime m'.mDecisionTime := by
  cases h with
  | mk s v r d c b hd hr hc => exact hd hs

theorem Like.release : K.release m.lastReleased m.lastReleasedTime m'.lastReleasedTime := by
  cases h with
  | mk s v r d c b hd hr hc => exact hr

theorem Like.clock : K.clock m.mCurrentTime m'.mCurrentTime := by
  cases h with
  | mk s v r d c b hd hr hc => exact hc

end

/-- the logs do not matter -/
theorem Like.bugs (h : Like K g m m') (l l' : List Bug) :
    Like K g { m with bugs := l } { m' with bugs := l' } := by
  cases h with
  | mk s v r d c b hd hr hc => exact .mk { m with bugs := l } s v r d c l' hd hr hc

theorem Like.check (h : Like K g m m') (b b' : Bool) (bug bug' : Bug) :
    Like K g (m.check b bug) (m'.check b' bug') := by
  obtain ⟨l, hl⟩ := check_eq m b bug
  obtain ⟨l', hl'⟩ := check_eq m' b' bug'
  rw [hl, hl']
  exact h.bugs l l'

theorem Like.setQueue (h : Like K g m m') {q : Q} {q' : Q'} (hq : q' = g q) :
    Like K g { m with tq := q } { m' with tq := q' } := by
  subst hq
  cases h with
  | mk s v r d c b hd hr hc => exact .mk { m with tq := q } s v r d c b hd hr hc

theorem Like.setForkActive (h : Like K g m m') (key code : Keycode) :
    Like K g (m.setForkActive key code) (m'.setForkActive key code) := by
  cases h with
  | mk s v r d c b hd hr hc => exact .mk (m.setForkActive key code) s v r d c b hd hr hc

/-! ## the queue -/

variable [TriqueueOps Q E] [TriqueueOps Q' E'] {f : E → E'} (hg : TriqueueMap g f)
include hg

theorem Like.moveToFirst (h : Like K g m m') : Like K g m.moveToFirst m'.moveToFirst := by
  have hc := h.check (!middleEmpty m.tq) (!middleEmpty m'.tq) .moveToFirst .moveToFirst
  refine hc.setQueue ?_
  rw [hc.tq, hg.moveToFirst]

theorem Like.moveToSecond (h : Like K g m m') : Like K g m.moveToSecond m'.moveToSecond := by
  have hc := h.check (!thirdEmpty m.tq) (!thirdEmpty m'.tq) .moveToSecond .moveToSecond
  refine hc.setQueue ?_
  rw [hc.tq, hg.moveToSecond]

theorem Like.pop (h : Like K g m m') : Like K g m.pop m'.pop := by
  have hc := h.check (canPop m.tq) (canPop m'.tq) .popEmpty .popEmpty
  refine hc.setQueue ?_
  rw [hc.tq, hg.pop]

/-! ## a decision -/

theorem Like.rewindMachine (h : Like K g m m') : Like K g m.rewindMachine m'.rewindMachine := by
  cases h with
  | mk s v r d c b hd hr hc =>
    show Like K g _ { (m.retimed (g m.tq) s v r d c b).changeState .normal with
      suspect := noKey, mDecisionTime := 0, verificatorKeycode := noKey,
      tq := TriqueueOps.rewindMiddle (g m.tq) }
    rw [hg.rewindMiddle]
    exact .mk m.rewindMachine s v r 0 c b (fun hn => absurd rfl hn) hr hc

theorem Like.doConfirmNonForkBy (h : Like K g m m') :
    Like K g m.doConfirmNonForkBy m'.doConfirmNonForkBy :=
  ((h.check _ _ _ _).moveToFirst hg).rewindMachine hg

variable {S : Setup E Time} {S' : Setup E' Time'} (hS : SetupAlike S S' f)
include hS

theorem Like.activateForkRewind (h : Like K g m m') :
    Like K g (m.activateForkRewind S) (m'.activateForkRewind S') := by
  have hempty : middleEmpty m'.tq = middleEmpty m.tq := by rw [h.tq, hg.middleEmpty]
  have hpeek : peekMiddle m'.tq = (peekMiddle m.tq).map f := by rw [h.tq, hg.peekMiddle]
  rw [Machine.activateForkRewind, Machine.activateForkRewind, hempty, hpeek]
  by_cases hm : middleEmpty m.tq = true
  · rw [if_pos hm, if_pos hm]
    exact h.check _ _ _ _
  · rw [if_neg hm, if_neg hm]
    cases peekMiddle m.tq with
    | none => exact h
    | some pevent =>
      simp only [Option.map_some, hS.detailOf, hS.forkKeycode]
      have hset := h.setForkActive (S.env.detailOf pevent)
        (S.config.forkKeycode (S.env.detailOf pevent))
      refine ((hset.setQueue ?_).moveToFirst hg).rewindMachine hg
      rw [hset.forkActive, hset.tq, hS.rewriteEvent, hg.writeMiddle]

theorem Like.transitionByForce (h : Like K g m m') :
    Like K g (m.transitionByForce S) (m'.transitionByForce S') := by
  rw [Machine.transitionByForce, Machine.transitionByForce, h.state, h.tq, hg.middleEmpty]
  by_cases hn : m.state = .normal
  · rw [if_pos hn, if_pos hn]
    exact h
  rw [if_neg hn, if_neg hn]
  by_cases hm : (!middleEmpty m.tq) = true
  · rw [if_pos hm, if_pos hm]
    exact h.activateForkRewind hg hS
  · rw [if_neg hm, if_neg hm]
    exact h.check _ _ _ _

end

/-! ## the tests of times -/

section
variable [LinearOrder Time] [Add Time] [Zero Time] [NatCast Time] (S : Setup E Time)

/-- the event is compared with the deadline -/
def ReadsDeadline (m : Machine Q Time) (e : E) : Prop :=
  m.state ≠ .normal ∧ ¬(S.env.pressP e ∧ m.keyForked (S.env.detailOf e))

/-- the event is compared with the last release; for `no_key`, whose `forkActive` is itself, both
ways come to the same -/
def ReadsRelease (m : Machine Q Time) (e : E) : Prop :=
  m.state = .normal ∧ S.env.pressP e ∧ forkableP S (S.env.detailOf e) ∧
    S.env.ignoreEvent e = false ∧ m.keyForked (S.env.detailOf e) = false ∧
    m.lastReleased = S.env.detailOf e ∧ S.env.detailOf e ≠ noKey

omit [LinearOrder Time] [Add Time] [Zero Time] [NatCast Time] in
instance (m : Machine Q Time) (e : E) : Decidable (m.ReadsDeadline S e) :=
  inferInstanceAs (Decidable (_ ∧ _))

omit [LinearOrder Time] [Add Time] [Zero Time] [NatCast Time] in
instance (m : Machine Q Time) (e : E) : Decidable (m.ReadsRelease S e) :=
  inferInstanceAs (Decidable (_ ∧ _))

/-- the deadline that the verificator sets -/
def verifiedTime (m : Machine Q Time) (e : E) : Time :=
  min m.mDecisionTime (S.config.verifierDecisionTime m.suspect m.suspectTime
    (S.env.detailOf e) (S.env.timeOf e))

end

section
variable [LinearOrder Time] [Add Time] [Zero Time] [NatCast Time]
  [LinearOrder Time'] [Add Time'] [Zero Time'] [NatCast Time']

/-- the comparisons of `e` come out alike, and what is stored of its time is related -/
structure TestsAlike (K : Clocks Time Time') (S : Setup E Time) (S' : Setup E' Time')
    (f : E → E') (m : Machine Q Time) (m' : Machine Q' Time') (e : E) : Prop where
  deadline : m.ReadsDeadline S e →
    (m.mDecisionTime ≤ S.env.timeOf e ↔ m'.mDecisionTime ≤ S'.env.timeOf (f e))
  quick : m.ReadsRelease S e →
    (m.lastReleasedTime + S.config.repeatMax < S.env.timeOf e ↔
      m'.lastReleasedTime + S'.config.repeatMax < S'.env.timeOf (f e))
  release : S.env.releaseP e → K.release (S.env.detailOf e) (S.env.timeOf e) (S'.env.timeOf (f e))
  start : m.verdict S e = .startSuspect →
    K.decision (S.env.timeOf e)
      (S.env.timeOf e + S.config.verificationIntervalOf (S.env.detailOf e) noKey)
      (S'.env.timeOf (f e))
      (S'.env.timeOf (f e) + S'.config.verificationIntervalOf (S.env.detailOf e) noKey)
  verify : m.verdict S e = .verify →
    K.decision m.suspectTime (m.verifiedTime S e) m'.suspectTime (m'.verifiedTime S' (f e))

variable {K : Clocks Time Time'} {g : Q → Q'} {m : Machine Q Time} {m' : Machine Q' Time'}
  {S : Setup E Time} {S' : Setup E' Time'} {f : E → E'}

/-- the same verdict, or two ways of letting `no_key` pass -/
def SameVerdict (S : Setup E Time) (m : Machine Q Time) (e : E) (v v' : Verdict) : Prop :=
  v' = v ∨ S.env.detailOf e = noKey ∧ m.forkActive noKey = noKey ∧
    (v = .autoRepeat ∨ v = .selfFork) ∧ (v' = .autoRepeat ∨ v' = .selfFork)

omit [LinearOrder Time] [Add Time] [NatCast Time] [LinearOrder Time'] [Add Time'] [NatCast Time'] in
theorem Like.keyForked (h : Like K g m m') (k : Keycode) : m'.keyForked k = m.keyForked k := by
  rw [Machine.keyForked, Machine.keyForked, h.forkActive]

theorem Like.normalVerdict (h : Like K g m m') (hS : SetupAlike S S' f) {e : E}
    (hn : m.state = .normal) (ht : TestsAlike K S S' f m m' e) :
    SameVerdict S m e (m.normalVerdict S e) (m'.normalVerdict S' (f e)) := by
  have hfork : ∀ k, forkableP S' k = forkableP S k := fun k => by
    rw [forkableP, forkableP, hS.forkKeycode]
  simp only [Machine.normalVerdict, hfork, hS.pressP, hS.releaseP, hS.detailOf,
    hS.ignoreEvent, h.keyForked, h.forkActive, h.lastReleased]
  by_cases hf : (forkableP S (S.env.detailOf e) && S.env.pressP e
      && !S.env.ignoreEvent e) = true
  · rw [if_pos hf, if_pos hf]
    simp only [Bool.and_eq_true, Bool.not_eq_true'] at hf
    obtain ⟨⟨hfo, hp⟩, hi⟩ := hf
    by_cases hk : m.keyForked (S.env.detailOf e) = true
    · simp [hk, SameVerdict]
    by_cases hl : m.lastReleased = S.env.detailOf e
    · by_cases hz : S.env.detailOf e = noKey
      · -- the time is compared, but it does not matter
        have hfa : m.forkActive noKey = noKey := by
          rcases keyForked_false.mp (Bool.eq_false_iff.mpr hk) with ha | ha <;> rwa [hz] at ha
        right
        rw [hz, hfa, if_pos rfl]
        refine ⟨rfl, rfl, ?_, ?_⟩ <;> split_ifs <;> simp
      · have htest := ht.quick ⟨hn, hp, hfo, hi, Bool.eq_false_iff.mpr hk, hl, hz⟩
        have heq : timeDifferenceMore (S'.env.timeOf (f e)) m'.lastReleasedTime S'.config.repeatMax
            = timeDifferenceMore (S.env.timeOf e) m.lastReleasedTime S.config.repeatMax :=
          decide_eq_decide.mpr htest.symm
        rw [heq]
        exact .inl rfl
    · have hne : (m.lastReleased != S.env.detailOf e) = true := bne_iff_ne.mpr hl
      rw [hne, Bool.true_or, Bool.true_or]
      exact .inl rfl
  · rw [if_neg hf, if_neg hf]
    exact .inl rfl

/-- **Both take the same verdict.** -/
theorem Like.verdict (h : Like K g m m') (hS : SetupAlike S S' f) {e : E}
    (ht : TestsAlike K S S' f m m' e) :
    SameVerdict S m e (m.verdict S e) (m'.verdict S' (f e)) := by
  simp only [Machine.verdict, hS.pressP, hS.releaseP, hS.detailOf, h.keyForked, h.forkActive,
    h.state]
  by_cases hk : (m.keyForked (S.env.detailOf e) && S.env.pressP e
      && S.env.detailOf e != m.forkActive (S.env.detailOf e)) = true
  · rw [if_pos hk, if_pos hk]
    exact .inl rfl
  rw [if_neg hk, if_neg hk]
  by_cases hn : m.state = .normal
  · rw [if_pos hn, if_pos hn]
    exact h.normalVerdict hS hn ht
  rw [if_neg hn, if_neg hn]
  rw [forkedPress_iff] at hk
  have hd := ht.deadline ⟨hn, hk⟩
  by_cases hl : m.mDecisionTime ≤ S.env.timeOf e
  · rw [if_pos (show S.env.timeOf e ≥ m.mDecisionTime from hl),
      if_pos (show S'.env.timeOf (f e) ≥ m'.mDecisionTime from hd.mp hl)]
    exact .inl rfl
  rw [if_neg (show ¬S.env.timeOf e ≥ m.mDecisionTime from hl),
    if_neg (show ¬S'.env.timeOf (f e) ≥ m'.mDecisionTime from fun h => hl (hd.mpr h))]
  left
  cases h with
  | mk s v r d c b _ _ _ =>
    simp only [suspectVerdict, verifyVerdict, hS.releaseP, hS.detailOf, hS.forkRepeatable, retimed]

variable [TriqueueOps Q E] [TriqueueOps Q' E'] (hg : TriqueueMap g f)

omit [LinearOrder Time] [Add Time] [NatCast Time] [LinearOrder Time'] [Add Time'] [NatCast Time']
  [TriqueueOps Q E] [TriqueueOps Q' E'] in
theorem Like.recordLastReleaseEvent (h : Like K g m m') (hS : SetupAlike S S' f) {e : E}
    (hr : K.release (S.env.detailOf e) (S.env.timeOf e) (S'.env.timeOf (f e))) :
    Like K g (m.recordLastReleaseEvent S e) (m'.recordLastReleaseEvent S' (f e)) := by
  cases h with
  | mk s v r d c b hd _ hc =>
    have hkey := hS.detailOf e
    simp only [Machine.recordLastReleaseEvent, hkey]
    exact .mk (m.recordLastReleaseEvent S e) s v (S'.env.timeOf (f e)) d c b hd hr hc

omit [LinearOrder Time] [Add Time] [NatCast Time] [LinearOrder Time'] [Add Time'] [NatCast Time']
  [TriqueueOps Q E] [TriqueueOps Q' E'] in
theorem Like.noteForkRelease (h : Like K g m m') (hS : SetupAlike S S' f) {e : E}
    (hr : K.release (S.env.detailOf e) (S.env.timeOf e) (S'.env.timeOf (f e))) :
    Like K g (m.noteForkRelease S e) (m'.noteForkRelease S' (f e)) := by
  rw [Machine.noteForkRelease, Machine.noteForkRelease, hS.considerForks]
  split_ifs
  · exact h.recordLastReleaseEvent hS hr
  · cases h with
    | mk s v r d c b hd _ hc =>
      exact .mk { m with lastReleased := noKey, lastReleasedTime := 0 } s v 0 d c b hd
        K.release_none hc

omit [LinearOrder Time] [Add Time] [NatCast Time] [LinearOrder Time'] [Add Time'] [NatCast Time']
  [TriqueueOps Q E] [TriqueueOps Q' E'] in
theorem Like.noteRelease (h : Like K g m m') (hS : SetupAlike S S' f) {e : E}
    (hr : S.env.releaseP e → K.release (S.env.detailOf e) (S.env.timeOf e) (S'.env.timeOf (f e))) :
    Like K g (m.noteRelease S e) (m'.noteRelease S' (f e)) := by
  rw [Machine.noteRelease, Machine.noteRelease, hS.releaseP]
  split_ifs with hrel
  · exact h.recordLastReleaseEvent hS (hr hrel)
  · exact h

include hg in
theorem Like.startSuspect (h : Like K g m m') (hS : SetupAlike S S' f) {e : E}
    (hd : K.decision (S.env.timeOf e)
      (S.env.timeOf e + S.config.verificationIntervalOf (S.env.detailOf e) noKey)
      (S'.env.timeOf (f e))
      (S'.env.timeOf (f e) + S'.config.verificationIntervalOf (S.env.detailOf e) noKey)) :
    Like K g (m.respond S e .startSuspect) (m'.respond S' (f e) .startSuspect) := by
  cases h with
  | mk s v r d c b _ hr hc =>
    have hlike := Like.mk (K := K) (g := g) { m with
      state := .suspect
      suspect := S.env.detailOf e
      suspectTime := S.env.timeOf e
      mDecisionTime := S.env.timeOf e
        + S.config.verificationIntervalOf (S.env.detailOf e) noKey }
      (S'.env.timeOf (f e)) v r
      (S'.env.timeOf (f e) + S'.config.verificationIntervalOf (S.env.detailOf e) noKey) c b
      (fun _ => hd) hr hc
    simp only [Machine.respond, hS.detailOf]
    exact hlike.moveToSecond hg

include hg in
theorem Like.verify (h : Like K g m m') (hS : SetupAlike S S' f) {e : E}
    (hd : K.decision m.suspectTime (m.verifiedTime S e) m'.suspectTime
      (m'.verifiedTime S' (f e))) :
    Like K g (m.respond S e .verify) (m'.respond S' (f e) .verify) := by
  cases h with
  | mk s v r d c b _ hr hc =>
    simp only [Machine.verifiedTime, hS.detailOf] at hd
    have hlike := Like.mk (K := K) (g := g) { m with
      state := .verify
      verificatorTime := S.env.timeOf e
      verificatorKeycode := S.env.detailOf e
      mDecisionTime := min m.mDecisionTime (S.config.verifierDecisionTime m.suspect
        m.suspectTime (S.env.detailOf e) (S.env.timeOf e)) }
      s (S'.env.timeOf (f e)) r (min d (S'.config.verifierDecisionTime m.suspect s
        (S.env.detailOf e) (S'.env.timeOf (f e)))) c b (fun _ => hd) hr hc
    simp only [Machine.respond, hS.detailOf]
    exact hlike.moveToSecond hg

include hg in
theorem Like.unverify (h : Like K g m m') (hn : m.state ≠ .normal) (e : E) :
    Like K g (m.respond S e .unverify) (m'.respond S' (f e) .unverify) := by
  have hd := h.decision hn
  cases h with
  | mk s v r d c b _ hr hc =>
    have hlike := Like.mk (K := K) (g := g)
      { m with state := .suspect, verificatorKeycode := noKey } s v r d c b (fun _ => hd) hr hc
    exact hlike.moveToSecond hg

omit [TriqueueOps Q' E'] in
/-- where `forkActive` of the key is the key, both ways let it pass -/
theorem respond_noKey {e : E} (hk : S.env.detailOf e = noKey) (hfa : m.forkActive noKey = noKey)
    {v : Verdict} (hv : v = .autoRepeat ∨ v = .selfFork) :
    ∃ l, m.respond S e v = ({ m with bugs := l } : Machine Q Time).moveToSecond.moveToFirst := by
  rcases hv with rfl | rfl
  · exact ⟨m.bugs, rfl⟩
  · have hself : Function.update m.forkActive noKey noKey = m.forkActive :=
      Function.update_eq_self_iff.mpr hfa.symm
    have hset : m.setForkActive noKey noKey = m := by rw [Machine.setForkActive, hself]
    obtain ⟨l, hl⟩ := check_eq m (middleEmpty m.tq) .assertMiddleEmpty
    refine ⟨l, ?_⟩
    simp only [Machine.respond, hk, hset, hl]

include hg in
theorem Like.respond_same (h : Like K g m m') (hS : SetupAlike S S' f) {e : E}
    (ht : TestsAlike K S S' f m m' e) :
    Like K g (m.respond S e (m.verdict S e)) (m'.respond S' (f e) (m.verdict S e)) := by
  have hguard := guard_verdict S m e
  have hstart := ht.start
  have hverify := ht.verify
  generalize m.verdict S e = v at hguard hstart hverify ⊢
  cases v with
  | refork => exact (h.moveToSecond hg).activateForkRewind hg hS
  | startSuspect => exact h.startSuspect hg hS (hstart rfl)
  | autoRepeat => exact (h.moveToSecond hg).moveToFirst hg
  | selfFork =>
    simp only [Machine.respond, hS.detailOf]
    have hset := h.setForkActive (S.env.detailOf e) (S.env.detailOf e)
    exact ((hset.check _ _ _ _).moveToSecond hg).moveToFirst hg
  | unfork =>
    simp only [Machine.respond, hS.detailOf]
    have hnote := h.noteForkRelease hS (ht.release hguard.2.1)
    refine (((hnote.setQueue ?_).setForkActive _ _).moveToSecond hg).moveToFirst hg
    rw [hnote.forkActive, hnote.tq, hS.rewriteEvent, hg.writeThird]
  | pass => exact ((h.noteRelease hS ht.release).moveToSecond hg).moveToFirst hg
  | forkHead =>
    simp only [Machine.respond, hS.pressP, hS.detailOf, h.keyForked]
    by_cases hp : (S.env.pressP e && m.keyForked (S.env.detailOf e)) = true
    · rw [if_pos hp, if_pos hp]
      exact (h.moveToSecond hg).activateForkRewind hg hS
    · rw [if_neg hp, if_neg hp]
      exact h.activateForkRewind hg hS
  | confirmHead => exact h.doConfirmNonForkBy hg
  | repeatHead =>
    simp only [Machine.respond, h.suspect]
    exact (h.setForkActive _ _).doConfirmNonForkBy hg
  | discard => exact h
  | verify => exact h.verify hg hS (hverify rfl)
  | unverify => exact h.unverify hg (by rw [hguard.1]; decide) e
  | wait => exact h.moveToSecond hg

include hg in
/-- **And they are alike after it.** -/
theorem Like.respond (h : Like K g m m') (hS : SetupAlike S S' f) {e : E}
    (ht : TestsAlike K S S' f m m' e) :
    Like K g (m.respond S e (m.verdict S e)) (m'.respond S' (f e) (m'.verdict S' (f e))) := by
  rcases h.verdict hS ht with hv | ⟨hk, hfa, hv, hv'⟩
  · rw [hv]
    exact h.respond_same hg hS ht
  · obtain ⟨l, hl⟩ := respond_noKey (S := S) hk hfa hv
    obtain ⟨l', hl'⟩ := respond_noKey (S := S') (m := m') ((hS.detailOf e).trans hk)
      (h.forkActive ▸ hfa) hv'
    rw [hl, hl']
    exact ((h.bugs l l').moveToSecond hg).moveToFirst hg

include hg in
/-- **One iteration of the loop.** -/
theorem Like.automatonBody (h : Like K g m m') (hS : SetupAlike S S' f) (forceAlso : Bool)
    (ht : ∀ e, thirdEmpty m.tq = false → peekThird m.tq = some e → TestsAlike K S S' f m m' e)
    (hd : thirdEmpty m.tq = true → (m.TimerDue ↔ m'.TimerDue)) :
    Like K g (m.automatonBody S forceAlso).1 (m'.automatonBody S' forceAlso).1 ∧
      (m'.automatonBody S' forceAlso).2 = (m.automatonBody S forceAlso).2 := by
  have hthird : thirdEmpty m'.tq = thirdEmpty m.tq := by rw [h.tq, hg.thirdEmpty]
  have hpeek : peekThird m'.tq = (peekThird m.tq).map f := by rw [h.tq, hg.peekThird]
  cases hi : thirdEmpty m.tq with
  | false =>
    rw [hi] at hthird
    cases hp : peekThird m.tq with
    | none =>
      rw [hp] at hpeek
      rw [automatonBody_unread hi hp, automatonBody_unread hthird hpeek]
      exact ⟨h, rfl⟩
    | some e =>
      rw [hp] at hpeek
      have htest := ht e hi hp
      rw [automatonBody_event hi hp, automatonBody_event hthird hpeek]
      exact ⟨h.respond hg hS htest, rfl⟩
  | true =>
    rw [hi] at hthird
    have hdue := hd hi
    by_cases hm : m.TimerDue
    · rw [automatonBody_time hi hm, automatonBody_time hthird (hdue.mp hm)]
      exact ⟨h.activateForkRewind hg hS, rfl⟩
    have hm' : ¬m'.TimerDue := fun h => hm (hdue.mpr h)
    by_cases hf : forceAlso = true ∧ m.state ≠ .normal
    · rw [automatonBody_force hi hm hf, automatonBody_force hthird hm' (h.state ▸ hf)]
      exact ⟨h.transitionByForce hg hS, rfl⟩
    · rw [automatonBody_done hi hm hf, automatonBody_done hthird hm' (h.state ▸ hf)]
      exact ⟨h, rfl⟩

/-! ## the rest of a call -/

omit [LinearOrder Time] [Add Time] [NatCast Time] [LinearOrder Time'] [Add Time']
  [NatCast Time'] in
include hg in
theorem Like.popEventIfPresent (h : Like K g m m') :
    m'.popEventIfPresent.1 = m.popEventIfPresent.1.map f ∧
      Like K g m.popEventIfPresent.2 m'.popEventIfPresent.2 := by
  have hpop : canPop m'.tq = canPop m.tq := by rw [h.tq, hg.canPop]
  have hhead : head m'.tq = (head m.tq).map f := by rw [h.tq, hg.head]
  rw [Machine.popEventIfPresent, Machine.popEventIfPresent, hpop, hhead]
  split_ifs
  · exact ⟨rfl, h.pop hg⟩
  · exact ⟨rfl, h⟩

omit [LinearOrder Time] [Add Time] [NatCast Time] [LinearOrder Time'] [Add Time']
  [NatCast Time'] in
variable (S S') in
include hg in
/-- both hand over their clock, or the time of the same event -/
theorem Like.pushTimeToNext (h : Like K g m m') :
    Like K g (m.pushTimeToNext S).2 (m'.pushTimeToNext S').2 ∧
      (K.clock (m.pushTimeToNext S).1 (m'.pushTimeToNext S').1 ∨
        ∃ e, (m.pushTimeToNext S).1 = S.env.timeOf e ∧
          (m'.pushTimeToNext S').1 = S'.env.timeOf (f e)) := by
  have hfirst : first m'.tq = (first m.tq).map f := by rw [h.tq, hg.first]
  rw [Machine.pushTimeToNext, Machine.pushTimeToNext, hfirst]
  cases first m.tq with
  | none => exact ⟨h, .inl h.clock⟩
  | some e =>
    refine ⟨?_, .inr ⟨e, rfl, rfl⟩⟩
    cases h with
    | mk s v r d c b hd hr hc =>
      exact .mk { m with mCurrentTime := 0 } s v r d 0 b hd hr K.clock_none

end

end Machine

end ForkNS
