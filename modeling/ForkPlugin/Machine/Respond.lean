import ForkPlugin.Machine.Guard

/-!
# The handlers do what the verdict says

Over every queue and in every state the handlers leave by the exit of the verdict.  Over three
lists, and when the state is normal exactly while nothing is internal, that exit has the effect of
the verdict and logs no bug.

* `respond`                the exit of the handlers that belongs to a verdict;
* `transitionByKey_respond`   the handlers choose a verdict, and leave by its exit;
* `respond_enact`, `transitionByKey_eq`   over three lists;
* `Iteration`, `automatonBody_iteration`   what one iteration of the loop does.
-/

namespace ForkNS

namespace Machine

variable {Q E Time : Type} [TriqueueOps Q E] [LinearOrder Time] [Add Time] [Zero Time]
  [NatCast Time] (S : Setup E Time)

/-- the record of the last release, where a (self-)forked key is released -/
def noteForkRelease (m : Machine Q Time) (e : E) : Machine Q Time :=
  if S.config.considerForksForRepeat then m.recordLastReleaseEvent S e
  else { m with lastReleased := noKey, lastReleasedTime := 0 }

/-- and where another key is -/
def noteRelease (m : Machine Q Time) (e : E) : Machine Q Time :=
  if S.env.releaseP e then m.recordLastReleaseEvent S e else m

def respond (m : Machine Q Time) (e : E) : Verdict → Machine Q Time
  | .refork => m.moveToSecond.activateForkRewind S
  | .startSuspect =>
    let key := S.env.detailOf e
    { m with
      state := .suspect
      suspect := key
      suspectTime := S.env.timeOf e
      mDecisionTime := S.env.timeOf e + S.config.verificationIntervalOf key noKey }.moveToSecond
  | .autoRepeat => m.moveToSecond.moveToFirst
  | .selfFork =>
    let m := m.setForkActive (S.env.detailOf e) (S.env.detailOf e)
    (m.check (TriqueueOps.middleEmpty m.tq) .assertMiddleEmpty).moveToSecond.moveToFirst
  | .unfork =>
    let m := m.noteForkRelease S e
    let m := { m with
      tq := TriqueueOps.writeThird m.tq
        (S.env.rewriteEvent e (m.forkActive (S.env.detailOf e))) }
    (m.setForkActive (S.env.detailOf e) noKey).moveToSecond.moveToFirst
  | .pass => (m.noteRelease S e).moveToSecond.moveToFirst
  | .forkHead =>
    -- a press of a forked key is kept first
    let m := if S.env.pressP e && m.keyForked (S.env.detailOf e) then m.moveToSecond else m
    m.activateForkRewind S
  | .confirmHead => m.doConfirmNonForkBy
  | .repeatHead => (m.setForkActive m.suspect m.suspect).doConfirmNonForkBy
  | .discard => m
  | .verify =>
    { m with
      state := .verify
      verificatorTime := S.env.timeOf e
      verificatorKeycode := S.env.detailOf e
      mDecisionTime := min m.mDecisionTime (S.config.verifierDecisionTime m.suspect m.suspectTime
        (S.env.detailOf e) (S.env.timeOf e)) }.moveToSecond
  | .unverify => { m with state := .suspect, verificatorKeycode := noKey }.moveToSecond
  | .wait => m.moveToSecond

omit [LinearOrder Time] [Add Time] [Zero Time] [NatCast Time] [TriqueueOps Q E] in
theorem check_state {m : Machine Q Time} {st : ForkState} (h : m.state = st) (b : Bug) :
    m.check (m.state == st) b = m := by
  rw [h]
  cases st <;> rfl

theorem applyEventToNormal_respond {m : Machine Q Time} (hs : m.state = .normal) (e : E) :
    m.applyEventToNormal S e = m.respond S e (m.normalVerdict S e) := by
  simp only [applyEventToNormal, normalVerdict, check_state hs]
  by_cases hf : (forkableP S (S.env.detailOf e) && S.env.pressP e && !S.env.ignoreEvent e) = true
  · rw [if_pos hf, if_pos hf]
    by_cases hq : (!m.keyForked (S.env.detailOf e) && (m.lastReleased != S.env.detailOf e
        || timeDifferenceMore (S.env.timeOf e) m.lastReleasedTime S.config.repeatMax)) = true
    · rw [if_pos hq, if_pos hq]
      by_cases ha : m.forkActive (S.env.detailOf e) = S.env.detailOf e
      · rw [if_pos ha, if_pos ha]
        rfl
      · rw [if_neg ha, if_neg ha]
        rfl
    · rw [if_neg hq, if_neg hq]
      rfl
  · rw [if_neg hf, if_neg hf]
    by_cases hr : (S.env.releaseP e && m.forkActive (S.env.detailOf e) != noKey) = true
    · rw [if_pos hr, if_pos hr]
      rfl
    · rw [if_neg hr, if_neg hr]
      rfl

theorem applyEventToSuspect_respond {m : Machine Q Time} (hs : m.state = .suspect) (e : E) :
    m.applyEventToSuspect S e = m.respond S e (m.suspectVerdict S e) := by
  simp only [applyEventToSuspect, suspectVerdict, check_state hs]
  by_cases hr : S.env.releaseP e = true
  · rw [if_pos hr, if_pos hr]
    by_cases hk : S.env.detailOf e = m.suspect
    · rw [if_pos hk, if_pos hk]
      rfl
    · rw [if_neg hk, if_neg hk]
      rfl
  · rw [if_neg hr, if_neg hr]
    by_cases hk : S.env.detailOf e = m.suspect
    · rw [if_pos hk, if_pos hk]
      by_cases hp : S.config.forkRepeatable (S.env.detailOf e) = true
      · rw [if_pos hp, if_pos hp]
        rfl
      · rw [if_neg hp, if_neg hp]
        rfl
    · rw [if_neg hk, if_neg hk]
      refine congrArg moveToSecond ?_
      by_cases hd : S.config.verifierDecisionTime m.suspect m.suspectTime (S.env.detailOf e)
          (S.env.timeOf e) < m.mDecisionTime
      · rw [min_eq_right (le_of_lt hd)]
        exact if_pos hd
      · rw [min_eq_left (not_lt.mp hd)]
        exact if_neg hd

theorem applyEventToVerifyState_respond (m : Machine Q Time) (e : E) :
    m.applyEventToVerifyState S e = m.respond S e (m.verifyVerdict S e) := by
  simp only [applyEventToVerifyState, verifyVerdict]
  by_cases hk : S.env.detailOf e = m.suspect ∧ S.env.releaseP e
  · rw [if_pos hk, if_pos hk]
    rfl
  · rw [if_neg hk, if_neg hk]
    by_cases hv : m.verificatorKeycode = S.env.detailOf e ∧ S.env.releaseP e
    · rw [if_pos hv, if_pos hv]
      rfl
    · rw [if_neg hv, if_neg hv]
      rfl

/-- **The handlers leave by the exit of the verdict.** -/
theorem transitionByKey_respond (m : Machine Q Time) (e : E) :
    m.transitionByKey S e = m.respond S e (m.verdict S e) := by
  simp only [transitionByKey, verdict]
  by_cases hk : (m.keyForked (S.env.detailOf e) && S.env.pressP e
      && S.env.detailOf e != m.forkActive (S.env.detailOf e)) = true
  · rw [if_pos hk, if_pos hk]
    by_cases hn : m.state = .normal
    · rw [if_pos hn]
      rfl
    · rw [if_neg hn]
      rw [forkedPress_iff] at hk
      simp only [respond, hk.1, hk.2, Bool.and_self, if_true]
  rw [if_neg hk, if_neg hk]
  by_cases hn : m.state = .normal
  · rw [if_pos hn, if_pos hn]
    exact applyEventToNormal_respond S hn e
  rw [if_neg hn, if_neg hn]
  by_cases ht : S.env.timeOf e ≥ m.mDecisionTime
  · rw [if_pos ht, if_pos ht]
    rw [forkedPress_iff, ← Bool.and_eq_true, Bool.not_eq_true] at hk
    simp only [respond, hk, Bool.false_eq_true, if_false]
  rw [if_neg ht, if_neg ht]
  by_cases hb : (!S.env.pressP e && !S.env.releaseP e) = true
  · rw [if_pos hb, if_pos hb]
    rfl
  rw [if_neg hb, if_neg hb]
  by_cases hsu : m.state = .suspect
  · rw [if_pos hsu, if_pos hsu]
    exact applyEventToSuspect_respond S hsu e
  · rw [if_neg hsu, if_neg hsu]
    exact applyEventToVerifyState_respond S m e

/-! ## over three lists -/

section
variable {S} {m : ListMachine E Time} {e : E} {rest : List E}

/-- where the guard of a verdict holds, its exit is its effect -/
theorem respond_enact (hs : m.state = .normal ↔ m.tq.mid = []) (hi : m.tq.inp = e :: rest)
    {v : Verdict} (hg : m.guard S e v) : m.respond S e v = m.enact S e v := by
  cases v with
  | refork =>
    rw [respond, moveToSecond_eq hi, activateForkRewind_eq S (by simp [keep])]
    simp [forkHead, keep, enact, hs.mp hg.1, settleAs, passAs, clear, setForkActive]
  | startSuspect => exact moveToSecond_eq (m := m.startSuspect S e) hi
  | autoRepeat => exact pass_eq (hs.mp hg.1) hi
  | selfFork =>
    have hmid := hs.mp hg.1
    have hme : TriqueueOps.middleEmpty
        (m.setForkActive (S.env.detailOf e) (S.env.detailOf e)).tq = true :=
      List.isEmpty_iff.mpr hmid
    simp only [respond, hme, check_true]
    exact pass_eq (m := m.setForkActive (S.env.detailOf e) (S.env.detailOf e)) hmid hi
  | unfork =>
    have hmid := hs.mp hg.1
    by_cases hc : S.config.considerForksForRepeat = true
    · simp only [respond, noteForkRelease, enact, recordForkRelease, if_pos hc]
      exact unfork_eq S (m := m.recordLastReleaseEvent S e) hmid hi _ _
    · simp only [respond, noteForkRelease, enact, recordForkRelease, if_neg hc]
      exact unfork_eq S (m := { m with lastReleased := noKey, lastReleasedTime := 0 }) hmid hi _ _
  | pass =>
    obtain ⟨k, t, hk⟩ := recordRelease_eq S m e
    show (m.recordRelease S e).moveToSecond.moveToFirst = (m.recordRelease S e).passAs e
    rw [hk]
    exact pass_eq (m := { m with lastReleased := k, lastReleasedTime := t }) (hs.mp hg.1) hi
  | forkHead =>
    obtain ⟨h, t, hm⟩ := List.exists_cons_of_ne_nil fun h => hg.1 (hs.mpr h)
    simp only [respond]
    split_ifs
    · rw [moveToSecond_eq hi, activateForkRewind_eq S (by simp [keep])]
      simp [forkHead, keep, enact, hm, hi, settleAs, clear, setForkActive]
    · exact activateForkRewind_eq S (by simp [hm])
  | confirmHead => exact doConfirmNonForkBy_eq hg.1 fun h => hg.1 (hs.mpr h)
  | repeatHead =>
    have hn : m.state ≠ .normal := by rw [hg.1]; decide
    exact doConfirmNonForkBy_eq (m := m.setForkActive m.suspect m.suspect) hn
      fun h => hn (hs.mpr h)
  | discard => rfl
  | verify => exact moveToSecond_eq (m := m.startVerify S e) hi
  | unverify =>
    exact moveToSecond_eq (m := { m with state := .suspect, verificatorKeycode := noKey }) hi
  | wait => exact moveToSecond_eq hi

/-- **One event.**  When the state is normal exactly while nothing is internal, the handlers do
what the verdict says. -/
theorem transitionByKey_eq (hs : m.state = .normal ↔ m.tq.mid = []) (hi : m.tq.inp = e :: rest) :
    m.transitionByKey S e = m.enact S e (m.verdict S e) := by
  rw [transitionByKey_respond, respond_enact hs hi (guard_verdict S m e)]

end

/-! ## one iteration -/

/-- the timer has reached the deadline -/
def TimerDue (m : Machine Q Time) : Prop :=
  m.state ≠ .normal ∧ m.mCurrentTime ≠ 0 ∧ m.mDecisionTime ≤ m.mCurrentTime

/-- what one iteration does; the `Bool` is `false` where the loop ends -/
inductive Iteration (m : Machine Q Time) (forceAlso : Bool) : Machine Q Time → Bool → Prop
  | unread (hi : TriqueueOps.thirdEmpty m.tq = false) (hp : TriqueueOps.peekThird m.tq = none) :
      Iteration m forceAlso m true
  | event (e : E) (hi : TriqueueOps.thirdEmpty m.tq = false)
      (hp : TriqueueOps.peekThird m.tq = some e) :
      Iteration m forceAlso (m.respond S e (m.verdict S e)) true
  | time (hi : TriqueueOps.thirdEmpty m.tq = true) (hd : m.TimerDue) :
      Iteration m forceAlso (m.activateForkRewind S) true
  | force (hi : TriqueueOps.thirdEmpty m.tq = true) (hd : ¬m.TimerDue) (hf : forceAlso = true)
      (hs : m.state ≠ .normal) : Iteration m forceAlso (m.transitionByForce S) true
  | done (hi : TriqueueOps.thirdEmpty m.tq = true) (hd : ¬m.TimerDue)
      (hs : ¬(forceAlso = true ∧ m.state ≠ .normal)) : Iteration m forceAlso m false

section
variable {S} {m : Machine Q Time} {f : Bool}

theorem automatonBody_unread (hi : TriqueueOps.thirdEmpty m.tq = false)
    (hp : TriqueueOps.peekThird m.tq = none) : m.automatonBody S f = (m, true) := by
  simp only [automatonBody, hi, hp]
  rfl

theorem automatonBody_event {e : E} (hi : TriqueueOps.thirdEmpty m.tq = false)
    (hp : TriqueueOps.peekThird m.tq = some e) :
    m.automatonBody S f = (m.respond S e (m.verdict S e), true) := by
  simp only [automatonBody, hi, hp, transitionByKey_respond]
  rfl

theorem automatonBody_time (hi : TriqueueOps.thirdEmpty m.tq = true) (hd : m.TimerDue) :
    m.automatonBody S f = (m.activateForkRewind S, true) := by
  obtain ⟨hs, hc, ht⟩ := hd
  simp only [automatonBody, hi, transitionByTime, if_neg hs,
    if_pos (show m.mCurrentTime ≥ m.mDecisionTime from ht), if_pos (And.intro hs hc)]
  rfl

theorem automatonBody_still (hi : TriqueueOps.thirdEmpty m.tq = true) (hd : ¬m.TimerDue) :
    m.automatonBody S f = m.forceOrBreak S f := by
  by_cases hc : m.state ≠ .normal ∧ m.mCurrentTime ≠ 0
  · have ht : ¬m.mCurrentTime ≥ m.mDecisionTime := fun h => hd ⟨hc.1, hc.2, h⟩
    simp only [automatonBody, hi, transitionByTime, if_neg hc.1, if_neg ht, if_pos hc]
    rfl
  · simp only [automatonBody, hi, if_neg hc]
    rfl

theorem automatonBody_force (hi : TriqueueOps.thirdEmpty m.tq = true) (hd : ¬m.TimerDue)
    (hf : f = true ∧ m.state ≠ .normal) :
    m.automatonBody S f = (m.transitionByForce S, true) := by
  rw [automatonBody_still hi hd, forceOrBreak, if_pos hf]

theorem automatonBody_done (hi : TriqueueOps.thirdEmpty m.tq = true) (hd : ¬m.TimerDue)
    (hf : ¬(f = true ∧ m.state ≠ .normal)) : m.automatonBody S f = (m, false) := by
  rw [automatonBody_still hi hd, forceOrBreak, if_neg hf]

/-- **One iteration of the loop**, over any queue and in any state. -/
theorem automatonBody_iteration {m' : Machine Q Time} {again : Bool}
    (h : m.automatonBody S f = (m', again)) : Iteration S m f m' again := by
  cases hi : TriqueueOps.thirdEmpty m.tq with
  | false =>
    cases hp : TriqueueOps.peekThird m.tq with
    | none =>
      rw [automatonBody_unread hi hp] at h
      cases h
      exact .unread hi hp
    | some e =>
      rw [automatonBody_event hi hp] at h
      cases h
      exact .event e hi hp
  | true =>
    by_cases hd : m.TimerDue
    · rw [automatonBody_time hi hd] at h
      cases h
      exact .time hi hd
    · by_cases hf : f = true ∧ m.state ≠ .normal
      · rw [automatonBody_force hi hd hf] at h
        cases h
        exact .force hi hd hf.1 hf.2
      · rw [automatonBody_done hi hd hf] at h
        cases h
        exact .done hi hd hf

end

end Machine

end ForkNS
