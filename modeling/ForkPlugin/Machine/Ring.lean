import ForkPlugin.Machine.Calls
import ForkPlugin.Machine.Respond
import ForkPlugin.Queue.Refine

/-!
# The machine over the ring buffer

The code keeps the events of a machine in a `triqueue_t`.  While that is asked to hold no more than
its capacity, the machine over three lists does the same step by step.

* `Stands c m l`    the machine `m` over a ring of capacity `c` is `l`, with a queue that stands for
                    the one of `l`; every transition keeps it;
* `Alike c s t`     so do the two systems, with the same control, pushed events and trace;
* `step_alike`      one step, when there is room for what it pushes;
* `WithinCapacity`  after no part of a run does the ring hold more than its capacity;
* `ring_run`        such a run over the ring is a run over three lists;
* `within_of_room`  where the ring has room for every event that arrives, it never does;
* `ring_run_of_lists`   and the other way round.
-/

namespace ForkNS

open Runs

/-- a branch that both sides of a relation take, or neither -/
theorem rel_ite {α β : Type} {R : α → β → Prop} {p : Prop} [Decidable p] {a a' : α} {b b' : β}
    (ht : p → R a b) (hf : ¬p → R a' b') : R (if p then a else a') (if p then b else b') := by
  by_cases h : p
  · rw [if_pos h, if_pos h]
    exact ht h
  · rw [if_neg h, if_neg h]
    exact hf h

variable {E Time : Type} {c : ℕ}

namespace Machine
open Triqueue (Rep)

/-- the same machine over another queue -/
def withQueue {Q Q' : Type} (m : Machine Q Time) (q : Q') : Machine Q' Time where
  state := m.state
  suspect := m.suspect
  suspectTime := m.suspectTime
  verificatorKeycode := m.verificatorKeycode
  verificatorTime := m.verificatorTime
  lastReleased := m.lastReleased
  lastReleasedTime := m.lastReleasedTime
  mDecisionTime := m.mDecisionTime
  mCurrentTime := m.mCurrentTime
  forkActive := m.forkActive
  tq := q
  bugs := m.bugs

inductive Stands (c : ℕ) :
    Machine (Triqueue E) Time → Machine (ThreeLists E) Time → Prop where
  | mk (l : Machine (ThreeLists E) Time) (q : Triqueue E) (hq : Rep c q l.tq) :
      Stands c (l.withQueue q) l

variable {m : Machine (Triqueue E) Time} {l : Machine (ThreeLists E) Time}

/-! ## the queue -/

theorem Stands.rep (h : Stands c m l) : Rep c m.tq l.tq := by
  cases h with
  | mk _ q hq => exact hq

section
variable (h : Stands c m l)
include h

theorem Stands.state : m.state = l.state := by cases h; rfl
theorem Stands.suspect : m.suspect = l.suspect := by cases h; rfl
theorem Stands.suspectTime : m.suspectTime = l.suspectTime := by cases h; rfl
theorem Stands.mDecisionTime : m.mDecisionTime = l.mDecisionTime := by cases h; rfl
theorem Stands.forkActive : m.forkActive = l.forkActive := by cases h; rfl
theorem Stands.bugs : m.bugs = l.bugs := by cases h; rfl

end

theorem Stands.ite {p : Prop} [Decidable p] {m' : Machine (Triqueue E) Time}
    {l' : Machine (ThreeLists E) Time} (ht : p → Stands c m l) (hf : ¬p → Stands c m' l') :
    Stands c (if p then m else m') (if p then l else l') :=
  rel_ite ht hf

theorem Stands.check (h : Stands c m l) {b b' : Bool} (hb : b = b') (bug : Bug) :
    Stands c (m.check b bug) (l.check b' bug) := by
  subst hb
  refine .ite (fun _ => h) fun _ => ?_
  cases h with
  | mk _ q hq => exact .mk { l with bugs := l.bugs ++ [bug] } q hq

/-- the queues change in the same way -/
theorem Stands.setQueue (h : Stands c m l) {q : Triqueue E} {t : ThreeLists E} (hq : Rep c q t) :
    Stands c { m with tq := q } { l with tq := t } := by
  cases h with
  | mk _ q' _ => exact .mk { l with tq := t } q hq

theorem Stands.writeMiddle (h : Stands c m l) (hmid : l.tq.mid ≠ []) (x : E) :
    Stands c { m with tq := TriqueueOps.writeMiddle m.tq x }
      { l with tq := TriqueueOps.writeMiddle l.tq x } :=
  h.setQueue (Triqueue.rep_writeMiddle h.rep hmid x)

theorem Stands.writeThird (h : Stands c m l) (hinp : l.tq.inp ≠ []) (x : E) :
    Stands c { m with tq := TriqueueOps.writeThird m.tq x }
      { l with tq := TriqueueOps.writeThird l.tq x } :=
  h.setQueue (Triqueue.rep_writeThird h.rep hinp x)

theorem Stands.moveToFirst (h : Stands c m l) : Stands c m.moveToFirst l.moveToFirst := by
  have hc := h.check (congrArg (! ·) (Triqueue.middleEmpty_eq h.rep)) .moveToFirst
  exact hc.setQueue (Triqueue.rep_moveToFirst hc.rep)

theorem Stands.moveToSecond (h : Stands c m l) : Stands c m.moveToSecond l.moveToSecond := by
  have hc := h.check (congrArg (! ·) (Triqueue.thirdEmpty_eq h.rep)) .moveToSecond
  exact hc.setQueue (Triqueue.rep_moveToSecond hc.rep)

theorem Stands.pop (h : Stands c m l) (hne : l.tq.out ≠ []) : Stands c m.pop l.pop := by
  have hc := h.check (Triqueue.canPop_eq h.rep) .popEmpty
  refine hc.setQueue (Triqueue.rep_pop hc.rep ?_).2
  rwa [check_tq]

/-! ## a decision -/

theorem Stands.setForkActive (h : Stands c m l) (key code : Keycode) :
    Stands c (m.setForkActive key code) (l.setForkActive key code) := by
  cases h with
  | mk _ q hq => exact .mk (l.setForkActive key code) q hq

theorem Stands.recordLastReleaseEvent {S : Setup E Time} (h : Stands c m l) (e : E) :
    Stands c (m.recordLastReleaseEvent S e) (l.recordLastReleaseEvent S e) := by
  cases h with
  | mk _ q hq => exact .mk (l.recordLastReleaseEvent S e) q hq

section
variable [Zero Time] {S : Setup E Time}

theorem Stands.rewindMachine (h : Stands c m l) : Stands c m.rewindMachine l.rewindMachine := by
  cases h with
  | mk _ q hq => exact .mk l.rewindMachine _ (Triqueue.rep_rewindMiddle hq)

theorem Stands.doConfirmNonForkBy (h : Stands c m l) :
    Stands c m.doConfirmNonForkBy l.doConfirmNonForkBy := by
  have hs : (m.state == .suspect || m.state == .verify)
      = (l.state == .suspect || l.state == .verify) := by
    cases h with
    | mk _ q hq => rfl
  exact (h.check hs .assertConfirmState).moveToFirst.rewindMachine

theorem Stands.activateForkRewind (h : Stands c m l) :
    Stands c (m.activateForkRewind S) (l.activateForkRewind S) := by
  have hempty : TriqueueOps.middleEmpty m.tq = TriqueueOps.middleEmpty l.tq :=
    Triqueue.middleEmpty_eq h.rep
  rw [Machine.activateForkRewind, Machine.activateForkRewind, hempty]
  refine .ite (fun _ => h.check rfl .emptyQueue) fun hne => ?_
  have hmid : l.tq.mid ≠ [] := by
    intro hnil
    exact hne (List.isEmpty_iff.mpr hnil)
  have hpeek : TriqueueOps.peekMiddle m.tq = TriqueueOps.peekMiddle l.tq :=
    Triqueue.peekMiddle_eq h.rep hmid
  rw [hpeek]
  cases TriqueueOps.peekMiddle l.tq with
  | none => exact h
  | some pevent =>
    have hset := h.setForkActive (S.env.detailOf pevent)
      (S.config.forkKeycode (S.env.detailOf pevent))
    have hcode := congrFun hset.forkActive (S.env.detailOf pevent)
    have hw := hset.writeMiddle hmid (S.env.rewriteEvent pevent
      ((l.setForkActive (S.env.detailOf pevent)
        (S.config.forkKeycode (S.env.detailOf pevent))).forkActive (S.env.detailOf pevent)))
    dsimp only
    rw [hcode]
    exact hw.moveToFirst.rewindMachine

end

/-! ## the transitions -/

section
variable [Zero Time] [LinearOrder Time] [Add Time] [NatCast Time] {S : Setup E Time}

omit [Zero Time] [NatCast Time] in
theorem Stands.verdict (h : Stands c m l) (e : E) : m.verdict S e = l.verdict S e := by
  cases h
  rfl

omit [LinearOrder Time] [Add Time] [NatCast Time] in
theorem Stands.noteForkRelease (h : Stands c m l) (e : E) :
    Stands c (m.noteForkRelease S e) (l.noteForkRelease S e) := by
  refine .ite (fun _ => h.recordLastReleaseEvent e) fun _ => ?_
  cases h with
  | mk _ q hq => exact .mk { l with lastReleased := noKey, lastReleasedTime := 0 } q hq

omit [Zero Time] [LinearOrder Time] [Add Time] [NatCast Time] in
theorem Stands.noteRelease (h : Stands c m l) (e : E) :
    Stands c (m.noteRelease S e) (l.noteRelease S e) :=
  .ite (fun _ => h.recordLastReleaseEvent e) fun _ => h

/-- every exit of the handlers -/
theorem Stands.respond (h : Stands c m l) (e : E) (hinp : l.tq.inp ≠ []) (v : Verdict) :
    Stands c (m.respond S e v) (l.respond S e v) := by
  cases v with
  | refork => exact h.moveToSecond.activateForkRewind
  | startSuspect =>
    cases h with
    | mk _ q hq =>
      exact (Stands.mk { l with
        state := .suspect
        suspect := S.env.detailOf e
        suspectTime := S.env.timeOf e
        mDecisionTime := S.env.timeOf e
          + S.config.verificationIntervalOf (S.env.detailOf e) noKey } q hq).moveToSecond
  | autoRepeat => exact h.moveToSecond.moveToFirst
  | selfFork =>
    have hset := h.setForkActive (S.env.detailOf e) (S.env.detailOf e)
    exact (hset.check (Triqueue.middleEmpty_eq hset.rep) _).moveToSecond.moveToFirst
  | unfork =>
    have hnote := h.noteForkRelease (S := S) e
    have hinp' : (l.noteForkRelease S e).tq.inp ≠ [] := by
      unfold Machine.noteForkRelease
      split_ifs <;> exact hinp
    have hcode := congrFun hnote.forkActive (S.env.detailOf e)
    simp only [Machine.respond, hcode]
    exact ((hnote.writeThird hinp' _).setForkActive _ _).moveToSecond.moveToFirst
  | pass => exact (h.noteRelease e).moveToSecond.moveToFirst
  | forkHead =>
    cases h with
    | mk _ q hq =>
      have h₁ := Stands.mk l q hq
      exact Stands.activateForkRewind (.ite (fun _ => h₁.moveToSecond) fun _ => h₁)
  | confirmHead => exact h.doConfirmNonForkBy
  | repeatHead =>
    cases h with
    | mk _ q hq => exact ((Stands.mk l q hq).setForkActive _ _).doConfirmNonForkBy
  | discard => exact h
  | verify =>
    cases h with
    | mk _ q hq =>
      exact (Stands.mk { l with
        state := .verify
        verificatorTime := S.env.timeOf e
        verificatorKeycode := S.env.detailOf e
        mDecisionTime := min l.mDecisionTime (S.config.verifierDecisionTime l.suspect
          l.suspectTime (S.env.detailOf e) (S.env.timeOf e)) } q hq).moveToSecond
  | unverify =>
    cases h with
    | mk _ q hq =>
      exact (Stands.mk { l with state := .suspect, verificatorKeycode := noKey } q hq).moveToSecond
  | wait => exact h.moveToSecond

theorem Stands.transitionByKey (h : Stands c m l) (e : E) (hinp : l.tq.inp ≠ []) :
    Stands c (m.transitionByKey S e) (l.transitionByKey S e) := by
  rw [transitionByKey_respond, transitionByKey_respond, h.verdict]
  exact h.respond e hinp _

/-- and both answer the same -/
def StandsWith {β : Type} (c : ℕ) (x : Machine (Triqueue E) Time × β)
    (y : Machine (ThreeLists E) Time × β) : Prop :=
  Stands c x.1 y.1 ∧ x.2 = y.2

omit [Zero Time] [LinearOrder Time] [Add Time] [NatCast Time] in
theorem StandsWith.ite {β : Type} {p : Prop} [Decidable p]
    {x x' : Machine (Triqueue E) Time × β} {y y' : Machine (ThreeLists E) Time × β}
    (ht : p → StandsWith c x y) (hf : ¬p → StandsWith c x' y') :
    StandsWith c (if p then x else x') (if p then y else y') :=
  rel_ite ht hf

omit [Add Time] [NatCast Time] in
theorem Stands.transitionByTime (h : Stands c m l) (t : Time) :
    StandsWith c (m.transitionByTime S t) (l.transitionByTime S t) := by
  cases h with
  | mk _ q hq =>
    have h₁ := Stands.mk l q hq
    refine .ite (fun _ => ⟨h₁.check (Eq.refl false) .timeStateNormal, rfl⟩) fun _ => ?_
    exact .ite (fun _ => ⟨h₁.activateForkRewind, rfl⟩) fun _ => ⟨h₁, rfl⟩

omit [LinearOrder Time] [Add Time] [NatCast Time] in
theorem Stands.transitionByForce (h : Stands c m l) :
    Stands c (m.transitionByForce S) (l.transitionByForce S) := by
  have hempty : TriqueueOps.middleEmpty m.tq = TriqueueOps.middleEmpty l.tq :=
    Triqueue.middleEmpty_eq h.rep
  rw [Machine.transitionByForce, Machine.transitionByForce, hempty]
  cases h with
  | mk _ q hq =>
    have h₁ := Stands.mk l q hq
    refine .ite (fun _ => h₁) fun _ => ?_
    exact .ite (fun _ => h₁.activateForkRewind) fun _ => h₁.check rfl .forceEmpty

omit [LinearOrder Time] [Add Time] [NatCast Time] in
theorem Stands.forceOrBreak (h : Stands c m l) (forceAlso : Bool) :
    StandsWith c (m.forceOrBreak S forceAlso) (l.forceOrBreak S forceAlso) := by
  cases h with
  | mk _ q hq =>
    have h₁ := Stands.mk l q hq
    exact .ite (fun _ => ⟨h₁.transitionByForce, rfl⟩) fun _ => ⟨h₁, rfl⟩

/-- **One iteration of the loop.** -/
theorem Stands.automatonBody (h : Stands c m l) (forceAlso : Bool) :
    StandsWith c (m.automatonBody S forceAlso) (l.automatonBody S forceAlso) := by
  have hempty : TriqueueOps.thirdEmpty m.tq = TriqueueOps.thirdEmpty l.tq :=
    Triqueue.thirdEmpty_eq h.rep
  rw [Machine.automatonBody, Machine.automatonBody, hempty]
  by_cases hinp : l.tq.inp = []
  · have ht : TriqueueOps.thirdEmpty l.tq = true := List.isEmpty_iff.mpr hinp
    rw [ht]
    obtain ⟨htime, hdecided⟩ := h.transitionByTime (S := S) m.mCurrentTime
    cases h with
    | mk _ q hq =>
      have h₁ := Stands.mk l q hq
      refine .ite (fun hc => absurd hc (by decide)) fun _ => ?_
      refine .ite (fun _ => ?_) fun _ => h₁.forceOrBreak forceAlso
      dsimp only
      rw [hdecided]
      exact .ite (fun _ => ⟨htime, rfl⟩) fun _ => htime.forceOrBreak forceAlso
  · have hpeek : TriqueueOps.peekThird m.tq = TriqueueOps.peekThird l.tq :=
      Triqueue.peekThird_eq h.rep hinp
    have ht : TriqueueOps.thirdEmpty l.tq = false := List.isEmpty_eq_false_iff.mpr hinp
    rw [ht, hpeek]
    refine .ite (fun _ => ?_) fun hc => absurd rfl hc
    cases TriqueueOps.peekThird l.tq with
    | none => exact ⟨h, rfl⟩
    | some e => exact ⟨h.transitionByKey e hinp, rfl⟩

end

/-! ## the rest of a call -/

theorem Stands.popEventIfPresent (h : Stands c m l) :
    m.popEventIfPresent.1 = l.popEventIfPresent.1 ∧
      Stands c m.popEventIfPresent.2 l.popEventIfPresent.2 := by
  have hpop : TriqueueOps.canPop m.tq = TriqueueOps.canPop l.tq := Triqueue.canPop_eq h.rep
  rw [Machine.popEventIfPresent, Machine.popEventIfPresent, hpop]
  by_cases hout : l.tq.out = []
  · have hc : ¬TriqueueOps.canPop l.tq = true := by simp [TriqueueOps.canPop, hout]
    rw [if_neg hc, if_neg hc]
    exact ⟨rfl, h⟩
  · have hc : TriqueueOps.canPop l.tq = true := by simp [TriqueueOps.canPop, hout]
    rw [if_pos hc, if_pos hc]
    have hall : l.tq.all ≠ [] := by simp [ThreeLists.all, hout]
    exact ⟨CircularBuffer.front_eq h.rep.holds hall, h.pop hout⟩

theorem Stands.pushTimeToNext [Zero Time] {S : Setup E Time} (h : Stands c m l) :
    (m.pushTimeToNext S).1 = (l.pushTimeToNext S).1 ∧
      Stands c (m.pushTimeToNext S).2 (l.pushTimeToNext S).2 := by
  have hfirst : TriqueueOps.first m.tq = TriqueueOps.first l.tq := Triqueue.first_eq h.rep
  rw [Machine.pushTimeToNext, Machine.pushTimeToNext, hfirst]
  cases h with
  | mk _ q hq =>
    cases TriqueueOps.first l.tq with
    | none => exact ⟨rfl, .mk l q hq⟩
    | some e => exact ⟨rfl, .mk { l with mCurrentTime := 0 } q hq⟩

end Machine

open Machine

/-- two effects with the same control, pushed events and observations -/
structure EffectAlike (c : ℕ) (x : Effect (Triqueue E) E Time) (y : Effect (ThreeLists E) E Time) :
    Prop where
  stands : Stands c x.machine y.machine
  control : x.control = y.control
  pushed : x.pushed = y.pushed
  seen : x.seen = y.seen

/-- two systems with the same control, pushed events and trace -/
structure Alike (c : ℕ) (s : Sys (Triqueue E) E Time) (t : Sys (ThreeLists E) E Time) : Prop where
  stands : Stands c s.machine t.machine
  control : s.control = t.control
  pushed : s.pushed = t.pushed
  trace : s.trace = t.trace

theorem Alike.apply {s : Sys (Triqueue E) E Time} {t : Sys (ThreeLists E) E Time}
    (h : Alike c s t) {x : Effect (Triqueue E) E Time} {y : Effect (ThreeLists E) E Time}
    (hx : EffectAlike c x y) : Alike c (s.apply x) (t.apply y) where
  stands := hx.stands
  control := hx.control
  pushed := congrArg₂ (· ++ ·) h.pushed hx.pushed
  trace := congrArg₂ (· ++ ·) h.trace hx.seen

section
variable [Zero Time] [LinearOrder Time] [Add Time] [NatCast Time] {S : Setup E Time}
  {m : Machine (Triqueue E) Time} {l : Machine (ThreeLists E) Time}

omit [LinearOrder Time] [Add Time] [NatCast Time] [Zero Time] in
theorem EffectAlike.ite {p : Prop} [Decidable p] {x x' : Effect (Triqueue E) E Time}
    {y y' : Effect (ThreeLists E) E Time} (ht : p → EffectAlike c x y)
    (hf : ¬p → EffectAlike c x' y') :
    EffectAlike c (if p then x else x') (if p then y else y') :=
  rel_ite ht hf

omit [Add Time] [NatCast Time] in
theorem enter_alike (h : Stands c m l) {a : Call E Time}
    (hroom : (enter S l a).pushed ≠ [] → l.tq.all.length < c) :
    EffectAlike c (enter S m a) (enter S l a) := by
  cases h with
  | mk _ q hq =>
    cases a with
    | acceptConfirmation => exact ⟨.mk l q hq, rfl, rfl, rfl⟩
    | acceptTime now =>
      refine EffectAlike.ite (fun _ => ⟨.mk l q hq, rfl, rfl, rfl⟩) fun _ => ?_
      exact ⟨.mk { l with mCurrentTime := now } q hq, rfl, rfl, rfl⟩
    | acceptEvent e =>
      let l₁ : Machine (ThreeLists E) Time := { l with mCurrentTime := 0 }
      have h₁ := Stands.mk l₁ q hq
      refine EffectAlike.ite (fun _ => ⟨h₁, rfl, rfl, rfl⟩) fun hmax => ?_
      refine EffectAlike.ite (fun _ => ⟨h₁, rfl, rfl, rfl⟩) fun hf => ?_
      have hpush : (enter S l (.acceptEvent e)).pushed = [e] := by
        rw [enter, acceptEvent, if_neg hmax]
        exact congrArg Effect.pushed (if_neg hf)
      have hlen := hroom (by rw [hpush]; exact List.cons_ne_nil _ _)
      exact ⟨h₁.setQueue (Triqueue.rep_push hq hlen e), rfl, rfl, rfl⟩

/-- **One step of a call.** -/
theorem tick_alike (h : Stands c m l) (frozen : Bool) (control : Control E Time) :
    Option.Rel (EffectAlike c) (tick S m frozen control) (tick S l frozen control) := by
  cases control with
  | idle => exact .none
  | runAutomaton f => exact .some ⟨h, rfl, rfl, rfl⟩
  | automatonLoop f =>
    refine rel_ite (fun _ => .some ⟨h, rfl, rfl, rfl⟩) fun _ => .some ?_
    obtain ⟨hbody, hagain⟩ := h.automatonBody (S := S) f
    exact ⟨hbody, congrArg (fun again : Bool => if again then Control.automatonLoop f
      else Control.flushLoop f) hagain, rfl, rfl⟩
  | flushLoop f =>
    refine rel_ite (fun _ => .some ⟨h, rfl, rfl, rfl⟩) fun _ => ?_
    obtain ⟨hitem, hpop⟩ := h.popEventIfPresent
    rcases hm : m.popEventIfPresent with ⟨_ | e, m₁⟩ <;>
      rcases hl : l.popEventIfPresent with ⟨_ | e', l₁⟩ <;> rw [hm, hl] at hitem hpop
    · exact .some ⟨hpop, rfl, rfl, rfl⟩
    · cases hitem
    · cases hitem
    · cases hitem
      exact .some ⟨hpop, rfl, rfl, rfl⟩
  | relayEvent f e => exact .some ⟨h, rfl, rfl, rfl⟩
  | flushEnd f =>
    refine rel_ite (fun _ => .some ⟨h, rfl, rfl, rfl⟩) fun _ => .some ?_
    obtain ⟨hnow, hpush⟩ := h.pushTimeToNext (S := S)
    exact ⟨hpush, congrArg (fun now => if now ≠ 0 then Control.pushTime f now
      else afterAutomaton f) hnow, rfl, rfl⟩
  | pushTime f now => exact .some ⟨h, rfl, rfl, rfl⟩
  | nextDecisionTime =>
    cases h with
    | mk _ q hq => exact .some ⟨.mk l q hq, rfl, rfl, rfl⟩
  | relock =>
    cases h with
    | mk _ q hq => exact rel_ite (fun _ => .none) fun _ => .some ⟨.mk l q hq, rfl, rfl, rfl⟩

theorem Machine.Stands.tick (h : Stands c m l) {frozen : Bool} {control : Control E Time}
    {x : Effect (Triqueue E) E Time} (hx : ForkNS.tick S m frozen control = some x) :
    ∃ y, ForkNS.tick S l frozen control = some y ∧ EffectAlike c x y := by
  have hrel := tick_alike (S := S) h frozen control
  rw [hx] at hrel
  generalize ForkNS.tick S l frozen control = y at hrel ⊢
  cases hrel with
  | some halike => exact ⟨_, rfl, halike⟩

omit [Zero Time] [LinearOrder Time] [Add Time] [NatCast Time] in
theorem push_length (l : ThreeLists E) (e : E) :
    (TriqueueOps.push l e).all.length = l.all.length + 1 := by
  simp [TriqueueOps.push, ThreeLists.all, Nat.add_assoc]

omit [Add Time] [NatCast Time] in
/-- a call pushes one event or none -/
theorem enter_size {Q : Type} [TriqueueOps Q E] (size : Q → ℕ)
    (hsize : ∀ q e, size (TriqueueOps.push q e) = size q + 1) (m : Machine Q Time)
    (a : Call E Time) :
    size (enter S m a).machine.tq = size m.tq + (enter S m a).pushed.length := by
  cases a with
  | acceptEvent e =>
    rw [enter, acceptEvent]
    dsimp only
    split_ifs <;> simp [hsize]
  | acceptTime now =>
    rw [enter, acceptTime]
    split_ifs <;> rfl
  | acceptConfirmation => rfl

omit [Add Time] [NatCast Time] in
theorem enter_pushed (h : Stands c m l) (a : Call E Time) :
    (enter S m a).pushed = (enter S l a).pushed := by
  cases h with
  | mk _ q hq =>
    let R (x : Effect (Triqueue E) E Time) (y : Effect (ThreeLists E) E Time) : Prop :=
      x.pushed = y.pushed
    cases a with
    | acceptEvent e =>
      exact rel_ite (R := R) (fun _ => rfl) fun _ => rel_ite (R := R) (fun _ => rfl) fun _ => rfl
    | acceptTime now => exact rel_ite (R := R) (fun _ => rfl) fun _ => rfl
    | acceptConfirmation => rfl

omit [Add Time] [NatCast Time] in
/-- a call finds room for what it pushes, when the ring does not hold too much after it -/
theorem Machine.Stands.room (h : Stands c m l) {a : Call E Time}
    (hfit : (enter S m a).machine.tq.buffer.contentsSize ≤ c)
    (hne : (enter S l a).pushed ≠ []) : l.tq.all.length < c := by
  have hall : m.tq.buffer.contentsSize = l.tq.all.length := h.rep.holds.size
  have hlen := enter_size (S := S) (fun q : Triqueue E => q.buffer.contentsSize)
    Triqueue.push_size m a
  rw [← enter_pushed h] at hne
  have hpos := List.length_pos_iff.mpr hne
  omega

/-! ## runs -/

variable {s : Sys (Triqueue E) E Time} {t : Sys (ThreeLists E) E Time}

/-- **One step of the system**, when there is room for what it pushes. -/
theorem step_alike (h : Alike c s t) {a : Act E Time}
    (hroom : ∀ b, a = .call b → (enter S t.machine b).pushed ≠ [] →
      t.machine.tq.all.length < c) :
    Option.Rel (Alike c) (s.step S a) (t.step S a) := by
  cases a with
  | tick frozen =>
    have ht := tick_alike (S := S) h.stands frozen t.control
    simp only [Sys.step, h.control]
    generalize tick S s.machine frozen t.control = x at ht ⊢
    generalize tick S t.machine frozen t.control = y at ht ⊢
    cases ht with
    | none => exact .none
    | some hxy => exact .some (h.apply hxy)
  | call a =>
    simp only [Sys.step, h.control]
    cases hc : t.control with
    | idle => exact .some (h.apply (enter_alike h.stands (hroom a rfl)))
    | _ => exact .none

omit [Add Time] [NatCast Time] in
theorem enter_pushes {Q : Type} [TriqueueOps Q E] {m : Machine Q Time} {a : Call E Time}
    (h : (enter S m a).pushed ≠ []) : ∃ e, a = .acceptEvent e := by
  cases a with
  | acceptEvent e => exact ⟨e, rfl⟩
  | acceptTime now =>
    refine absurd ?_ h
    rw [enter, acceptTime]
    split_ifs <;> rfl
  | acceptConfirmation => exact absurd rfl h

theorem unfrozen_alike (h : Alike c s t) : Option.Rel (Alike c) (s.unfrozen S) (t.unfrozen S) :=
  step_alike h fun b hb => by cases hb

/-- Without events there is always room. -/
theorem runs_alike (h : Alike c s t) {acts : List (Act E Time)} (hno : offered acts = []) :
    Option.Rel (Alike c) (runs (Sys.step S) s acts) (runs (Sys.step S) t acts) := by
  induction acts generalizing s t with
  | nil => exact .some h
  | cons a acts ih =>
    have hrel := step_alike (S := S) h (a := a) ?_
    · rw [runs_cons, runs_cons]
      generalize s.step S a = x at hrel ⊢
      generalize t.step S a = y at hrel ⊢
      cases hrel with
      | none => exact .none
      | some hxy =>
        refine ih hxy ?_
        cases a with
        | tick => exact hno
        | call b =>
          cases b with
          | acceptEvent e => cases hno
          | acceptTime now => exact hno
          | acceptConfirmation => exact hno
    · rintro b rfl hne
      obtain ⟨e, rfl⟩ := enter_pushes hne
      cases hno

omit [LinearOrder Time] [Add Time] [NatCast Time] in
theorem create_alike (hc : 2 ≤ c) :
    Alike c (Sys.create (Triqueue.create c) : Sys (Triqueue E) E Time) (Sys.create .nil) :=
  ⟨.mk (Machine.create .nil) (Triqueue.create c) (Triqueue.rep_create c hc), rfl, rfl, rfl⟩

/-- the queue `q` never holds more than `c`, as `size` counts -/
def Within {Q : Type} [TriqueueOps Q E] (S : Setup E Time) (size : Q → ℕ) (c : ℕ) (q : Q)
    (acts : List (Act E Time)) : Prop :=
  ∀ pre post s, acts = pre ++ post → runs (Sys.step S) (Sys.create q) pre = some s →
    size s.machine.tq ≤ c

theorem within_iff {Q : Type} [TriqueueOps Q E] {size : Q → ℕ} {q : Q}
    {acts : List (Act E Time)} : Within S size c q acts ↔ ∀ n < acts.length + 1,
      ∀ s ∈ runs (Sys.step S) (Sys.create q) (acts.take n), size s.machine.tq ≤ c := by
  constructor
  · intro hw n _ s hs
    exact hw _ _ s (List.take_append_drop n acts).symm hs
  · rintro hw pre post s rfl hs
    refine hw pre.length (by rw [List.length_append]; omega) s ?_
    rwa [List.take_left]

theorem Within.left {Q : Type} [TriqueueOps Q E] {size : Q → ℕ} {q : Q}
    {pre post : List (Act E Time)} (hw : Within S size c q (pre ++ post)) :
    Within S size c q pre := by
  rintro pre' post' s rfl hs
  exact hw pre' (post' ++ post) s (List.append_assoc ..) hs

theorem Within.snoc {Q : Type} [TriqueueOps Q E] {size : Q → ℕ} {q : Q}
    {acts : List (Act E Time)} {a : Act E Time} (hw : Within S size c q acts)
    (h : ∀ s, runs (Sys.step S) (Sys.create q) (acts ++ [a]) = some s →
      size s.machine.tq ≤ c) : Within S size c q (acts ++ [a]) := by
  intro pre post s heq hs
  rcases List.eq_nil_or_concat post with rfl | ⟨post', b, rfl⟩
  · rw [List.append_nil] at heq
    exact h s (heq ▸ hs)
  · rw [List.concat_eq_append, ← List.append_assoc] at heq
    exact hw pre post' s (List.append_inj' heq rfl).1 hs

instance {Q : Type} [TriqueueOps Q E] (size : Q → ℕ) (q : Q) (acts : List (Act E Time)) :
    Decidable (Within S size c q acts) :=
  decidable_of_iff' _ within_iff

/-- the ring of capacity `c` is never asked to hold more -/
abbrev WithinCapacity (S : Setup E Time) (c : ℕ) (acts : List (Act E Time)) : Prop :=
  Within S (fun q : Triqueue E => q.buffer.contentsSize) c (Triqueue.create c) acts

/-- **A run over the ring is a run over three lists**, if the ring never holds more than its
capacity. -/
theorem ring_run (hc : 2 ≤ c) {acts : List (Act E Time)}
    (hw : WithinCapacity S c acts)
    (h : runs (Sys.step S) (Sys.create (Triqueue.create c)) acts = some s) :
    ∃ t, runs (Sys.step S) (Sys.create .nil) acts = some t ∧ Alike c s t := by
  induction acts using List.reverseRecOn generalizing s with
  | nil =>
    cases h
    exact ⟨_, rfl, create_alike hc⟩
  | append_singleton acts a ih =>
    obtain ⟨u, hu, hstep⟩ := runs_snoc_some.mp h
    obtain ⟨v, hv, halike⟩ := ih hw.left hu
    have hsize := hw (acts ++ [a]) [] s (List.append_nil _).symm h
    have hrel := step_alike (S := S) halike (a := a) ?_
    · rw [hstep] at hrel
      generalize hv' : v.step S a = y at hrel
      cases hrel with
      | some hst => exact ⟨_, runs_snoc_some.mpr ⟨v, hv, hv'⟩, hst⟩
    · rintro b rfl hne
      obtain ⟨-, rfl⟩ := Sys.step_call hstep
      exact halike.stands.room hsize hne

/-- whatever run over three lists it is -/
theorem ring_run_alike (hc : 2 ≤ c) {acts : List (Act E Time)} (hw : WithinCapacity S c acts)
    (h : runs (Sys.step S) (Sys.create (Triqueue.create c)) acts = some s)
    (ht : runs (Sys.step S) (Sys.create .nil) acts = some t) : Alike c s t := by
  obtain ⟨t', ht', halike⟩ := ring_run hc hw h
  obtain rfl := Option.some.inj (ht'.symm.trans ht)
  exact halike

/-- `e` arrives in the state `u` of the run `acts` -/
def Arrives (S : Setup E Time) (c : ℕ) (acts : List (Act E Time)) (u : Sys (Triqueue E) E Time)
    (e : E) : Prop :=
  ∃ pre post, acts = pre ++ .call (.acceptEvent e) :: post ∧
    runs (Sys.step S) (Sys.create (Triqueue.create c)) pre = some u

theorem Arrives.snoc {acts : List (Act E Time)} {e : E} (h : Arrives S c acts s e)
    (a : Act E Time) : Arrives S c (acts ++ [a]) s e := by
  obtain ⟨pre, post, rfl, hpre⟩ := h
  exact ⟨pre, post ++ [a], by simp, hpre⟩

/-- the ring is within its capacity if it has room for every event that arrives -/
theorem within_of_room (hc : 2 ≤ c) {acts : List (Act E Time)}
    (hroom : ∀ u e, Arrives S c acts u e → u.machine.tq.buffer.size < c) :
    WithinCapacity S c acts := by
  induction acts using List.reverseRecOn with
  | nil =>
    intro pre post s heq hs
    obtain ⟨rfl, rfl⟩ := List.append_eq_nil_iff.mp heq.symm
    cases hs
    exact Nat.zero_le c
  | append_singleton acts a ih =>
    have hw := ih fun u e he => hroom u e (he.snoc a)
    refine hw.snoc fun s hs => ?_
    obtain ⟨u, hu, hstep⟩ := runs_snoc_some.mp hs
    obtain ⟨v, -, halike⟩ := ring_run hc hw hu
    have hrel := step_alike (S := S) halike (a := a) ?_
    · rw [hstep] at hrel
      generalize v.step S a = y at hrel
      cases hrel with
      | some hst =>
        rw [hst.stands.rep.holds.size]
        exact hst.stands.rep.holds.fits
    · rintro b rfl hne
      obtain ⟨e, rfl⟩ := enter_pushes hne
      rw [← halike.stands.rep.holds.size]
      exact hroom u e ⟨acts, [], rfl, hu⟩

/-- **And the other way round.** -/
theorem ring_run_of_lists (hc : 2 ≤ c) {acts : List (Act E Time)}
    (hw : Within S (fun l => l.all.length) c ThreeLists.nil acts)
    (h : runs (Sys.step S) (Sys.create .nil) acts = some t) :
    ∃ s, runs (Sys.step S) (Sys.create (Triqueue.create c)) acts = some s ∧ Alike c s t := by
  induction acts using List.reverseRecOn generalizing t with
  | nil =>
    cases h
    exact ⟨_, rfl, create_alike hc⟩
  | append_singleton acts a ih =>
    obtain ⟨v, hv, hstep⟩ := runs_snoc_some.mp h
    obtain ⟨u, hu, halike⟩ := ih hw.left hv
    have hsize := hw (acts ++ [a]) [] t (List.append_nil _).symm h
    have hrel := step_alike (S := S) halike (a := a) ?_
    · rw [hstep] at hrel
      generalize hu' : u.step S a = x at hrel
      cases hrel with
      | some hst => exact ⟨_, runs_snoc_some.mpr ⟨u, hu, hu'⟩, hst⟩
    · rintro b rfl hne
      obtain ⟨-, rfl⟩ := Sys.step_call hstep
      have hlen := enter_size (S := S) (fun l : ThreeLists E => l.all.length)
        push_length v.machine b
      have hpos := List.length_pos_iff.mpr hne
      have hsize' : (enter S v.machine b).machine.tq.all.length ≤ c := hsize
      omega

end

end ForkNS
