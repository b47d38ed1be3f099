import ForkPlugin.Machine.Sends
import ForkPlugin.Machine.TestEvents
import ForkPlugin.Runs.Keystroke

/-!
# After all keys are released the machine is as new

Some fields keep old values when nothing is suspected.  All of them are written before they are
read, except for the last release: it matters to a press of that key, soon after.

* `Leftover`, `withLeftover`   these fields, and a machine with others in them;
* `Renews`        where they do not matter, as long as only events with `F` come;
* `enact_renews`, `body_renews`, `tick_renews`   they do not, step by step;
* `Begins`        a first call that sets the clock;
* `as_new`        where all keys are released and all events relayed, the machine goes on as a
                  new one would.
-/

namespace ForkNS

open Machine Runs

variable {E Time : Type}

structure Leftover (Time : Type) where
  suspectTime : Time
  verificatorTime : Time
  lastReleased : Keycode
  lastReleasedTime : Time

/-- other values in the fields that are left over -/
def Machine.withLeftover (m : ListMachine E Time) (x : Leftover Time) : ListMachine E Time :=
  { m with suspectTime := x.suspectTime, verificatorTime := x.verificatorTime,
           lastReleased := x.lastReleased, lastReleasedTime := x.lastReleasedTime }

section
variable [LinearOrder Time] [Add Time] (S : Setup E Time)

/-- no press of `e` is taken for an auto-repeat after the release of `key` at `time` -/
def Unremembered (key : Keycode) (time : Time) (e : E) : Prop :=
  key = S.env.detailOf e → timeDifferenceMore (S.env.timeOf e) time S.config.repeatMax = true

/-- the leftovers `x` do for those of `m`, when only events with `F` come -/
structure Renews (F : E → Prop) (m : ListMachine E Time) (x : Leftover Time) : Prop where
  suspectTime : m.state ≠ .normal → x.suspectTime = m.suspectTime
  released : (x.lastReleased = m.lastReleased ∧ x.lastReleasedTime = m.lastReleasedTime) ∨
    ∀ e, F e → Unremembered S m.lastReleased m.lastReleasedTime e ∧
      Unremembered S x.lastReleased x.lastReleasedTime e

variable {S} {F : E → Prop} {m : ListMachine E Time} {x : Leftover Time}

/-! ## one event -/

theorem unremembered_or {key : Keycode} {time : Time} {e : E} (h : Unremembered S key time e) :
    (key != S.env.detailOf e || timeDifferenceMore (S.env.timeOf e) time S.config.repeatMax)
      = true := by
  by_cases hk : key = S.env.detailOf e
  · rw [h hk, Bool.or_true]
  · simp [hk]

theorem verdict_renews (h : Renews S F m x) {e : E} (he : F e) :
    (m.withLeftover x).verdict S e = m.verdict S e := by
  have hreleased : (x.lastReleased != S.env.detailOf e
        || timeDifferenceMore (S.env.timeOf e) x.lastReleasedTime S.config.repeatMax)
      = (m.lastReleased != S.env.detailOf e
        || timeDifferenceMore (S.env.timeOf e) m.lastReleasedTime S.config.repeatMax) := by
    rcases h.released with ⟨hk, ht⟩ | hnot
    · rw [hk, ht]
    · rw [unremembered_or (hnot e he).1, unremembered_or (hnot e he).2]
  have hnormal : (m.withLeftover x).normalVerdict S e = m.normalVerdict S e := by
    simp only [normalVerdict, withLeftover, hreleased]
    rfl
  simp only [verdict, hnormal]
  rfl

end

section
variable [Zero Time] {S : Setup E Time}

theorem forkHead_leftover (m : ListMachine E Time) (x : Leftover Time) :
    (m.withLeftover x).forkHead S = (m.forkHead S).withLeftover x := by
  rcases hmid : m.tq.mid with - | ⟨h, t⟩
  · rw [forkHead_nil S hmid, forkHead_nil S (m := m.withLeftover x) hmid]
  · rw [forkHead_cons S hmid, forkHead_cons S (m := m.withLeftover x) hmid]
    rfl

theorem confirmHead_leftover (m : ListMachine E Time) (x : Leftover Time) :
    (m.withLeftover x).confirmHead = m.confirmHead.withLeftover x := by
  rcases hmid : m.tq.mid with - | ⟨h, t⟩
  · rw [confirmHead_nil hmid, confirmHead_nil (m := m.withLeftover x) hmid]
  · rw [confirmHead_cons hmid, confirmHead_cons (m := m.withLeftover x) hmid]
    rfl

end

section
variable [LinearOrder Time] [Add Time] [Zero Time] [NatCast Time] {S : Setup E Time}
  {F : E → Prop} {m : ListMachine E Time} {x : Leftover Time}

omit [Zero Time] [NatCast Time] in
/-- where the last release stays, and nothing new is suspected -/
theorem Renews.of_same (h : Renews S F m x) {m' : ListMachine E Time}
    (hk : m'.lastReleased = m.lastReleased) (ht : m'.lastReleasedTime = m.lastReleasedTime)
    (hs : m'.state ≠ .normal → m.state ≠ .normal ∧ m'.suspectTime = m.suspectTime) :
    Renews S F m' x where
  suspectTime hs' := (h.suspectTime (hs hs').1).trans (hs hs').2.symm
  released := by
    rw [hk, ht]
    exact h.released

omit [NatCast Time] in
theorem Renews.forkHead (h : Renews S F m x) : Renews S F (m.forkHead S) x := by
  rcases hmid : m.tq.mid with - | ⟨e, t⟩
  · rwa [forkHead_nil S hmid]
  · rw [forkHead_cons S hmid]
    exact h.of_same rfl rfl fun hs => absurd rfl hs

omit [NatCast Time] in
theorem Renews.confirmHead (h : Renews S F m x) : Renews S F m.confirmHead x := by
  rcases hmid : m.tq.mid with - | ⟨e, t⟩
  · rwa [confirmHead_nil hmid]
  · rw [confirmHead_cons hmid]
    exact h.of_same rfl rfl fun hs => absurd rfl hs

/-- **One event** overwrites the leftovers that it reads. -/
theorem enact_renews (h : Renews S F m x) (e : E) :
    ∃ x', (m.withLeftover x).enact S e (m.verdict S e)
        = (m.enact S e (m.verdict S e)).withLeftover x' ∧
      Renews S F (m.enact S e (m.verdict S e)) x' := by
  have hg := guard_verdict S m e
  generalize m.verdict S e = v at hg ⊢
  cases v with
  | refork => exact ⟨x, rfl, h.of_same rfl rfl fun hs => absurd rfl hs⟩
  | startSuspect =>
    exact ⟨{ x with suspectTime := S.env.timeOf e }, rfl, fun _ => rfl, h.released⟩
  | autoRepeat => exact ⟨x, rfl, h.of_same rfl rfl fun hs => ⟨hs, rfl⟩⟩
  | selfFork => exact ⟨x, rfl, h.of_same rfl rfl fun hs => ⟨hs, rfl⟩⟩
  | unfork =>
    refine ⟨{ x with
      lastReleased := ((m.recordForkRelease S e)).lastReleased
      lastReleasedTime := ((m.recordForkRelease S e)).lastReleasedTime }, ?_, ?_⟩
    · simp only [enact, recordForkRelease]
      split_ifs <;> rfl
    · refine ⟨fun hs => absurd hg.1 ?_, .inl ⟨rfl, rfl⟩⟩
      intro hn
      refine hs ?_
      show (m.recordForkRelease S e).state = .normal
      obtain ⟨k, t, hk⟩ := recordForkRelease_eq S m e
      rw [hk]
      exact hn
  | pass =>
    by_cases hr : S.env.releaseP e = true
    · refine ⟨{ x with lastReleased := S.env.detailOf e, lastReleasedTime := S.env.timeOf e }, ?_,
        ?_⟩
      · simp only [enact, recordRelease, if_pos hr]
        rfl
      · simp only [enact, recordRelease, if_pos hr]
        exact ⟨fun hs => absurd hg.1 hs, .inl ⟨rfl, rfl⟩⟩
    · refine ⟨x, ?_, ?_⟩
      · simp only [enact, recordRelease, if_neg hr]
        rfl
      · simp only [enact, recordRelease, if_neg hr]
        exact h.of_same rfl rfl fun hs => ⟨hs, rfl⟩
  | forkHead => exact ⟨x, forkHead_leftover m x, h.forkHead⟩
  | confirmHead => exact ⟨x, confirmHead_leftover m x, h.confirmHead⟩
  | repeatHead =>
    have hself : Renews S F (m.setForkActive m.suspect m.suspect) x :=
      h.of_same rfl rfl fun hs => ⟨hs, rfl⟩
    exact ⟨x, confirmHead_leftover (m.setForkActive m.suspect m.suspect) x, hself.confirmHead⟩
  | discard => exact ⟨x, rfl, h⟩
  | verify =>
    have hs : m.state ≠ .normal := by
      rw [hg.1]
      decide
    have hstart : (m.withLeftover x).startVerify S e
        = (m.startVerify S e).withLeftover { x with verificatorTime := S.env.timeOf e } := by
      simp only [startVerify, withLeftover, h.suspectTime hs]
    refine ⟨{ x with verificatorTime := S.env.timeOf e }, ?_, fun _ => h.suspectTime hs,
      h.released⟩
    rw [enact, hstart]
    rfl
  | unverify =>
    have hs : m.state ≠ .normal := by
      rw [hg.1]
      decide
    exact ⟨x, rfl, h.of_same rfl rfl fun _ => ⟨hs, rfl⟩⟩
  | wait => exact ⟨x, rfl, h.of_same rfl rfl fun hs => ⟨hs, rfl⟩⟩

/-! ## one step -/

/-- one iteration of the loop -/
theorem body_renews (hm : Sound S m) (h : Renews S F m x) (hline : ∀ e ∈ m.line, F e) (f : Bool) :
    ∃ x', (m.withLeftover x).automatonBody S f
        = ((m.automatonBody S f).1.withLeftover x', (m.automatonBody S f).2) ∧
      Renews S F (m.automatonBody S f).1 x' := by
  have hn := hm.coherent.normal_iff
  rcases hi : m.tq.inp with - | ⟨e, rest⟩
  · have hte : TriqueueOps.thirdEmpty m.tq = true := by simp [TriqueueOps.thirdEmpty, hi]
    have hte' : TriqueueOps.thirdEmpty (m.withLeftover x).tq = true := hte
    have hdue : (m.withLeftover x).TimerDue ↔ m.TimerDue := Iff.rfl
    by_cases hd : m.TimerDue
    · have hmid : m.tq.mid ≠ [] := fun hmid => hd.1 (hn.mpr hmid)
      rw [automatonBody_time hte hd, automatonBody_time hte' (hdue.mpr hd),
        activateForkRewind_eq S hmid, activateForkRewind_eq S (m := m.withLeftover x) hmid,
        forkHead_leftover]
      exact ⟨x, rfl, h.forkHead⟩
    by_cases hf : f = true ∧ m.state ≠ .normal
    · have hmid : m.tq.mid ≠ [] := fun hmid => hf.2 (hn.mpr hmid)
      rw [automatonBody_force hte hd hf, automatonBody_force hte' (mt hdue.mp hd) hf,
        transitionByForce_eq hf.2 hmid, transitionByForce_eq (m := m.withLeftover x) hf.2 hmid,
        forkHead_leftover]
      exact ⟨x, rfl, h.forkHead⟩
    · rw [automatonBody_done hte hd hf, automatonBody_done hte' (mt hdue.mp hd) hf]
      exact ⟨x, rfl, h⟩
  · have he : F e := hline e (List.mem_append_right _ (by rw [hi]; exact List.mem_cons_self))
    rw [automatonBody_enact hn hi, automatonBody_enact (m := m.withLeftover x) hn hi,
      verdict_renews h he]
    obtain ⟨x', hx', h'⟩ := enact_renews h e
    exact ⟨x', by rw [hx'], h'⟩

/-- the leftovers of an effect -/
def Effect.withLeftover (y : Effect (ThreeLists E) E Time) (x : Leftover Time) :
    Effect (ThreeLists E) E Time :=
  { y with machine := y.machine.withLeftover x }

omit [LinearOrder Time] [Add Time] [Zero Time] [NatCast Time] in
theorem pop_leftover (m : ListMachine E Time) (x : Leftover Time) :
    (m.withLeftover x).popEventIfPresent
      = (m.popEventIfPresent.1, m.popEventIfPresent.2.withLeftover x) := by
  rcases ho : m.tq.out with - | ⟨e, out⟩
  · rw [popEventIfPresent_nil ho, popEventIfPresent_nil (m := m.withLeftover x) ho]
  · rw [popEventIfPresent_eq ho, popEventIfPresent_eq (m := m.withLeftover x) ho]
    rfl

omit [LinearOrder Time] [Add Time] [NatCast Time] in
theorem pushTime_leftover (m : ListMachine E Time) (x : Leftover Time) :
    (m.withLeftover x).pushTimeToNext S
      = ((m.pushTimeToNext S).1, (m.pushTimeToNext S).2.withLeftover x) := by
  have htq : (m.withLeftover x).tq = m.tq := rfl
  unfold pushTimeToNext
  rw [htq]
  cases TriqueueOps.first m.tq <;> rfl

omit [Zero Time] [NatCast Time] in
/-- the leftovers stay as they are -/
theorem Renews.pop (h : Renews S F m x) : Renews S F m.popEventIfPresent.2 x := by
  rcases ho : m.tq.out with - | ⟨e, out⟩
  · rwa [popEventIfPresent_nil ho]
  · rw [popEventIfPresent_eq ho]
    exact h.of_same rfl rfl fun hs => ⟨hs, rfl⟩

omit [NatCast Time] in
theorem Renews.pushTime (h : Renews S F m x) : Renews S F (m.pushTimeToNext S).2 x := by
  unfold pushTimeToNext
  cases TriqueueOps.first m.tq with
  | none => exact h
  | some item => exact h.of_same rfl rfl fun hs => ⟨hs, rfl⟩

/-- a further step of a call -/
theorem tick_renews (hm : Sound S m) (h : Renews S F m x) (hline : ∀ e ∈ m.line, F e)
    {frozen : Bool} {control : Control E Time} {y : Effect (ThreeLists E) E Time}
    (hy : tick S m frozen control = some y) :
    ∃ x', tick S (m.withLeftover x) frozen control = some (y.withLeftover x') ∧
      Renews S F y.machine x' := by
  cases control with
  | idle => cases hy
  | runAutomaton f =>
    cases hy
    exact ⟨x, rfl, h⟩
  | automatonLoop f =>
    cases frozen with
    | true =>
      cases hy
      exact ⟨x, rfl, h⟩
    | false =>
      obtain ⟨x', hx', h'⟩ := body_renews hm h hline f
      cases hy
      refine ⟨x', ?_, h'⟩
      simp only [tick, hx']
      rfl
  | flushLoop f =>
    cases frozen with
    | true =>
      cases hy
      exact ⟨x, rfl, h⟩
    | false =>
      have hpop := h.pop
      simp only [tick, pop_leftover] at hy ⊢
      generalize m.popEventIfPresent = item at hy hpop ⊢
      obtain ⟨_ | e, m'⟩ := item
      · cases hy
        exact ⟨x, rfl, hpop⟩
      · cases hy
        exact ⟨x, rfl, hpop⟩
  | relayEvent f e =>
    cases hy
    exact ⟨x, rfl, h⟩
  | flushEnd f =>
    cases frozen with
    | true =>
      cases hy
      exact ⟨x, rfl, h⟩
    | false =>
      have hpush := h.pushTime
      simp only [tick, pushTime_leftover] at hy ⊢
      cases hy
      exact ⟨x, rfl, hpush⟩
  | pushTime f now =>
    cases hy
    exact ⟨x, rfl, h⟩
  | nextDecisionTime =>
    cases hy
    exact ⟨x, rfl, h⟩
  | relock =>
    simp only [tick] at hy ⊢
    split_ifs at hy ⊢ with hl
    cases hy
    exact ⟨x, rfl, h⟩

omit [NatCast Time] in
/-- the first block of a call -/
theorem enter_renews (h : Renews S F m x) (a : Call E Time) :
    enter S (m.withLeftover x) a = (enter S m a).withLeftover x ∧
      Renews S F (enter S m a).machine x := by
  have hclock : ∀ now, Renews S F { m with mCurrentTime := now } x := fun now =>
    h.of_same rfl rfl fun hs => ⟨hs, rfl⟩
  cases a with
  | acceptEvent e =>
    have hkey : ({ m with mCurrentTime := 0 } : ListMachine E Time).keyForked = m.keyForked := rfl
    have hkey' : ({ m.withLeftover x with mCurrentTime := 0 } : ListMachine E Time).keyForked
        = m.keyForked := rfl
    simp only [enter, acceptEvent, hkey, hkey']
    split_ifs with hmax hforked
    · exact ⟨rfl, hclock 0⟩
    · exact ⟨rfl, hclock 0⟩
    · exact ⟨rfl, (hclock 0).of_same rfl rfl fun hs => ⟨hs, rfl⟩⟩
  | acceptTime now =>
    have hcur : (m.withLeftover x).mCurrentTime = m.mCurrentTime := rfl
    simp only [enter, acceptTime, hcur]
    split_ifs with hback
    · exact ⟨rfl, h⟩
    · exact ⟨rfl, hclock now⟩
  | acceptConfirmation => exact ⟨rfl, h⟩

/-! ## runs -/

/-- `t` began as a new machine where the other one was in `s₀`, and has done since what brought
that one to `s` -/
structure Since (S : Setup E Time) (F : E → Prop) (s₀ s t : Sys (ThreeLists E) E Time) : Prop where
  machine : ∃ x, t.machine = s.machine.withLeftover x ∧ Renews S F s.machine x
  control : t.control = s.control
  pushed : s.pushed = s₀.pushed ++ t.pushed
  trace : s.trace = s₀.trace ++ t.trace

omit [Zero Time] [NatCast Time] in
theorem Since.apply {s₀ s t : Sys (ThreeLists E) E Time} (h : Since S F s₀ s t)
    {y : Effect (ThreeLists E) E Time} (hx : Renews S F y.machine x) :
    Since S F s₀ (s.apply y) (t.apply (y.withLeftover x)) where
  machine := ⟨x, rfl, hx⟩
  control := rfl
  pushed := by
    show s.pushed ++ y.pushed = s₀.pushed ++ (t.pushed ++ y.pushed)
    rw [h.pushed, List.append_assoc]
  trace := by
    show s.trace ++ y.seen = s₀.trace ++ (t.trace ++ y.seen)
    rw [h.trace, List.append_assoc]

theorem Since.step {s₀ s t s' : Sys (ThreeLists E) E Time} (h : Since S F s₀ s t)
    (hs : Sound S s.machine) (hline : ∀ e ∈ s.machine.line, F e) {a : Act E Time}
    (hstep : s.step S a = some s') : ∃ t', t.step S a = some t' ∧ Since S F s₀ s' t' := by
  obtain ⟨x, hmachine, hx⟩ := h.machine
  cases a with
  | call b =>
    obtain ⟨hidle, rfl⟩ := Sys.step_call hstep
    obtain ⟨henter, hx'⟩ := enter_renews hx b
    refine ⟨t.apply ((enter S s.machine b).withLeftover x), ?_, h.apply hx'⟩
    simp only [Sys.step, h.control, hidle, hmachine, henter]
  | tick frozen =>
    obtain ⟨y, hy, rfl⟩ := Sys.step_tick hstep
    obtain ⟨x', htick, hx'⟩ := tick_renews hs hx hline hy
    refine ⟨t.apply (y.withLeftover x'), ?_, h.apply hx'⟩
    simp only [Sys.step, h.control, hmachine, htick]
    rfl

/-- the first call sets the clock -/
def Begins {Q : Type} (m : Machine Q Time) : Act E Time → Prop
  | .call .acceptConfirmation => False
  | .call (.acceptTime now) => m.mCurrentTime ≤ now ∧ 0 ≤ now
  | _ => True

/-- a new machine, with the clock and the leftovers of one that has nothing to do -/
theorem create_leftover (hs : Sound S m) (hall : m.tq.all = [])
    (hunforked : ∀ k, m.forkActive k = noKey) :
    Machine.create .nil
      = ({ m with mCurrentTime := 0 } : ListMachine E Time).withLeftover ⟨0, 0, noKey, 0⟩ := by
  obtain ⟨hleft, hinp⟩ := List.append_eq_nil_iff.mp hall
  obtain ⟨hout, hmid⟩ := List.append_eq_nil_iff.mp hleft
  obtain ⟨hstate, hsuspect, hverificator, hdecision⟩ := (coherent_nil hmid).mp hs.coherent
  have hbugs := hs.bugs
  have hfork : m.forkActive = fun _ => noKey := funext hunforked
  clear hs hunforked hall hleft
  rcases m with ⟨state, suspect, st, verificator, vt, k, t, decision, now, fork, ⟨out, mid, inp⟩,
    bugs⟩
  dsimp only at hout hmid hinp hstate hsuspect hverificator hdecision hbugs hfork
  subst hout hmid hinp hstate hsuspect hverificator hdecision hbugs hfork
  rfl

omit [Add Time] [NatCast Time] in
theorem enter_begins {b : Call E Time} (hb : Begins m (.call b)) :
    enter S m b = enter S { m with mCurrentTime := 0 } b := by
  cases b with
  | acceptEvent e => rfl
  | acceptTime now =>
    simp only [enter, acceptTime, gt_iff_lt, if_neg (not_lt.mpr hb.1), if_neg (not_lt.mpr hb.2)]
  | acceptConfirmation => exact absurd hb id

variable {acts : List (Act E Time)} {s : Sys (ThreeLists E) E Time}

/-- the first call -/
theorem since_first (h : runs (Sys.step S) (Sys.create .nil) acts = some s)
    (hall : s.machine.tq.all = []) (hup : ∀ k, isDown S.env s.pushed k = false)
    (hF : ∀ e, F e → S.env.detailOf e ≠ noKey ∧
      Unremembered S s.machine.lastReleased s.machine.lastReleasedTime e)
    {b : Call E Time} (hb : Begins s.machine (.call b)) :
    Since S F s (s.apply (enter S s.machine b))
      ((Sys.create .nil).apply (enter S (Machine.create .nil) b)) := by
  have hunforked : ∀ k, s.machine.forkActive k = noKey := by
    intro k
    by_contra hk
    obtain ⟨sent, hsent, hdown⟩ := down_of_forked h
    obtain ⟨hleft, hinp⟩ := List.append_eq_nil_iff.mp hall
    rw [(List.append_eq_nil_iff.mp hleft).2, hinp, List.append_nil, List.append_nil] at hsent
    have hkdown := hdown k hk
    rw [← hsent, hup k] at hkdown
    cases hkdown
  have hrenews : Renews S F ({ s.machine with mCurrentTime := 0 } : ListMachine E Time)
      ⟨0, 0, noKey, 0⟩ := by
    refine ⟨fun hs => absurd ?_ hs, .inr fun e he => ⟨(hF e he).2, fun hk => ?_⟩⟩
    · refine (runs_sound h).coherent.normal_iff.mpr ?_
      exact (List.append_eq_nil_iff.mp (List.append_eq_nil_iff.mp hall).1).2
    · exact absurd hk.symm (hF e he).1
  obtain ⟨henter, hx⟩ := enter_renews hrenews b
  rw [create_leftover (runs_sound h) hall hunforked, henter, enter_begins hb]
  exact ⟨⟨_, rfl, hx⟩, rfl, rfl, rfl⟩

/-- over three lists -/
theorem lists_as_new (h : runs (Sys.step S) (Sys.create .nil) acts = some s)
    (hidle : s.control = .idle) (hall : s.machine.tq.all = [])
    (hup : ∀ k, isDown S.env s.pushed k = false) {a : Act E Time} (ha : Begins s.machine a)
    {rest : List (Act E Time)} (hlate : ∀ e ∈ offered (a :: rest), S.env.detailOf e ≠ noKey ∧
      Unremembered S s.machine.lastReleased s.machine.lastReleasedTime e)
    {s' : Sys (ThreeLists E) E Time} (h' : runs (Sys.step S) s (a :: rest) = some s') :
    ∃ t, runs (Sys.step S) (Sys.create .nil) (a :: rest) = some t ∧
      Since S (fun e => S.env.detailOf e ≠ noKey ∧
        Unremembered S s.machine.lastReleased s.machine.lastReleasedTime e) s s' t := by
  induction rest using List.reverseRecOn generalizing s' with
  | nil =>
    cases a with
    | tick frozen =>
      have hnone : s.step S (.tick frozen) = none := by simp [Sys.step, hidle, tick]
      rw [runs_cons, hnone] at h'
      cases h'
    | call b =>
      have hstep : s.step S (.call b) = some (s.apply (enter S s.machine b)) := by
        simp [Sys.step, hidle]
      rw [runs_cons, hstep] at h'
      cases h'
      exact ⟨_, rfl, since_first h hall hup (fun _ he => he) ha⟩
  | append_singleton rest c ih =>
    rw [← List.cons_append] at h' hlate ⊢
    obtain ⟨u, hu, hstep⟩ := runs_snoc_some.mp h'
    obtain ⟨t, ht, hsince⟩ := ih (fun e he => hlate e (by
      rw [offered_append]
      exact List.mem_append_left _ he)) hu
    have hsound := runs_sound (runs_append_some.mpr ⟨s, h, hu⟩)
    have hline : ∀ e ∈ u.machine.line, e ∈ offered (a :: rest) := by
      obtain ⟨x, hx, -⟩ := hsince.machine
      intro e he
      refine line_offered ht e ?_
      rw [hx]
      exact he
    obtain ⟨t', hstep', hsince'⟩ := hsince.step hsound (fun e he => hlate e (by
      rw [offered_append]
      exact List.mem_append_left _ (hline e he))) hstep
    exact ⟨t', runs_snoc_some.mpr ⟨t, ht, hstep'⟩, hsince'⟩

/-- over three lists, also where nothing comes -/
theorem lists_goes_on (h : runs (Sys.step S) (Sys.create .nil) acts = some s)
    (hidle : s.control = .idle) (hall : s.machine.tq.all = [])
    (hup : ∀ k, isDown S.env s.pushed k = false) {acts' : List (Act E Time)}
    (hbegins : ∀ a ∈ acts'.head?, Begins s.machine a)
    (hlate : ∀ e ∈ offered acts', S.env.detailOf e ≠ noKey ∧
      Unremembered S s.machine.lastReleased s.machine.lastReleasedTime e)
    {s' : Sys (ThreeLists E) E Time} (h' : runs (Sys.step S) s acts' = some s') :
    ∃ t, runs (Sys.step S) (Sys.create .nil) acts' = some t ∧ t.control = s'.control ∧
      s'.pushed = s.pushed ++ t.pushed ∧ s'.trace = s.trace ++ t.trace ∧
      t.machine.tq = s'.machine.tq := by
  cases acts' with
  | nil =>
    cases h'
    refine ⟨_, rfl, hidle.symm, (List.append_nil _).symm, (List.append_nil _).symm, ?_⟩
    obtain ⟨hleft, hinp⟩ := List.append_eq_nil_iff.mp hall
    obtain ⟨hout, hmid⟩ := List.append_eq_nil_iff.mp hleft
    show ThreeLists.nil = ⟨s.machine.tq.out, s.machine.tq.mid, s.machine.tq.inp⟩
    rw [hout, hmid, hinp]
    rfl
  | cons a rest =>
    obtain ⟨t, ht, hsince⟩ := lists_as_new h hidle hall hup (hbegins a rfl) hlate h'
    obtain ⟨x, hx, -⟩ := hsince.machine
    exact ⟨t, ht, hsince.control, hsince.pushed, hsince.trace, by rw [hx]; rfl⟩

/-- **As new.**  All keys are released and all events relayed, and no event comes that the last
release could make an auto-repeat: whatever was typed before, a new machine that is called in the
same way is seen to do the same from then on. -/
theorem as_new {c : ℕ} (hcap : 2 ≤ c) {acts acts' : List (Act E Time)}
    (hw : WithinCapacity S c (acts ++ acts')) {s s' : Sys (Triqueue E) E Time}
    (h : runs (Sys.step S) (Sys.create (Triqueue.create c)) acts = some s)
    (hidle : s.control = .idle) (hempty : s.machine.tq.empty = true)
    (hup : ∀ k, isDown S.env s.pushed k = false)
    (hbegins : ∀ a ∈ acts'.head?, Begins s.machine a)
    (hlate : ∀ e ∈ offered acts', S.env.detailOf e ≠ noKey ∧
      Unremembered S s.machine.lastReleased s.machine.lastReleasedTime e)
    (h' : runs (Sys.step S) s acts' = some s') :
    ∃ t, runs (Sys.step S) (Sys.create (Triqueue.create c)) acts' = some t ∧
      t.control = s'.control ∧ s'.pushed = s.pushed ++ t.pushed ∧
      s'.trace = s.trace ++ t.trace ∧
      ∃ l l' : ListMachine E Time, Stands c s'.machine l ∧ Stands c t.machine l' ∧
        l'.tq = l.tq := by
  obtain ⟨v', hv', halike'⟩ := ring_run hcap hw (runs_append_some.mpr ⟨s, h, h'⟩)
  obtain ⟨v, hv, hrest⟩ := runs_append_some.mp hv'
  have halike := ring_run_alike hcap hw.left h hv
  have hall : v.machine.tq.all = [] := by
    rw [← List.isEmpty_iff, ← Triqueue.empty_eq halike.stands.rep]
    exact hempty
  obtain ⟨hkey, htime, hclock⟩ : s.machine.lastReleased = v.machine.lastReleased ∧
      s.machine.lastReleasedTime = v.machine.lastReleasedTime ∧
      s.machine.mCurrentTime = v.machine.mCurrentTime := by
    have hst := halike.stands
    generalize s.machine = m at hst
    cases hst
    exact ⟨rfl, rfl, rfl⟩
  rw [hkey, htime] at hlate
  have hvbegins : ∀ a ∈ acts'.head?, Begins v.machine a := by
    intro a ha
    have hb := hbegins a ha
    unfold Begins at hb ⊢
    rwa [hclock] at hb
  rw [halike.control] at hidle
  rw [halike.pushed] at hup
  obtain ⟨t, ht, hcontrol, hpushed, htrace, htq⟩ :=
    lists_goes_on hv hidle hall hup hvbegins hlate hrest
  -- the new machine has no more to hold than the old one
  have hroom : Within S (fun l => l.all.length) c ThreeLists.nil acts' := by
    rintro pre post u rfl hu
    obtain ⟨w, hw', -⟩ := runs_append_some.mp hrest
    have hpre : ∀ a ∈ pre.head?, Begins v.machine a := by
      intro a ha
      refine hvbegins a ?_
      rw [List.head?_append, ha]
      rfl
    obtain ⟨u', hu', -, -, -, huq⟩ := lists_goes_on hv hidle hall hup hpre
      (fun e he => hlate e (by rw [offered_append]; exact List.mem_append_left _ he)) hw'
    obtain rfl := Option.some.inj (hu'.symm.trans hu)
    have hold : runs (Sys.step S) (Sys.create .nil) (acts ++ pre) = some w :=
      runs_append_some.mpr ⟨v, hv, hw'⟩
    have hring : ∃ r, runs (Sys.step S) (Sys.create (Triqueue.create c)) (acts ++ pre)
        = some r := by
      obtain ⟨r, hr, -⟩ := runs_append_some.mp h'
      exact ⟨r, runs_append_some.mpr ⟨s, h, hr⟩⟩
    obtain ⟨r, hr⟩ := hring
    rw [← List.append_assoc] at hw
    have hfits := (ring_run_alike hcap hw.left hr hold).stands.rep.holds.fits
    rwa [← huq] at hfits
  obtain ⟨r, hr, hrt⟩ := ring_run_of_lists hcap hroom ht
  refine ⟨r, hr, ?_, ?_, ?_, v'.machine, t.machine, halike'.stands, hrt.stands, htq⟩
  · rw [hrt.control, hcontrol, halike'.control]
  · rw [halike'.pushed, hpushed, halike.pushed, hrt.pushed]
  · rw [halike'.trace, htrace, halike.trace, hrt.trace]

/-- key 1 is forked by a timer, and released -/
def forkedOnce : List (Act TestEvent Nat) :=
  during (.acceptEvent (down 1 100)) 7 ++ during (.acceptTime 1100) 9 ++
    during (.acceptEvent (up 1 1110)) 8

/-- key 3 is, soon after -/
def forkedNext : List (Act TestEvent Nat) :=
  during (.acceptEvent (down 3 1120)) 7 ++ during (.acceptTime 1400) 9

theorem as_new_next : ∃ s s',
    runs (Sys.step testSetup) (Sys.create (Triqueue.create 2)) forkedOnce = some s ∧
    runs (Sys.step testSetup) s forkedNext = some s' ∧
    relayed s'.trace = [down 11 100, up 11 1110, down 13 1120] ∧
    ∃ t, runs (Sys.step testSetup) (Sys.create (Triqueue.create 2)) forkedNext = some t ∧
      t.control = s'.control ∧ s'.pushed = s.pushed ++ t.pushed ∧
      s'.trace = s.trace ++ t.trace ∧
      ∃ l l' : ListMachine TestEvent Nat, Stands 2 s'.machine l ∧ Stands 2 t.machine l' ∧
        l'.tq = l.tq := by
  have hall := Option.eq_some_of_isSome (o := runs (Sys.step testSetup)
    (Sys.create (Triqueue.create 2)) (forkedOnce ++ forkedNext)) (by decide)
  obtain ⟨s, hs, hs'⟩ := runs_append_some.mp hall
  have hend : ∀ u ∈ runs (Sys.step testSetup) (Sys.create (Triqueue.create 2)) forkedOnce,
      u.control = .idle ∧ u.machine.tq.empty = true ∧ u.pushed = [down 1 100, up 1 1110] ∧
        u.machine.lastReleased = 1 := by decide
  obtain ⟨hidle, hempty, hpushed, hlast⟩ := hend s hs
  have hup : ∀ k, isDown testEnvironment s.pushed k = false := by
    intro k
    rw [hpushed]
    by_cases hk : 1 = k
    · subst hk
      rfl
    · simp [isDown, testEnvironment, down, up, hk]
  have hlate : ∀ e ∈ offered forkedNext, testEnvironment.detailOf e ≠ noKey ∧
      Unremembered testSetup s.machine.lastReleased s.machine.lastReleasedTime e := by
    intro e he
    rw [show offered forkedNext = [down 3 1120] from rfl, List.mem_singleton] at he
    subst he
    refine ⟨by decide, fun hk => ?_⟩
    rw [hlast] at hk
    exact absurd hk (by decide)
  exact ⟨s, _, hs, hs', by decide, as_new (le_refl 2) (by decide) hs hidle hempty hup
    (fun a ha => by cases ha; trivial) hlate hs'⟩

end

end ForkNS
