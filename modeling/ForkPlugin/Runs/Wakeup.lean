import ForkPlugin.Runs.Ends

/-!
# When the caller is told to come back

A caller arms its timer with what `accept_event` and `accept_time` return, and stops it on 0.  The
calls return `next_decision_time` on every way out but one: `accept_event` returns 0 for a keycode
out of range, whatever is pending.

* `returnedTimes`     what the calls returned so far;
* `startsTimer`       what the Windows driver does with it;
* `Forgets`           the call takes that way out while a deadline is pending;
* `returns_due`       the return of a call that does not;
* `returned_is_due`   where a call returns, it returns the deadline of the state it leaves exactly
                      when it does not forget it, over any queue and from any state;
* `told_when_due`     a call that does not forget it, and that ends, tells the caller;
* `timer_stopped`     a keycode out of range stops the timer of a suspected key.
-/

namespace ForkNS

open Runs Machine

variable {Q E Time : Type}

def returnedTimes (trace : List (Obs E Time)) : List Time :=
  trace.filterMap fun
    | .returned next => some next
    | _ => none

theorem returnedTimes_append (xs ys : List (Obs E Time)) :
    returnedTimes (xs ++ ys) = returnedTimes xs ++ returnedTimes ys := List.filterMap_append

/-- a non-zero result starts the timer, 0 stops it -/
def startsTimer [Zero Time] [DecidableEq Time] (timeout : Time) : Bool := timeout ≠ 0

section
variable [LinearOrder Time] [Add Time] [Zero Time] [NatCast Time]

/-- a keycode out of range, while a key is suspected with a deadline -/
def Forgets (S : Setup E Time) (m : Machine Q Time) (c : Call E Time) : Prop :=
  ∃ e, c = .acceptEvent e ∧ S.maxKeycode < S.env.detailOf e ∧ m.state ≠ .normal ∧
    m.mDecisionTime ≠ 0

variable {S : Setup E Time}

omit [LinearOrder Time] [Add Time] [NatCast Time] in
theorem nextDecisionTime_eq (m : Machine Q Time) :
    m.nextDecisionTime = if m.state = .normal then 0 else m.mDecisionTime := by
  unfold nextDecisionTime
  cases m.state <;> rfl

variable [TriqueueOps Q E]

/-- a call that returns a value is running, and has not returned it yet -/
structure Pending (old : List Time) (s : Sys Q E Time) : Prop where
  running : s.control ≠ .idle
  forcing : s.control.forcing = false
  returned : returnedTimes s.trace = old

/-- it has returned the deadline of the state it left -/
structure Returned (old : List Time) (s : Sys Q E Time) : Prop where
  idle : s.control = .idle
  returned : returnedTimes s.trace = old ++ [s.machine.nextDecisionTime]

omit [LinearOrder Time] [Add Time] [Zero Time] [NatCast Time] [TriqueueOps Q E] in
theorem Pending.apply {old : List Time} {s : Sys Q E Time} (h : Pending old s)
    {x : Effect Q E Time} (hc : x.control ≠ .idle) (hf : x.control.forcing = false)
    (hr : returnedTimes x.seen = []) : Pending old (s.apply x) := by
  refine ⟨hc, hf, ?_⟩
  rw [Sys.apply, returnedTimes_append, hr, List.append_nil, h.returned]

omit [LinearOrder Time] [Add Time] [NatCast Time] [TriqueueOps Q E] in
theorem Pending.return {old : List Time} {s : Sys Q E Time} (h : Pending old s) :
    Returned old (s.apply
      { machine := s.machine, control := .idle,
        seen := [.returned s.machine.nextDecisionTime] }) := by
  refine ⟨rfl, ?_⟩
  rw [Sys.apply, returnedTimes_append, h.returned]
  rfl

omit [LinearOrder Time] [Add Time] [Zero Time] [NatCast Time] [TriqueueOps Q E] in
theorem afterAutomaton_pending {f : Bool} (hf : f = false) :
    (afterAutomaton f : Control E Time) ≠ .idle := by
  rw [hf]
  exact fun h => by cases h

theorem Pending.tick {old : List Time} {s s' : Sys Q E Time} (h : Pending old s) {frozen : Bool}
    (hs : s.step S (.tick frozen) = some s') : Pending old s' ∨ Returned old s' := by
  obtain ⟨x, hx, rfl⟩ := Sys.step_tick hs
  have hflow := tick_flow hx
  have hf := h.forcing
  generalize s.control = c at hflow hf
  cases hflow with
  | nextDecisionTime => exact .inr h.return
  | relock => exact .inr h.return
  | endNone f => exact .inl (h.apply (afterAutomaton_pending hf) (forcing_afterAutomaton f) rfl)
  | endFrozen f => exact .inl (h.apply (afterAutomaton_pending hf) (forcing_afterAutomaton f) rfl)
  | pushTime _ f => exact .inl (h.apply (afterAutomaton_pending hf) (forcing_afterAutomaton f) rfl)
  | _ => exact .inl (h.apply (fun h => by cases h) hf rfl)

theorem Pending.ticks {old : List Time} {s s' : Sys Q E Time} (h : Pending old s)
    {answers : List Bool} (hrun : runs (Sys.step S) s (answers.map .tick) = some s') :
    Pending old s' ∨ Returned old s' := by
  induction answers generalizing s with
  | nil =>
    cases hrun
    exact .inl h
  | cons frozen answers ih =>
    obtain ⟨u, hu, hrun⟩ := Option.bind_eq_some_iff.mp hrun
    rcases h.tick hu with hp | hr
    · exact ih hp hrun
    · -- a call that has returned makes no further step
      cases answers with
      | nil =>
        cases hrun
        exact .inr hr
      | cons frozen answers =>
        obtain ⟨v, hv, -⟩ := Option.bind_eq_some_iff.mp hrun
        obtain ⟨x, hx, -⟩ := Sys.step_tick hv
        rw [hr.idle] at hx
        cases hx

/-- **The return of a call whose keycode is in range.** -/
theorem returns_due {s s₁ s' : Sys Q E Time} {c : Call E Time} (hc : c ≠ .acceptConfirmation)
    (hrange : ∀ e, c = .acceptEvent e → S.env.detailOf e ≤ S.maxKeycode)
    (hcall : s.step S (.call c) = some s₁) {answers : List Bool}
    (hrun : runs (Sys.step S) s₁ (answers.map .tick) = some s') (hidle : s'.control = .idle) :
    Returned (returnedTimes s.trace) s' := by
  obtain ⟨-, rfl⟩ := Sys.step_call hcall
  have hpending : Pending (returnedTimes s.trace) (s.apply (enter S s.machine c)) := by
    cases c with
    | acceptEvent e =>
      have hmax : ¬S.env.detailOf e > S.maxKeycode := not_lt.mpr (hrange e rfl)
      simp only [enter, acceptEvent, if_neg hmax]
      split_ifs <;> exact ⟨by simp [Sys.apply], rfl, by simp [Sys.apply]⟩
    | acceptTime now =>
      simp only [enter, acceptTime]
      split_ifs <;> exact ⟨by simp [Sys.apply], rfl, by simp [Sys.apply]⟩
    | acceptConfirmation => exact absurd rfl hc
  exact (hpending.ticks hrun).resolve_left fun hp => hp.running hidle

theorem returns_zero {s s₁ s' : Sys Q E Time} {e : E} (hmax : S.maxKeycode < S.env.detailOf e)
    (hcall : s.step S (.call (.acceptEvent e)) = some s₁) {answers : List Bool}
    (hrun : runs (Sys.step S) s₁ (answers.map .tick) = some s') :
    returnedTimes s'.trace = returnedTimes s.trace ++ [0] ∧
      s'.machine.state = s.machine.state ∧
      s'.machine.mDecisionTime = s.machine.mDecisionTime := by
  obtain ⟨-, rfl⟩ := Sys.step_call hcall
  have henter : enter S s.machine (.acceptEvent e) =
      { machine := { s.machine with mCurrentTime := 0 }, control := .idle,
        seen := [.returned 0] } := by
    rw [enter, acceptEvent]
    exact if_pos hmax
  rw [henter] at hrun
  cases answers with
  | nil =>
    cases hrun
    exact ⟨returnedTimes_append _ _, rfl, rfl⟩
  | cons frozen answers =>
    obtain ⟨v, hv, -⟩ := Option.bind_eq_some_iff.mp hrun
    obtain ⟨x, hx, -⟩ := Sys.step_tick hv
    cases hx

/-- where a call returns, it returns the deadline of the state it leaves, and starts the timer for
it, exactly when it does not forget it -/
theorem returned_is_due {s s₁ s' : Sys Q E Time} {c : Call E Time} (hc : c ≠ .acceptConfirmation)
    (hcall : s.step S (.call c) = some s₁) {answers : List Bool}
    (hrun : runs (Sys.step S) s₁ (answers.map .tick) = some s') (hidle : s'.control = .idle) :
    ∃ timeout, returnedTimes s'.trace = returnedTimes s.trace ++ [timeout] ∧
      (timeout = (if s'.machine.state = .normal then 0 else s'.machine.mDecisionTime) ↔
        ¬Forgets S s.machine c) ∧
      ((s'.machine.state ≠ .normal → s'.machine.mDecisionTime ≠ 0 → startsTimer timeout) ↔
        ¬Forgets S s.machine c) := by
  by_cases hrange : ∀ e, c = .acceptEvent e → S.env.detailOf e ≤ S.maxKeycode
  · have hno : ¬Forgets S s.machine c := fun ⟨e, he, hmax, _⟩ =>
      absurd hmax (not_lt.mpr (hrange e he))
    have hreturn := returns_due hc hrange hcall hrun hidle
    refine ⟨_, hreturn.returned, iff_of_true (nextDecisionTime_eq _) hno, iff_of_true ?_ hno⟩
    intro hs hd
    rw [nextDecisionTime_eq, if_neg hs]
    simpa [startsTimer] using hd
  · obtain ⟨e, rfl, hmax⟩ : ∃ e, c = .acceptEvent e ∧ S.maxKeycode < S.env.detailOf e := by
      simpa using hrange
    obtain ⟨hret, hstate, hd⟩ := returns_zero hmax hcall hrun
    have hiff : Forgets S s.machine (.acceptEvent e) ↔
        s'.machine.state ≠ .normal ∧ s'.machine.mDecisionTime ≠ 0 := by
      rw [hstate, hd]
      exact ⟨fun ⟨_, _, _, h⟩ => h, fun h => ⟨e, rfl, hmax, h⟩⟩
    refine ⟨0, hret, ?_, ?_⟩
    · rw [hiff]
      by_cases hs : s'.machine.state = .normal
      · simp [hs]
      · simp [hs, eq_comm]
    · rw [hiff]
      simp [startsTimer]

end

section
variable [LinearOrder Time] [Add Time] [Zero Time] [NatCast Time] {S : Setup E Time}

/-- **The caller is told when to wake up.**  `accept_event` and `accept_time`, called in any
reachable state and with any answers of `output_frozen`, come to an end and return the deadline of
the state they leave, and 0 where nothing is suspected, so that a caller that starts its timer on a
non-zero result leaves no deadline without a timer: exactly where they do not forget the deadline,
no iteration leaves the event for good, and they are not `accept_time` with an earlier time under a
`std::mutex`. -/
theorem told_when_due {c : ℕ} (hc : 2 ≤ c) {acts : List (Act E Time)}
    {s s₁ : Sys (Triqueue E) E Time}
    (h : runs (Sys.step S) (Sys.create (Triqueue.create c)) acts = some s) {a : Call E Time}
    (ha : a ≠ .acceptConfirmation) (hcall : s.step S (.call a) = some s₁) (answers : ℕ → Bool) :
    (∃ n s' timeout, goOn S s₁ answers n = some s' ∧ s'.control = .idle ∧
      returnedTimes s'.trace = returnedTimes s.trace ++ [timeout] ∧
      timeout = (if s'.machine.state = .normal then 0 else s'.machine.mDecisionTime) ∧
      (s'.machine.state ≠ .normal → s'.machine.mDecisionTime ≠ 0 → startsTimer timeout)) ↔
    ¬Forgets S s.machine a ∧
      (∀ n t, goOn S s₁ answers n = some t → Stuck S t → ∃ k ≥ n, answers k = true) ∧
      ∀ now, a = .acceptTime now → now < s.machine.mCurrentTime → S.stdLibrary = false := by
  have hcounted := Counted.run hc (runs_snoc_some.mpr ⟨s, h, hcall⟩)
  have hctl : s₁.control = (enter S s.machine a).control :=
    congrArg Sys.control (Sys.step_call hcall).2
  have hend := ends_iff (S := S) hcounted answers
  rw [hctl, enter_relock] at hend
  -- what is returned where it ends
  have hreturn : ∀ n s', goOn S s₁ answers n = some s' → s'.control = .idle →
      ∃ timeout, returnedTimes s'.trace = returnedTimes s.trace ++ [timeout] ∧
        (timeout = (if s'.machine.state = .normal then 0 else s'.machine.mDecisionTime) ↔
          ¬Forgets S s.machine a) ∧
        ((s'.machine.state ≠ .normal → s'.machine.mDecisionTime ≠ 0 → startsTimer timeout) ↔
          ¬Forgets S s.machine a) := fun n s' hrun hidle => by
    have hrun' : runs (Sys.step S) s₁ (((List.range n).map answers).map .tick) = some s' := by
      rwa [List.map_map]
    exact returned_is_due ha hcall hrun' hidle
  constructor
  · rintro ⟨n, s', timeout, hrun, hidle, hret, hdue, -⟩
    obtain ⟨hfair, hlock⟩ := hend.mp ⟨n, s', hrun, hidle⟩
    obtain ⟨timeout', hret', hdue', -⟩ := hreturn n s' hrun hidle
    obtain rfl : timeout = timeout' := by
      have happ := List.append_cancel_left (hret.symm.trans hret')
      exact (List.cons.inj happ).1
    exact ⟨hdue'.mp hdue, hfair, fun now hnow hlt => hlock ⟨now, hnow, hlt⟩⟩
  · rintro ⟨hno, hfair, hlock⟩
    obtain ⟨n, s', hrun, hidle⟩ := hend.mpr ⟨hfair, fun ⟨now, hnow, hlt⟩ => hlock now hnow hlt⟩
    obtain ⟨timeout, hret, hdue, hstart⟩ := hreturn n s' hrun hidle
    exact ⟨n, s', timeout, hrun, hidle, hret, hdue.mpr hno, hstart.mpr hno⟩

end

theorem told_when_due_suspect : ∃ s₁ : Sys (Triqueue TestEvent) TestEvent Nat,
    fresh.step testSetup (.call (.acceptEvent (down 3 100))) = some s₁ ∧
    ((∃ n s' timeout, goOn testSetup s₁ (fun _ => false) n = some s' ∧ s'.control = .idle ∧
      returnedTimes s'.trace = [] ++ [timeout] ∧
      timeout = (if s'.machine.state = .normal then 0 else s'.machine.mDecisionTime) ∧
      (s'.machine.state ≠ .normal → s'.machine.mDecisionTime ≠ 0 → startsTimer timeout)) ↔
    ¬Forgets testSetup fresh.machine (.acceptEvent (down 3 100)) ∧
      (∀ n t, goOn testSetup s₁ (fun _ => false) n = some t → Stuck testSetup t →
        ∃ k ≥ n, (fun _ => false : ℕ → Bool) k = true) ∧
      ∀ now, Call.acceptEvent (down 3 100) = .acceptTime now → now < fresh.machine.mCurrentTime →
        testSetup.stdLibrary = false) ∧
    ∃ s', goOn testSetup s₁ (fun _ => false) 7 = some s' ∧ s'.control = .idle ∧
      returnedTimes s'.trace = [300] ∧ s'.machine.mDecisionTime = 300 := by
  have hcall : fresh.step testSetup (.call (.acceptEvent (down 3 100)))
    = some (fresh.apply (enter testSetup fresh.machine (.acceptEvent (down 3 100)))) := rfl
  have hrun := Option.eq_some_of_isSome (o := goOn testSetup
    (fresh.apply (enter testSetup fresh.machine (.acceptEvent (down 3 100)))) (fun _ => false) 7)
    (by decide)
  have hfresh : runs (Sys.step testSetup) (Sys.create (Triqueue.create 100)) [] = some fresh := rfl
  exact ⟨_, hcall, told_when_due (by decide) hfresh (by simp) hcall _, _, hrun, by decide,
    by decide, by decide⟩

/-- The state left is suspect with the deadline 300, and the call returns 0. -/
theorem timer_stopped : ∃ s s₁ : Sys (Triqueue TestEvent) TestEvent Nat,
    runs (Sys.step testSetup) fresh (during (.acceptEvent (down 3 100)) 7) = some s ∧
    s.step testSetup (.call (.acceptEvent (down 300 150))) = some s₁ ∧ s₁.control = .idle ∧
    s₁.machine.state = .suspect ∧ s₁.machine.mDecisionTime = 300 ∧
    returnedTimes s₁.trace = [300, 0] ∧ startsTimer (0 : Nat) = false := by
  have hs := Option.eq_some_of_isSome
    (o := runs (Sys.step testSetup) fresh (during (.acceptEvent (down 3 100)) 7)) (by decide)
  exact ⟨_, _, hs, rfl, by decide, by decide, by decide, by decide, by decide⟩

end ForkNS
