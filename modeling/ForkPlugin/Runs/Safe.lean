import ForkPlugin.Machine.Ring
import ForkPlugin.Machine.View
import ForkPlugin.Machine.TestEvents

/-!
# What holds between any two iterations

* `no_bug_reached`      no assertion fails, no branch marked as a bug is taken, `pop` finds an
                        event, and `relay_event` is called right after `output_frozen` said no;
* `decision_of_queue`   the decision state is computed from the internal part, and the deadline of
                        a suspect never grows.
-/

namespace ForkNS

open Runs Machine

variable {E Time : Type} [LinearOrder Time] [Add Time] [Zero Time] [NatCast Time]
  {S : Setup E Time}

/-! ## relayed only when not frozen -/

/-- every relayed event comes right after an answer that the output is not frozen -/
def RelaysThawed (trace : List (Obs E Time)) : Prop :=
  ∀ pre e post, trace = pre ++ .relayEvent e :: post → pre.getLast? = some (.outputFrozen false)

omit [LinearOrder Time] [Add Time] [Zero Time] [NatCast Time] in
theorem RelaysThawed.snoc {trace : List (Obs E Time)} (h : RelaysThawed trace) {o : Obs E Time}
    (ho : ∀ e, o = .relayEvent e → trace.getLast? = some (.outputFrozen false)) :
    RelaysThawed (trace ++ [o]) := by
  intro pre e post heq
  rcases snoc_eq_split heq with ⟨rfl, he, -⟩ | ⟨post', -, hl⟩
  · exact ho e he
  · exact h pre e post' hl

/-- an event in hand was popped right after such an answer -/
def Thawed (s : Sys (ThreeLists E) E Time) : Prop :=
  RelaysThawed s.trace ∧
    ∀ e ∈ s.control.inHand, s.trace.getLast? = some (.outputFrozen false)

omit [LinearOrder Time] [Add Time] [Zero Time] [NatCast Time] in
theorem Thawed.apply {s : Sys (ThreeLists E) E Time} (h : Thawed s)
    {x : Effect (ThreeLists E) E Time}
    (hx : x.seen = [] ∧ x.control.inHand = [] ∨
      ∃ o, x.seen = [o] ∧ (∀ e, o = .relayEvent e → e ∈ s.control.inHand) ∧
        (x.control.inHand ≠ [] → o = .outputFrozen false)) : Thawed (s.apply x) := by
  rcases hx with ⟨hs, hin⟩ | ⟨o, hs, hr, hin⟩
  · refine ⟨?_, ?_⟩
    · show RelaysThawed (s.trace ++ x.seen)
      rw [hs, List.append_nil]
      exact h.1
    · show ∀ e ∈ x.control.inHand, _
      simp [hin]
  · refine ⟨?_, fun e he => ?_⟩
    · show RelaysThawed (s.trace ++ x.seen)
      rw [hs]
      exact h.1.snoc fun e ho => h.2 e (hr e ho)
    · show (s.trace ++ x.seen).getLast? = _
      rw [hs, hin (List.ne_nil_of_mem he)]
      simp

omit [Add Time] [NatCast Time] in
theorem enter_seen (m : ListMachine E Time) (c : Call E Time) :
    (enter S m c).seen = [] ∨ (enter S m c).seen = [.returned 0] := by
  cases c with
  | acceptEvent e =>
    simp only [enter, acceptEvent]
    split_ifs <;> simp
  | acceptTime now =>
    simp only [enter, acceptTime]
    split_ifs <;> simp
  | acceptConfirmation => exact .inl rfl

theorem Thawed.step {s s' : Sys (ThreeLists E) E Time} {a : Act E Time} (h : Thawed s)
    (hstep : s.step S a = some s') : Thawed s' := by
  cases a with
  | call c =>
    obtain ⟨-, rfl⟩ := Sys.step_call hstep
    have hin := (enter_move (S := S) s.machine c []).2.1
    refine h.apply ?_
    rcases enter_seen (S := S) s.machine c with hs | hs
    · exact .inl ⟨hs, hin⟩
    · exact .inr ⟨_, hs, by simp, fun hne => absurd hin hne⟩
  | tick frozen =>
    obtain ⟨x, hx, rfl⟩ := Sys.step_tick hstep
    refine h.apply ?_
    have htick := tick_cases hx
    generalize s.control = c at htick ⊢
    cases htick with
    | runAutomaton f => exact .inl ⟨rfl, rfl⟩
    | relay f e => exact .inr ⟨_, rfl, by simp [Control.inHand], by simp [Control.inHand]⟩
    | body f => exact .inr ⟨_, rfl, by simp, fun _ => rfl⟩
    | pop f e out => exact .inr ⟨_, rfl, by simp, fun _ => rfl⟩
    | popNone f => exact .inr ⟨_, rfl, by simp, fun _ => rfl⟩
    | endTime f => exact .inr ⟨_, rfl, by simp, fun _ => rfl⟩
    | endNone f => exact .inr ⟨_, rfl, by simp, fun _ => rfl⟩
    | bodyFrozen f => exact .inr ⟨_, rfl, by simp, by simp [Control.inHand]⟩
    | popFrozen f => exact .inr ⟨_, rfl, by simp, by simp [Control.inHand]⟩
    | endFrozen f => exact .inr ⟨_, rfl, by simp, by simp⟩
    | pushTime f now => exact .inr ⟨_, rfl, by simp, by simp⟩
    | nextDecisionTime => exact .inr ⟨_, rfl, by simp, by simp [Control.inHand]⟩
    | relock => exact .inr ⟨_, rfl, by simp, by simp [Control.inHand]⟩

theorem relays_thawed {acts : List (Act E Time)} {s : Sys (ThreeLists E) E Time}
    (h : runs (Sys.step S) (Sys.create .nil) acts = some s) : RelaysThawed s.trace := by
  have h0 : Thawed (Sys.create .nil : Sys (ThreeLists E) E Time) := by
    refine ⟨fun pre e post heq => ?_, by simp [Sys.create, Control.inHand]⟩
    simp [Sys.create] at heq
  exact (runs_inv h0 (fun _ _ _ hu hstep => hu.step hstep) h).1

/-- **No bug is reached**, by a machine that never holds more than its capacity. -/
theorem no_bug_reached {c : ℕ} (hc : 2 ≤ c) {acts : List (Act E Time)}
    (hw : WithinCapacity S c acts) {s : Sys (Triqueue E) E Time}
    (h : runs (Sys.step S) (Sys.create (Triqueue.create c)) acts = some s) :
    s.machine.bugs = [] ∧ RelaysThawed s.trace := by
  obtain ⟨t, ht, halike⟩ := ring_run hc hw h
  rw [halike.stands.bugs, halike.trace]
  exact ⟨(runs_sound ht).bugs, relays_thawed ht⟩

/-- key 3 is suspected, and key 20 verifies it -/
def verifying : List (Act TestEvent Nat) :=
  during (.acceptEvent (down 3 100)) 7 ++ during (.acceptEvent (down 20 110)) 7

theorem no_bug_reached_verifying : ∃ s,
    runs (Sys.step testSetup) (Sys.create (Triqueue.create 2)) verifying = some s ∧
    s.machine.state = .verify ∧ s.machine.bugs = [] ∧ RelaysThawed s.trace := by
  have hs := Option.eq_some_of_isSome
    (o := runs (Sys.step testSetup) (Sys.create (Triqueue.create 2)) verifying) (by decide)
  exact ⟨_, hs, by decide, no_bug_reached (le_refl 2) (by decide) hs⟩

/-! ## the deadline -/

omit [LinearOrder Time] [Add Time] [NatCast Time] in
theorem forkHead_mid (m : ListMachine E Time) :
    (m.forkHead S).tq.mid = [] ∨ (m.forkHead S).tq.mid = m.tq.mid := by
  rcases hmid : m.tq.mid with - | ⟨h, t⟩
  · rw [forkHead_nil S hmid]
    exact .inr hmid
  · rw [forkHead_cons S hmid]
    exact .inl rfl

omit [LinearOrder Time] [Add Time] [NatCast Time] in
theorem confirmHead_mid (m : ListMachine E Time) :
    m.confirmHead.tq.mid = [] ∨ m.confirmHead.tq.mid = m.tq.mid := by
  rcases hmid : m.tq.mid with - | ⟨h, t⟩
  · rw [confirmHead_nil hmid]
    exact .inr hmid
  · rw [confirmHead_cons hmid]
    exact .inl rfl

/-- the internal part is emptied, or it grows at its end, if at all -/
theorem Move.mid {a : Act E Time} {f : Bool} {m m' : ListMachine E Time} {es : List E}
    (h : Move S a f m es m') : m'.tq.mid = [] ∨ ∃ l, m'.tq.mid = m.tq.mid ++ l := by
  have hsame : ∀ {q : List E}, q = m.tq.mid → ∃ l, q = m.tq.mid ++ l := fun hq =>
    ⟨[], by rw [hq, List.append_nil]⟩
  cases h with
  | still => exact .inr (hsame rfl)
  | clock c => exact .inr (hsame rfl)
  | push e => exact .inr (hsame rfl)
  | time => exact (forkHead_mid m).imp id hsame
  | force => exact (forkHead_mid m).imp id hsame
  | key e rest hi =>
    cases m.verdict S e with
    | forkHead => exact (forkHead_mid m).imp id hsame
    | confirmHead => exact (confirmHead_mid m).imp id hsame
    | repeatHead => exact (confirmHead_mid (m.setForkActive _ _)).imp id hsame
    | unfork =>
      obtain ⟨k, t, hk⟩ := recordForkRelease_eq S m e
      rw [enact, hk]
      exact .inr (hsame rfl)
    | pass =>
      obtain ⟨k, t, hk⟩ := recordRelease_eq S m e
      rw [enact, hk]
      exact .inr (hsame rfl)
    | refork => exact .inr (hsame rfl)
    | autoRepeat => exact .inr (hsame rfl)
    | selfFork => exact .inr (hsame rfl)
    | discard => exact .inr (hsame rfl)
    | startSuspect => exact .inr ⟨[e], rfl⟩
    | verify => exact .inr ⟨[e], rfl⟩
    | unverify => exact .inr ⟨[e], rfl⟩
    | wait => exact .inr ⟨[e], rfl⟩

theorem Decision.rescan_le (h : E) (t l : List E) :
    (Decision.rescan S h (t ++ l)).mDecisionTime ≤ (Decision.rescan S h t).mDecisionTime := by
  induction l using List.reverseRecOn with
  | nil => rw [List.append_nil]
  | append_singleton l e ih =>
    rw [← List.append_assoc, rescan_snoc]
    exact le_trans (scan_le S _ e) ih

/-- as long as a key is suspected, its deadline never grows -/
theorem deadline_le {s s' : Sys (ThreeLists E) E Time} {a : Act E Time} (hs : Sound S s.machine)
    (hs' : Sound S s'.machine) (hstep : s.step S a = some s') (hne : s.machine.tq.mid ≠ [])
    (hne' : s'.machine.tq.mid ≠ []) :
    s'.machine.suspect = s.machine.suspect ∧
      s'.machine.mDecisionTime ≤ s.machine.mDecisionTime := by
  obtain ⟨x, t, hmid⟩ := List.exists_cons_of_ne_nil hne
  obtain ⟨es, -, hmove⟩ := Sys.view_step hs hstep
  obtain ⟨l, hl⟩ := hmove.mid.resolve_left hne'
  have hmid' : s'.machine.tq.mid = x :: (t ++ l) := by
    rw [← Sys.view_mid, hl, Sys.view_mid, hmid, List.cons_append]
  refine ⟨?_, ?_⟩
  · rw [hs.coherent.suspect_eq hmid, hs'.coherent.suspect_eq hmid']
  · have hd := ((coherent_cons hmid).mp hs.coherent).2
    have hd' := ((coherent_cons hmid').mp hs'.coherent).2
    show s'.machine.decision.mDecisionTime ≤ s.machine.decision.mDecisionTime
    rw [hd, hd']
    exact Decision.rescan_le x t l

/-- **The decision state is a function of the internal queue.**  And as long as a key is
suspected, its deadline never grows. -/
theorem decision_of_queue {c : ℕ} (hc : 2 ≤ c) {acts : List (Act E Time)}
    (hw : WithinCapacity S c acts) {s : Sys (Triqueue E) E Time}
    (h : runs (Sys.step S) (Sys.create (Triqueue.create c)) acts = some s) :
    (∃ l : ListMachine E Time, Stands c s.machine l ∧ Coherent S l) ∧
      ∀ a s', WithinCapacity S c (acts ++ [a]) → s.step S a = some s' →
        s.machine.tq.middleEmpty = false → s'.machine.tq.middleEmpty = false →
        s'.machine.suspect = s.machine.suspect ∧
        s'.machine.mDecisionTime ≤ s.machine.mDecisionTime := by
  obtain ⟨t, ht, halike⟩ := ring_run hc hw h
  refine ⟨⟨t.machine, halike.stands, (runs_sound ht).coherent⟩, ?_⟩
  intro a s' hw' hstep hne hne'
  obtain ⟨t', ht', halike'⟩ := ring_run hc hw' (runs_snoc_some.mpr ⟨s, h, hstep⟩)
  obtain ⟨t, ht, htstep⟩ := runs_snoc_some.mp ht'
  have halike := ring_run_alike hc hw h ht
  have hmid : ∀ {m : Machine (Triqueue E) Time} {l : ListMachine E Time}, Stands c m l →
      m.tq.middleEmpty = false → l.tq.mid ≠ [] := by
    intro m l hm hne hnil
    rw [Triqueue.middleEmpty_eq hm.rep, hnil] at hne
    cases hne
  have hd := deadline_le (runs_sound ht) (runs_sound ht') htstep (hmid halike.stands hne)
    (hmid halike'.stands hne')
  rwa [halike'.stands.suspect, halike.stands.suspect, halike'.stands.mDecisionTime,
    halike.stands.mDecisionTime]

/-- the press of key 20 lowers the deadline of key 3 from 300 to 210 -/
theorem decision_of_queue_verifying : ∃ s,
    runs (Sys.step testSetup) (Sys.create (Triqueue.create 2)) verifying = some s ∧
    s.machine.tq.middleEmpty = false ∧ s.machine.mDecisionTime = 210 ∧
    (∃ l : ListMachine TestEvent Nat, Stands 2 s.machine l ∧ Coherent testSetup l) ∧
      ∀ a s', WithinCapacity testSetup 2 (verifying ++ [a]) → s.step testSetup a = some s' →
        s.machine.tq.middleEmpty = false → s'.machine.tq.middleEmpty = false →
        s'.machine.suspect = s.machine.suspect ∧
        s'.machine.mDecisionTime ≤ s.machine.mDecisionTime := by
  have hs := Option.eq_some_of_isSome
    (o := runs (Sys.step testSetup) (Sys.create (Triqueue.create 2)) verifying) (by decide)
  exact ⟨_, hs, by decide, by decide, decision_of_queue (le_refl 2) (by decide) hs⟩

end ForkNS
