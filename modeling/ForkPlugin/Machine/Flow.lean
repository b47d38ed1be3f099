import ForkPlugin.Machine.Calls

/-!
# The further steps of a call, over any queue

* `Flow`        one constructor for each branch of `tick`, with what the locked part did;
* `tick_flow`   every step is one of them;
* `Keeps`       the locked parts keep an invariant of the machine, where only events of one kind
                come;
* `Keeps.run`   then every run does.
-/

namespace ForkNS

open Machine Runs

variable {Q E Time : Type} [TriqueueOps Q E] [LinearOrder Time] [Add Time] [Zero Time]
  [NatCast Time]

inductive Flow (S : Setup E Time) (m : Machine Q Time) :
    Bool → Control E Time → Effect Q E Time → Prop
  | runAutomaton (frozen f : Bool) : Flow S m frozen (.runAutomaton f)
      { machine := m, control := .automatonLoop f }
  | again (f : Bool) (m' : Machine Q Time) (h : m.automatonBody S f = (m', true)) :
      Flow S m false (.automatonLoop f)
        { machine := m', control := .automatonLoop f, seen := [.outputFrozen false] }
  | done (f : Bool) (m' : Machine Q Time) (h : m.automatonBody S f = (m', false)) :
      Flow S m false (.automatonLoop f)
        { machine := m', control := .flushLoop f, seen := [.outputFrozen false] }
  | bodyFrozen (f : Bool) : Flow S m true (.automatonLoop f)
      { machine := m, control := .flushLoop f, seen := [.outputFrozen true] }
  | pop (f : Bool) (e : E) (m' : Machine Q Time) (h : m.popEventIfPresent = (some e, m')) :
      Flow S m false (.flushLoop f)
        { machine := m', control := .relayEvent f e, seen := [.outputFrozen false] }
  | popNone (f : Bool) (m' : Machine Q Time) (h : m.popEventIfPresent = (none, m')) :
      Flow S m false (.flushLoop f)
        { machine := m', control := .flushEnd f, seen := [.outputFrozen false] }
  | popFrozen (f : Bool) : Flow S m true (.flushLoop f)
      { machine := m, control := .flushEnd f, seen := [.outputFrozen true] }
  | relay (frozen f : Bool) (e : E) : Flow S m frozen (.relayEvent f e)
      { machine := m, control := .flushLoop f, seen := [.relayEvent e] }
  | endTime (f : Bool) (now : Time) (m' : Machine Q Time) (h : m.pushTimeToNext S = (now, m'))
      (hn : now ≠ 0) : Flow S m false (.flushEnd f)
        { machine := m', control := .pushTime f now, seen := [.outputFrozen false] }
  | endNone (f : Bool) (m' : Machine Q Time) (h : m.pushTimeToNext S = (0, m')) :
      Flow S m false (.flushEnd f)
        { machine := m', control := afterAutomaton f, seen := [.outputFrozen false] }
  | endFrozen (f : Bool) : Flow S m true (.flushEnd f)
      { machine := m, control := afterAutomaton f, seen := [.outputFrozen true] }
  | pushTime (frozen f : Bool) (now : Time) : Flow S m frozen (.pushTime f now)
      { machine := m, control := afterAutomaton f, seen := [.pushTime now] }
  | nextDecisionTime (frozen : Bool) : Flow S m frozen .nextDecisionTime
      { machine := m, control := .idle, seen := [.returned m.nextDecisionTime] }
  | relock (frozen : Bool) (hl : S.stdLibrary = false) : Flow S m frozen .relock
      { machine := m, control := .idle, seen := [.returned m.nextDecisionTime] }

/-- **What a step of a call can do.** -/
theorem tick_flow {S : Setup E Time} {m : Machine Q Time} {frozen : Bool} {c : Control E Time}
    {x : Effect Q E Time} (h : tick S m frozen c = some x) : Flow S m frozen c x := by
  cases c with
  | idle => cases h
  | runAutomaton f =>
    cases h
    exact .runAutomaton frozen f
  | automatonLoop f =>
    cases frozen with
    | true =>
      cases h
      exact .bodyFrozen f
    | false =>
      rcases hb : m.automatonBody S f with ⟨m', again⟩
      simp only [tick, hb] at h
      cases again <;> cases h
      · exact .done f m' hb
      · exact .again f m' hb
  | flushLoop f =>
    cases frozen with
    | true =>
      cases h
      exact .popFrozen f
    | false =>
      rcases hp : m.popEventIfPresent with ⟨_ | e, m'⟩ <;> simp only [tick, hp] at h <;> cases h
      · exact .popNone f m' hp
      · exact .pop f e m' hp
  | relayEvent f e =>
    cases h
    exact .relay frozen f e
  | flushEnd f =>
    cases frozen with
    | true =>
      cases h
      exact .endFrozen f
    | false =>
      rcases hp : m.pushTimeToNext S with ⟨now, m'⟩
      simp only [tick, hp] at h
      by_cases hn : now = 0
      · subst hn
        simp only [ne_eq, not_true_eq_false, if_false] at h
        cases h
        exact .endNone f m' hp
      · simp only [ne_eq, hn, not_false_eq_true, if_true] at h
        cases h
        exact .endTime f now m' hp hn
  | pushTime f now =>
    cases h
    exact .pushTime frozen f now
  | nextDecisionTime =>
    cases h
    exact .nextDecisionTime frozen
  | relock =>
    simp only [tick] at h
    split_ifs at h with hl
    cases h
    exact .relock frozen (Bool.eq_false_iff.mpr hl)

/-- a call that locks again what it has locked goes nowhere -/
theorem relock_waits {S : Setup E Time} (hlib : S.stdLibrary = true) {s s' : Sys Q E Time}
    (hc : s.control = .relock) {answers : List Bool}
    (hrun : runs (Sys.step S) s (answers.map .tick) = some s') : s'.control = .relock := by
  cases answers with
  | nil =>
    cases hrun
    exact hc
  | cons frozen answers =>
    have hnone : s.step S (.tick frozen) = none := by simp [Sys.step, hc, tick, hlib]
    rw [List.map_cons, runs_cons, hnone] at hrun
    cases hrun

/-! ## invariants of the machine -/

/-- every locked part keeps `I`, when only events with `K` come -/
structure Keeps (S : Setup E Time) (K : E → Prop) (I : Machine Q Time → Prop) : Prop where
  clock : ∀ m now, I m → I { m with mCurrentTime := now }
  push : ∀ m e, I m → K e → S.env.detailOf e ≤ S.maxKeycode →
    I { m with tq := TriqueueOps.push m.tq e }
  pop : ∀ m, I m → TriqueueOps.canPop m.tq = true → I m.pop
  body : ∀ m f again m', I m → m.automatonBody S f = (m', again) → I m'

namespace Keeps
variable {S : Setup E Time} {K : E → Prop} {I : Machine Q Time → Prop} {m : Machine Q Time}

theorem enter (hI : Keeps S K I) (h : I m) {a : Call E Time} (ha : ∀ e, a = .acceptEvent e → K e) :
    I (enter S m a).machine := by
  cases a with
  | acceptEvent e =>
    show I (acceptEvent S m e).machine
    simp only [acceptEvent]
    split_ifs with hmax
    · exact hI.clock m 0 h
    · exact hI.clock m 0 h
    · exact hI.push _ e (hI.clock m 0 h) (ha e rfl) (not_lt.mp hmax)
  | acceptTime now =>
    show I (acceptTime m now).machine
    unfold acceptTime
    split_ifs
    · exact h
    · exact hI.clock m now h
  | acceptConfirmation => exact h

theorem popEventIfPresent (hI : Keeps S K I) (h : I m) {item : Option E} {m' : Machine Q Time}
    (hp : m.popEventIfPresent = (item, m')) : I m' := by
  unfold Machine.popEventIfPresent at hp
  split_ifs at hp with hcan <;> cases hp
  · exact hI.pop m h hcan
  · exact h

theorem pushTimeToNext (hI : Keeps S K I) (h : I m) {now : Time} {m' : Machine Q Time}
    (hp : m.pushTimeToNext S = (now, m')) : I m' := by
  unfold Machine.pushTimeToNext at hp
  cases hf : TriqueueOps.first m.tq with
  | none =>
    rw [hf] at hp
    cases hp
    exact h
  | some item =>
    rw [hf] at hp
    cases hp
    exact hI.clock m 0 h

theorem tick (hI : Keeps S K I) (h : I m) {frozen : Bool} {c : Control E Time}
    {x : Effect Q E Time} (hx : tick S m frozen c = some x) : I x.machine := by
  cases tick_flow hx with
  | again f m' hb | done f m' hb => exact hI.body m f _ m' h hb
  | pop f e m' hp | popNone f m' hp => exact hI.popEventIfPresent h hp
  | endTime f now m' hp hn => exact hI.pushTimeToNext h hp
  | endNone f m' hp => exact hI.pushTimeToNext h hp
  | _ => exact h

theorem step (hI : Keeps S K I) {s s' : Sys Q E Time} (h : I s.machine) {a : Act E Time}
    (ha : ∀ e ∈ offered [a], K e) (hs : s.step S a = some s') : I s'.machine := by
  cases a with
  | call b =>
    obtain ⟨-, rfl⟩ := Sys.step_call hs
    refine hI.enter h fun e he => ha e ?_
    rw [he]
    exact List.mem_singleton_self e
  | tick frozen =>
    obtain ⟨x, hx, rfl⟩ := Sys.step_tick hs
    exact hI.tick h hx

/-- **Invariants of the machine** hold in every run to which only events with `K` come. -/
theorem run (hI : Keeps S K I) {q : Q} (h0 : I (.create q)) {acts : List (Act E Time)}
    {s : Sys Q E Time} (hkeys : ∀ e ∈ offered acts, K e)
    (h : runs (Sys.step S) (Sys.create q) acts = some s) : I s.machine := by
  induction acts using List.reverseRecOn generalizing s with
  | nil =>
    cases h
    exact h0
  | append_singleton acts a ih =>
    obtain ⟨u, hu, hstep⟩ := runs_snoc_some.mp h
    rw [offered_append] at hkeys
    have hind := ih (fun e he => hkeys e (List.mem_append_left _ he)) hu
    exact hI.step hind (fun e he => hkeys e (List.mem_append_right _ he)) hstep

end Keeps

end ForkNS
