import ForkPlugin.Machine.Batch
import ForkPlugin.Runs.Halt
import ForkPlugin.Runs.Keystroke
import ForkPlugin.Runs.Latency
import ForkPlugin.Runs.Quiescent

/-!
# A confirmation decides as a late timer

`accept_confirmation` forks whatever is suspected until nothing is.  So does a timer that is past
all deadlines, and both read the waiting events in between.

* `Due`             all deadlines that the undecided events can set are at most `T`;
* `due_move`        under it every step of such a call is one of the uninterrupted machine;
* `call_end`        so the call ends where that machine ends, and `call_returns` if it does;
* `force_as_timer`  so either both calls end, alike but for the clock, or neither does.
-/

namespace ForkNS

open Machine Runs StateTransition

variable {E Time : Type} [LinearOrder Time] [Add Time] [Zero Time] [NatCast Time]
  {S : Setup E Time}

/-- no deadline of an undecided event is after `T` -/
def Due (S : Setup E Time) (T : Time) (m : ListMachine E Time) : Prop :=
  ∀ e ∈ m.line, S.env.timeOf e + S.config.verificationIntervalOf (S.env.detailOf e) noKey ≤ T

theorem Due.decision {T : Time} {m : ListMachine E Time} (h : Due S T m) (hm : Sound S m)
    (hs : m.state ≠ .normal) : m.mDecisionTime ≤ T := by
  obtain ⟨e, t, hmid, -⟩ := hm.head hs
  have hd : m.mDecisionTime = (Decision.rescan S e t).mDecisionTime :=
    congrArg Decision.mDecisionTime ((coherent_cons hmid).mp hm.coherent).2
  rw [hd]
  refine le_trans (rescan_le_interval e t) (h e (List.mem_append_left _ ?_))
  rw [hmid]
  exact List.mem_cons_self

/-- **One step** of a call that pushes nothing is one of the uninterrupted machine, or none. -/
theorem due_move {T : Time} {m m' : ListMachine E Time} {a : Act E Time} {f : Bool}
    (hm : Sound S m) (h : Due S T m) (hmove : Move S a f m [] m') :
    eval (batchStep S T) (m.feed []) = eval (batchStep S T) (m'.feed []) := by
  have hfork : m.tq.inp = [] → m.state ≠ .normal →
      eval (batchStep S T) (m.feed []) = eval (batchStep S T) ((m.forkHead S).feed []) :=
    fun hi hs => eval_step (feed_forkHead hi hs (h.decision hm hs) (by simp))
  cases hmove with
  | still => rfl
  | clock c => rfl
  | key e rest hi => exact eval_step (feed_enact hi T [])
  | time hi hs => exact hfork hi hs
  | force hf hi hs => exact hfork hi hs

theorem Due.move {T : Time} {m m' : ListMachine E Time} {a : Act E Time} {f : Bool}
    (hm : Sound S m) (h : Due S T m) (hmove : Move S a f m [] m') : Due S T m' := by
  rcases hmove.sends hm with ⟨hline, -, -⟩ | ⟨-, e, r, hline, -⟩
  · rw [List.append_nil] at hline
    unfold Due
    rwa [hline]
  · intro e' he'
    refine h e' ?_
    rw [hline]
    exact List.mem_cons_of_mem e he'

theorem due_run {T : Time} {s s' : Sys (ThreeLists E) E Time} (hs : Sound S s.machine)
    (hdue : Due S T s.view) {acts : List (Act E Time)} (hno : offered acts = [])
    (h : runs (Sys.step S) s acts = some s') :
    Sound S s'.machine ∧ Due S T s'.view ∧
      eval (batchStep S T) (s.view.feed []) = eval (batchStep S T) (s'.view.feed []) := by
  induction acts generalizing s with
  | nil =>
    cases h
    exact ⟨hs, hdue, rfl⟩
  | cons a acts ih =>
    obtain ⟨u, hstep, hrun⟩ := Option.bind_eq_some_iff.mp h
    rw [← List.singleton_append, offered_append] at hno
    obtain ⟨hnoa, hno⟩ := List.append_eq_nil_iff.mp hno
    obtain ⟨es, hes, hmove⟩ := Sys.view_step hs hstep
    obtain rfl : es = [] := by
      rw [List.eq_nil_iff_forall_not_mem]
      intro e he
      have hoff := step_offered hstep hes e he
      rw [hnoa] at hoff
      exact List.not_mem_nil hoff
    have hv : Sound S s.view := ⟨hs.coherent, hs.headOpen, hs.bugs⟩
    obtain ⟨hs', hdue', heval⟩ := ih (Sys.step_sound hs hstep) (hdue.move hv hmove) hno hrun
    exact ⟨hs', hdue', (due_move hv hdue hmove).trans heval⟩

omit [LinearOrder Time] [Add Time] [NatCast Time] in
theorem offered_call {T : Time} {call : Call E Time}
    (hcall : call = .acceptConfirmation ∨ call = .acceptTime T ∧ T ≠ 0) (n : ℕ) :
    offered (.call call :: List.replicate n (.tick false)) = [] := by
  refine List.filterMap_eq_nil_iff.mpr ?_
  intro a ha
  rcases List.mem_cons.mp ha with rfl | ha
  · rcases hcall with rfl | ⟨rfl, -⟩ <;> rfl
  · rw [List.eq_of_mem_replicate ha]

theorem call_end {T : Time} {s s' : Sys (ThreeLists E) E Time} (hs : Sound S s.machine)
    (hdue : Due S T s.view) {call : Call E Time} (hadm : Accepts S s.machine call)
    (hcall : call = .acceptConfirmation ∨ call = .acceptTime T ∧ T ≠ 0) {n : ℕ}
    (h : runs (Sys.step S) s (.call call :: List.replicate n (.tick false)) = some s')
    (hidle : s'.control = .idle) :
    s'.machine.tq.all = [] ∧ s'.machine.state = .normal ∧
      s'.view.feed [] ∈ eval (batchStep S T) (s.view.feed []) := by
  obtain ⟨hs', hdue', heval⟩ := due_run hs hdue (offered_call hcall n) h
  obtain ⟨-, hq⟩ := lists_quiescent hs hadm h
  rw [hidle] at hq
  obtain ⟨hset, hout⟩ := hq
  have hnormal : s'.machine.state = .normal := by
    rcases hcall with rfl | ⟨rfl, hT⟩
    · exact hset.forced rfl
    · by_contra hn
      have hahead := hset.ahead T (by rw [Call.timer, if_neg hT]; rfl) hn
      have hv : Sound S s'.view := ⟨hs'.coherent, hs'.headOpen, hs'.bugs⟩
      exact absurd (hdue'.decision hv hn) (not_le.mpr hahead)
  refine ⟨?_, hnormal, ?_⟩
  · rw [ThreeLists.all, hout, hs'.coherent.normal_iff.mp hnormal, hset.inp]
    rfl
  · rw [heval]
    refine eval_halted (batchStep_none ?_ fun hn => absurd hnormal hn)
    simp [feed, framed, Sys.view, hset.inp]

/-- where a call is stuck, the uninterrupted machine is -/
theorem stuck_batch {s : Sys (ThreeLists E) E Time} (hs : Sound S s.machine) (h : Stuck S s)
    (T : Time) (b : ListMachine E Time) : b ∉ eval (batchStep S T) (s.view.feed []) := by
  obtain ⟨hsuspect, e, rest, hi, hrep⟩ := repeatsSuspect_iff.mp h.2
  have hi' : s.view.tq.inp = e :: rest := by rw [Sys.view_inp, hi]
  have hv : Sound S s.view := ⟨hs.coherent, hs.headOpen, hs.bugs⟩
  have hdiscard : s.view.verdict S e = .discard :=
    (discard_iff hv hi').mpr (repeatsSuspect_iff.mpr ⟨hsuspect, e, rest, hi', hrep⟩)
  have hstep : batchStep S T (s.view.feed []) = some (s.view.feed []) := by
    rw [feed_enact hi' T [], hdiscard]
    rfl
  refine eval_diverges (I := fun m => m = s.view.feed []) (fun m hm => ?_) rfl b
  subst hm
  exact ⟨_, hstep, rfl⟩

theorem call_returns {T : Time} {s : Sys (ThreeLists E) E Time} (hs : Sound S s.machine)
    (hdue : Due S T s.view) (hidle : s.control = .idle) {call : Call E Time}
    (hadm : Accepts S s.machine call)
    (hcall : call = .acceptConfirmation ∨ call = .acceptTime T ∧ T ≠ 0)
    {m : ListMachine E Time} (hm : m ∈ eval (batchStep S T) (s.view.feed [])) :
    ∃ n s', runs (Sys.step S) s (.call call :: List.replicate n (.tick false)) = some s' ∧
      s'.control = .idle := by
  have hstep : s.step S (.call call) = some (s.apply (enter S s.machine call)) := by
    simp only [Sys.step, hidle]
  have hrun : ∀ {n t}, runs (Sys.step S) (s.apply (enter S s.machine call))
      (List.replicate n (.tick false)) = some t →
      runs (Sys.step S) s (.call call :: List.replicate n (.tick false)) = some t := by
    intro n t ht
    rw [runs_cons, hstep]
    exact ht
  have hno : ∀ t, Reaches (Sys.unfrozen S) (s.apply (enter S s.machine call)) t → ¬Stuck S t := by
    intro t hreach hstuck
    obtain ⟨n, hn⟩ := exists_runs_of_reaches hreach
    obtain ⟨ht, -, heval⟩ := due_run hs hdue (offered_call hcall n) (hrun hn)
    rw [heval] at hm
    exact stuck_batch ht hstuck T m hm
  have hlock : (enter S s.machine call).control ≠ .relock := by
    rw [ne_eq, enter_relock]
    rintro ⟨now, rfl, hlt⟩
    exact absurd hadm (not_le.mpr hlt)
  obtain ⟨b, hb, hbidle⟩ := returns_of_not_stuck (Sys.step_sound hs hstep)
    (fun hc => absurd hc hlock) hno
  obtain ⟨n, hn⟩ := exists_runs_of_reaches (mem_eval.mp hb).1
  exact ⟨n, b, hrun hn, hbidle⟩

omit [LinearOrder Time] [Add Time] [NatCast Time] in
/-- two idle systems with empty queues, of the same view but for the clock -/
theorem of_view_feed {s t : Sys (ThreeLists E) E Time} (hs : s.control = .idle)
    (ht : t.control = .idle) (hsall : s.machine.tq.all = []) (htall : t.machine.tq.all = [])
    (h : s.view.feed [] = t.view.feed []) : relayed s.trace = relayed t.trace ∧
      t.machine = { s.machine with mCurrentTime := t.machine.mCurrentTime } := by
  rcases s with ⟨⟨_, _, _, _, _, _, _, _, _, _, ⟨out, mid, inp⟩, _⟩, _, _, trace⟩
  rcases t with ⟨⟨_, _, _, _, _, _, _, _, _, _, ⟨out', mid', inp'⟩, _⟩, _, _, trace'⟩
  dsimp only at hs ht
  subst hs ht
  simp only [ThreeLists.all, List.append_eq_nil_iff] at hsall htall
  obtain ⟨⟨rfl, rfl⟩, rfl⟩ := hsall
  obtain ⟨⟨rfl, rfl⟩, rfl⟩ := htall
  simp only [feed, framed, Sys.view, Control.inHand, List.nil_append, List.append_nil] at h
  simp_all

theorem ring_call_end {c : ℕ} {T : Time} {s s' : Sys (Triqueue E) E Time}
    {v : Sys (ThreeLists E) E Time} (halike : Alike c s v) (hs : Sound S v.machine)
    (hdue : Due S T v.view) {call : Call E Time} (hadm : Accepts S s.machine call)
    (hcall : call = .acceptConfirmation ∨ call = .acceptTime T ∧ T ≠ 0) {n : ℕ}
    (h : runs (Sys.step S) s (.call call :: List.replicate n (.tick false)) = some s')
    (hidle : s'.control = .idle) :
    ∃ v', Alike c s' v' ∧ v'.control = .idle ∧ v'.machine.tq.all = [] ∧
      v'.machine.state = .normal ∧ v'.view.feed [] ∈ eval (batchStep S T) (v.view.feed []) := by
  have hrel := runs_alike (S := S) halike (offered_call hcall n)
  rw [h] at hrel
  generalize hv' : runs (Sys.step S) v _ = y at hrel
  cases hrel with
  | some hst =>
    obtain ⟨hall, hnormal, hend⟩ := call_end hs hdue (hadm.stands halike.stands) hcall hv'
      (hst.control.symm.trans hidle)
    exact ⟨_, hst, hst.control.symm.trans hidle, hall, hnormal, hend⟩

theorem ring_call_returns {c : ℕ} {T : Time} {s s₁ : Sys (Triqueue E) E Time}
    {v : Sys (ThreeLists E) E Time} (halike : Alike c s v) (hs : Sound S v.machine)
    (hdue : Due S T v.view) {call call' : Call E Time} (hadm : Accepts S s.machine call)
    (hadm' : Accepts S s.machine call')
    (hcall : call = .acceptConfirmation ∨ call = .acceptTime T ∧ T ≠ 0)
    (hcall' : call' = .acceptConfirmation ∨ call' = .acceptTime T ∧ T ≠ 0) {n : ℕ}
    (h : runs (Sys.step S) s (.call call :: List.replicate n (.tick false)) = some s₁)
    (hidle : s₁.control = .idle) :
    ∃ n s₂, runs (Sys.step S) s (.call call' :: List.replicate n (.tick false)) = some s₂ ∧
      s₂.control = .idle := by
  obtain ⟨v₁, -, -, -, -, hend⟩ := ring_call_end halike hs hdue hadm hcall h hidle
  obtain ⟨u, hu, -⟩ := Option.bind_eq_some_iff.mp h
  have hvidle : v.control = .idle := halike.control ▸ (Sys.step_call hu).1
  obtain ⟨n', v₂, hv₂, hidle₂⟩ :=
    call_returns hs hdue hvidle (hadm'.stands halike.stands) hcall' hend
  have hrel := runs_alike (S := S) halike (offered_call hcall' n')
  rw [hv₂] at hrel
  generalize hs₂ : runs (Sys.step S) s _ = y at hrel
  cases hrel with
  | some hst => exact ⟨n', _, hs₂, hst.control.trans hidle₂⟩

/-- **A confirmation is a late timer.**  After every run within capacity, where the intervals of
all pushed events end by `T`, and the clock is not past it: `accept_confirmation` and
`accept_time(T)`, the output not frozen, both return or both do not; and then they relay the same
events and leave the same machine, with nothing in its queue, but for the clock. -/
theorem force_as_timer {c : ℕ} (hcap : 2 ≤ c) {acts : List (Act E Time)}
    (hw : WithinCapacity S c acts) {s : Sys (Triqueue E) E Time}
    (h : runs (Sys.step S) (Sys.create (Triqueue.create c)) acts = some s) {T : Time}
    (hT : T ≠ 0) (hcur : s.machine.mCurrentTime ≤ T)
    (hdue : ∀ e ∈ s.pushed,
      S.env.timeOf e + S.config.verificationIntervalOf (S.env.detailOf e) noKey ≤ T) :
    ((∃ n s₁, runs (Sys.step S) s (.call .acceptConfirmation :: List.replicate n (.tick false))
        = some s₁ ∧ s₁.control = .idle) ↔
      ∃ n s₂, runs (Sys.step S) s (.call (.acceptTime T) :: List.replicate n (.tick false))
        = some s₂ ∧ s₂.control = .idle) ∧
    ∀ n n' s₁ s₂,
      runs (Sys.step S) s (.call .acceptConfirmation :: List.replicate n (.tick false))
        = some s₁ → s₁.control = .idle →
      runs (Sys.step S) s (.call (.acceptTime T) :: List.replicate n' (.tick false))
        = some s₂ → s₂.control = .idle →
      relayed s₁.trace = relayed s₂.trace ∧ s₁.machine.tq.empty = true ∧
        s₂.machine.tq.empty = true ∧
        ∃ l : ListMachine E Time, l.state = .normal ∧ Stands c s₁.machine l ∧
          Stands c s₂.machine { l with mCurrentTime := s₂.machine.mCurrentTime } := by
  obtain ⟨v, hv, halike⟩ := ring_run hcap hw h
  have hvdue : Due S T v.view := by
    obtain ⟨sent, hsent⟩ := Sys.pushed_line hv
    intro e he
    refine hdue e ?_
    rw [halike.pushed, hsent]
    refine List.mem_append_right _ ?_
    rwa [line, Sys.view_mid, Sys.view_inp] at he
  have hadm₁ : Accepts S s.machine (.acceptConfirmation : Call E Time) := trivial
  have hadm₂ : Accepts S s.machine (.acceptTime T : Call E Time) := hcur
  have hc₁ : (.acceptConfirmation : Call E Time) = .acceptConfirmation ∨
      (.acceptConfirmation : Call E Time) = .acceptTime T ∧ T ≠ 0 := .inl rfl
  have hc₂ : (.acceptTime T : Call E Time) = .acceptConfirmation ∨
      (.acceptTime T : Call E Time) = .acceptTime T ∧ T ≠ 0 := .inr ⟨rfl, hT⟩
  have hs := runs_sound hv
  refine ⟨⟨?_, ?_⟩, ?_⟩
  · rintro ⟨n, s₁, h₁, hidle₁⟩
    exact ring_call_returns halike hs hvdue hadm₁ hadm₂ hc₁ hc₂ h₁ hidle₁
  · rintro ⟨n, s₂, h₂, hidle₂⟩
    exact ring_call_returns halike hs hvdue hadm₂ hadm₁ hc₂ hc₁ h₂ hidle₂
  intro n n' s₁ s₂ h₁ hidle₁ h₂ hidle₂
  obtain ⟨v₁, ha₁, hi₁, hall₁, hn₁, he₁⟩ := ring_call_end halike hs hvdue hadm₁ hc₁ h₁ hidle₁
  obtain ⟨v₂, ha₂, hi₂, hall₂, hn₂, he₂⟩ := ring_call_end halike hs hvdue hadm₂ hc₂ h₂ hidle₂
  obtain ⟨hrelayed, hmachine⟩ := of_view_feed hi₁ hi₂ hall₁ hall₂ (Part.mem_unique he₁ he₂)
  have hclock : s₂.machine.mCurrentTime = v₂.machine.mCurrentTime := by
    have hst := ha₂.stands
    generalize s₂.machine = m at hst
    cases hst
    rfl
  rw [ha₁.trace, ha₂.trace, Triqueue.empty_eq ha₁.stands.rep, Triqueue.empty_eq ha₂.stands.rep,
    hall₁, hall₂, hclock]
  refine ⟨hrelayed, rfl, rfl, v₁.machine, hn₁, ha₁.stands, ?_⟩
  have hstands := ha₂.stands
  rwa [hmachine] at hstands

theorem force_as_timer_two : ∃ s s₁ s₂,
    runs (Sys.step testSetup) (Sys.create (Triqueue.create 2))
      (during (.acceptEvent (down 1 100)) 7 ++ during (.acceptEvent (down 3 200)) 7) = some s ∧
    runs (Sys.step testSetup) s (during .acceptConfirmation 11) = some s₁ ∧
    runs (Sys.step testSetup) s (during (.acceptTime 1100) 13) = some s₂ ∧
    relayed s₁.trace = [down 11 100, down 13 200] ∧
    relayed s₁.trace = relayed s₂.trace ∧ s₁.machine.tq.empty = true ∧
      s₂.machine.tq.empty = true ∧
      ∃ l : ListMachine TestEvent Nat, l.state = .normal ∧ Stands 2 s₁.machine l ∧
        Stands 2 s₂.machine { l with mCurrentTime := s₂.machine.mCurrentTime } := by
  have hall := Option.eq_some_of_isSome (o := runs (Sys.step testSetup)
    (Sys.create (Triqueue.create 2)) ((during (.acceptEvent (down 1 100)) 7 ++
      during (.acceptEvent (down 3 200)) 7) ++ during .acceptConfirmation 11)) (by decide)
  have hall' := Option.eq_some_of_isSome (o := runs (Sys.step testSetup)
    (Sys.create (Triqueue.create 2)) ((during (.acceptEvent (down 1 100)) 7 ++
      during (.acceptEvent (down 3 200)) 7) ++ during (.acceptTime 1100) 13)) (by decide)
  obtain ⟨s, hs, h₁⟩ := runs_append_some.mp hall
  obtain ⟨u, hu, h₂⟩ := runs_append_some.mp hall'
  obtain rfl := Option.some.inj (hu.symm.trans hs)
  have hstate : ∀ u ∈ runs (Sys.step testSetup) (Sys.create (Triqueue.create 2))
      (during (.acceptEvent (down 1 100)) 7 ++ during (.acceptEvent (down 3 200)) 7),
      u.machine.mCurrentTime ≤ 1100 ∧ ∀ e ∈ u.pushed, testEnvironment.timeOf e
        + testConfiguration.verificationIntervalOf (testEnvironment.detailOf e) noKey ≤ 1100 := by
    decide
  have halike := (force_as_timer (le_refl 2) (by decide) hs (by decide) (hstate u hs).1
    (hstate u hs).2).2
  exact ⟨u, _, _, hs, h₁, h₂, by decide, halike _ _ _ _ h₁ (by decide) h₂ (by decide)⟩

end ForkNS
