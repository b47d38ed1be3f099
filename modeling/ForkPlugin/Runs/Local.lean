import ForkPlugin.Machine.Sends
import ForkPlugin.Machine.TestEvents
import ForkPlugin.Runs.Halt
import ForkPlugin.Runs.Keystroke
import ForkPlugin.Runs.Quiescent

/-!
# What a key can matter for

* `ForkConfiguration.SameOn K`   two configurations say the same about the keys with `K`;
* `body_local`        one iteration asks only about keys of undecided events;
* `local_runs`        so a run is the same with every configuration that says the same about the
                      keys that are typed;
* `Plain`             nothing is suspected, and only unforkable keys are in line;
* `unforkable_pass`   from a state where nothing is in line, unforkable keys pass as they are.
-/

namespace ForkNS

open Machine Runs

variable {E Time : Type} [LinearOrder Time] [Add Time] [Zero Time] [NatCast Time]

/-! ## the keys that are typed -/

/-- two configurations say the same about the keys with `K`, alone and in pairs -/
structure ForkConfiguration.SameOn (K : Keycode → Prop) (c c' : ForkConfiguration Time) : Prop where
  repeatMax : c'.repeatMax = c.repeatMax
  considerForksForRepeat : c'.considerForksForRepeat = c.considerForksForRepeat
  forkKeycode : ∀ k, K k → c'.forkKeycode k = c.forkKeycode k
  forkRepeatable : ∀ k, K k → c'.forkRepeatable k = c.forkRepeatable k
  verificationIntervalOf : ∀ k l, K k → (K l ∨ l = noKey) →
    c'.verificationIntervalOf k l = c.verificationIntervalOf k l
  overlapToleranceOf : ∀ k l, K k → K l → c'.overlapToleranceOf k l = c.overlapToleranceOf k l

/-- the setup with another configuration -/
def Setup.withConfig (S : Setup E Time) (config : ForkConfiguration Time) : Setup E Time :=
  { S with config := config }

variable {S : Setup E Time} {K : Keycode → Prop} {c' : ForkConfiguration Time}

namespace Machine

theorem verifierDecisionTime_local (hc : S.config.SameOn K c') {k l : Keycode} (hk : K k)
    (hl : K l) (t t' : Time) :
    c'.verifierDecisionTime k t l t' = S.config.verifierDecisionTime k t l t' := by
  simp only [ForkConfiguration.verifierDecisionTime, hc.verificationIntervalOf k l hk (.inl hl),
    hc.overlapToleranceOf k l hk hl]

theorem verdict_local (hc : S.config.SameOn K c') {m : ListMachine E Time} {e : E}
    (he : K (S.env.detailOf e)) : m.verdict (S.withConfig c') e = m.verdict S e := by
  simp only [verdict, normalVerdict, suspectVerdict, verifyVerdict, forkableP, Setup.withConfig,
    hc.forkKeycode _ he, hc.forkRepeatable _ he, hc.repeatMax]
  rfl

omit [Add Time] in
theorem forkHead_local (hc : S.config.SameOn K c') {m : ListMachine E Time}
    (hm : ∀ e ∈ m.tq.mid, K (S.env.detailOf e)) :
    m.forkHead (S.withConfig c') = m.forkHead S := by
  rcases hmid : m.tq.mid with - | ⟨h, t⟩
  · rw [forkHead_nil _ hmid, forkHead_nil _ hmid]
  · have hk : K (S.env.detailOf h) := hm h (by rw [hmid]; exact List.mem_cons_self)
    rw [forkHead_cons _ hmid, forkHead_cons _ hmid]
    simp only [Setup.withConfig, hc.forkKeycode _ hk]

theorem enact_local (hc : S.config.SameOn K c') {m : ListMachine E Time} {e : E}
    (hm : Sound S m) (hmid : ∀ e ∈ m.tq.mid, K (S.env.detailOf e)) (he : K (S.env.detailOf e)) :
    m.enact (S.withConfig c') e (m.verdict S e) = m.enact S e (m.verdict S e) := by
  have hg := guard_verdict S m e
  generalize m.verdict S e = v at hg ⊢
  cases v with
  | refork => simp only [enact, Setup.withConfig, hc.forkKeycode _ he]
  | startSuspect =>
    simp only [enact, startSuspect, Setup.withConfig,
      hc.verificationIntervalOf _ noKey he (.inr rfl)]
  | unfork =>
    simp only [enact, recordForkRelease, recordLastReleaseEvent, Setup.withConfig,
      hc.considerForksForRepeat]
  | forkHead => exact forkHead_local hc hmid
  | verify =>
    have hs : m.state ≠ .normal := by
      rw [hg.1]
      decide
    obtain ⟨h, t, hmh, -, -, -, hsu⟩ := hm.head hs
    have hk : K m.suspect := by
      rw [hsu]
      exact hmid h (by rw [hmh]; exact List.mem_cons_self)
    simp only [enact, startVerify, Setup.withConfig, verifierDecisionTime_local hc hk he]
  | _ => rfl

/-- one iteration asks only about the keys of undecided events -/
theorem body_local (hc : S.config.SameOn K c') {m : ListMachine E Time} (hm : Sound S m)
    (hline : ∀ e ∈ m.line, K (S.env.detailOf e)) (f : Bool) :
    m.automatonBody (S.withConfig c') f = m.automatonBody S f := by
  have hmid : ∀ e ∈ m.tq.mid, K (S.env.detailOf e) := fun e he =>
    hline e (List.mem_append_left _ he)
  have hn := hm.coherent.normal_iff
  rcases hi : m.tq.inp with - | ⟨e, rest⟩
  · have hte : TriqueueOps.thirdEmpty m.tq = true := by simp [TriqueueOps.thirdEmpty, hi]
    have hfork : m.activateForkRewind (S.withConfig c') = m.activateForkRewind S := by
      by_cases hs : m.tq.mid = []
      · simp [activateForkRewind, TriqueueOps.middleEmpty, hs]
      · rw [activateForkRewind_eq _ hs, activateForkRewind_eq _ hs, forkHead_local hc hmid]
    by_cases hd : m.TimerDue
    · rw [automatonBody_time hte hd, automatonBody_time hte hd, hfork]
    · rw [automatonBody_still hte hd, automatonBody_still hte hd]
      simp only [forceOrBreak, transitionByForce, hfork]
  · have he : K (S.env.detailOf e) :=
      hline e (List.mem_append_right _ (by rw [hi]; exact List.mem_cons_self))
    rw [automatonBody_enact hn hi, automatonBody_enact hn hi, verdict_local hc he,
      enact_local hc hm hmid he]

end Machine

theorem tick_local (hc : S.config.SameOn K c') {m : ListMachine E Time} (hm : Sound S m)
    (hline : ∀ e ∈ m.line, K (S.env.detailOf e)) (frozen : Bool) (control : Control E Time) :
    tick (S.withConfig c') m frozen control = tick S m frozen control := by
  cases control with
  | automatonLoop f => simp only [tick, body_local hc hm hline]
  | _ => rfl

/-- **What is not typed does not matter.**  Two configurations that say the same about the keys
that are typed, alone and in pairs, give the same runs. -/
theorem local_runs (hc : S.config.SameOn K c') (acts : List (Act E Time))
    (hK : ∀ e ∈ offered acts, K (S.env.detailOf e)) :
    runs (Sys.step (S.withConfig c')) (Sys.create .nil) acts
      = runs (Sys.step S) (Sys.create ThreeLists.nil) acts := by
  induction acts using List.reverseRecOn with
  | nil => rfl
  | append_singleton acts a ih =>
    have hleft : ∀ e ∈ offered acts, K (S.env.detailOf e) := fun e he =>
      hK e (by rw [offered_append]; exact List.mem_append_left _ he)
    rw [runs_snoc, runs_snoc, ih hleft]
    rcases hr : runs (Sys.step S) (Sys.create ThreeLists.nil) acts with - | s
    · rfl
    · show s.step (S.withConfig c') a = s.step S a
      cases a with
      | call c => rfl
      | tick frozen =>
        have hline : ∀ e ∈ s.machine.line, K (S.env.detailOf e) := fun e he =>
          hleft e (line_offered hr e he)
        simp only [Sys.step, tick_local hc (runs_sound hr) hline]

/-- what is seen of a run, and its contents, are those of another configuration -/
theorem same_on_typed {c : ℕ} (hcap : 2 ≤ c) (hc : S.config.SameOn K c') {acts : List (Act E Time)}
    (hK : ∀ e ∈ offered acts, K (S.env.detailOf e)) (hw : WithinCapacity S c acts)
    {s : Sys (Triqueue E) E Time}
    (h : runs (Sys.step S) (Sys.create (Triqueue.create c)) acts = some s) :
    ∃ s', runs (Sys.step (S.withConfig c')) (Sys.create (Triqueue.create c)) acts = some s' ∧
      s'.trace = s.trace ∧ s'.pushed = s.pushed ∧ s'.control = s.control ∧
      ∃ l : ListMachine E Time, Stands c s.machine l ∧ Stands c s'.machine l := by
  obtain ⟨t, ht, halike⟩ := ring_run hcap hw h
  have hroom : Within (S.withConfig c') (fun l => l.all.length) c ThreeLists.nil acts := by
    rintro pre post u rfl hu
    rw [local_runs hc pre fun e he =>
      hK e (by rw [offered_append]; exact List.mem_append_left _ he)] at hu
    obtain ⟨v, hv, -⟩ := runs_append_some.mp h
    exact (ring_run_alike hcap hw.left hv hu).stands.rep.holds.fits
  rw [← local_runs hc acts hK] at ht
  obtain ⟨s', hs', halike'⟩ := ring_run_of_lists hcap hroom ht
  exact ⟨s', hs', halike'.trace.trans halike.trace.symm, halike'.pushed.trans halike.pushed.symm,
    halike'.control.trans halike.control.symm, t.machine, halike.stands, halike'.stands⟩

/-- the test configuration, with nothing for key 3, and key 20 forked to 21 -/
def otherConfiguration : ForkConfiguration Nat :=
  { testConfiguration with
    forkKeycode := fun k => if k = 3 then 0 else if k = 20 then 21
      else testConfiguration.forkKeycode k }

theorem same_on_typed_other : ∃ s s',
    runs (Sys.step testSetup) (Sys.create (Triqueue.create 2))
      (during (.acceptEvent (down 1 100)) 7 ++ during (.acceptTime 1100) 9) = some s ∧
    relayed s.trace = [down 11 100] ∧
    runs (Sys.step (testSetup.withConfig otherConfiguration)) (Sys.create (Triqueue.create 2))
      (during (.acceptEvent (down 1 100)) 7 ++ during (.acceptTime 1100) 9) = some s' ∧
      s'.trace = s.trace ∧ s'.pushed = s.pushed ∧ s'.control = s.control ∧
      ∃ l : ListMachine TestEvent Nat, Stands 2 s.machine l ∧ Stands 2 s'.machine l := by
  have hs := Option.eq_some_of_isSome (o := runs (Sys.step testSetup)
    (Sys.create (Triqueue.create 2))
    (during (.acceptEvent (down 1 100)) 7 ++ during (.acceptTime 1100) 9)) (by decide)
  have hsame : testSetup.config.SameOn (· = 1) otherConfiguration :=
    { repeatMax := rfl
      considerForksForRepeat := rfl
      forkKeycode := fun k hk => by subst hk; rfl
      forkRepeatable := fun _ _ => rfl
      verificationIntervalOf := fun _ _ _ _ => rfl
      overlapToleranceOf := fun _ _ _ _ => rfl }
  obtain ⟨s', hs', hobs⟩ := same_on_typed (le_refl 2) hsame (by decide) (by decide) hs
  exact ⟨_, s', hs, by decide, hs', hobs⟩

/-! ## unforkable keys -/

/-- only forkable keys are forked -/
def OnlyForkable (S : Setup E Time) (m : ListMachine E Time) : Prop :=
  ∀ k, S.config.forkKeycode k = noKey → m.forkActive k = noKey

/-- nothing is internal, and only unforkable keys are in line -/
structure Plain (S : Setup E Time) (m : ListMachine E Time) : Prop where
  mid : m.tq.mid = []
  inp : ∀ e ∈ m.tq.inp, S.config.forkKeycode (S.env.detailOf e) = noKey

omit [LinearOrder Time] [Add Time] [Zero Time] [NatCast Time] in
theorem onlyForkable_update {m m' : ListMachine E Time} (h : OnlyForkable S m) {k c : Keycode}
    (hf : m'.forkActive = Function.update m.forkActive k c)
    (hc : S.config.forkKeycode k = noKey → c = noKey) : OnlyForkable S m' := by
  intro k' hk'
  rw [hf]
  by_cases heq : k' = k
  · rw [heq, Function.update_self]
    exact hc (heq ▸ hk')
  · rw [Function.update_of_ne heq]
    exact h k' hk'

omit [LinearOrder Time] [Add Time] [NatCast Time] in
theorem OnlyForkable.forkHead {m : ListMachine E Time} (h : OnlyForkable S m) :
    OnlyForkable S (m.forkHead S) := by
  rcases hmid : m.tq.mid with - | ⟨e, t⟩
  · rwa [forkHead_nil S hmid]
  · rw [forkHead_cons S hmid]
    exact onlyForkable_update h rfl id

omit [LinearOrder Time] [Add Time] [NatCast Time] in
theorem confirmHead_forkActive (m : ListMachine E Time) :
    m.confirmHead.forkActive = m.forkActive := by
  rcases hmid : m.tq.mid with - | ⟨e, t⟩
  · rw [confirmHead_nil hmid]
  · rw [confirmHead_cons hmid]
    rfl

theorem OnlyForkable.enact {m : ListMachine E Time} (hm : Sound S m) (h : OnlyForkable S m)
    (e : E) : OnlyForkable S (m.enact S e (m.verdict S e)) := by
  have hg := guard_verdict S m e
  generalize m.verdict S e = v at hg ⊢
  -- a forkable key is forked to itself
  have hself : ∀ k, forkableP S k → S.config.forkKeycode k = noKey → k = noKey := by
    intro k hf hk
    simp [forkableP, hk] at hf
  cases v with
  | refork => exact onlyForkable_update h rfl id
  | selfFork => exact onlyForkable_update h rfl (hself _ hg.2.2.1)
  | unfork =>
    obtain ⟨k, t, hk⟩ := recordForkRelease_eq S m e
    rw [Machine.enact, hk]
    exact onlyForkable_update h rfl fun _ => rfl
  | pass =>
    obtain ⟨k, t, hk⟩ := recordRelease_eq S m e
    rw [Machine.enact, hk]
    exact h
  | forkHead => exact h.forkHead
  | confirmHead =>
    intro k hk
    rw [Machine.enact, confirmHead_forkActive]
    exact h k hk
  | repeatHead =>
    obtain ⟨e', t, -, -, hf, -, hsu⟩ := hm.head (by rw [hg.1]; decide)
    refine onlyForkable_update h (confirmHead_forkActive _) ?_
    rw [hsu]
    exact hself _ hf
  | _ => exact h

theorem OnlyForkable.move {a : Act E Time} {f : Bool} {m m' : ListMachine E Time} {es : List E}
    (hm : Sound S m) (h : OnlyForkable S m) (hmove : Move S a f m es m') : OnlyForkable S m' := by
  cases hmove with
  | key e => exact h.enact hm e
  | time => exact h.forkHead
  | force => exact h.forkHead
  | _ => exact h

/-- **One step** moves unforkable events on, as they are. -/
theorem Plain.move {a : Act E Time} {f : Bool} {m m' : ListMachine E Time} {es : List E}
    (hm : Sound S m) (ho : OnlyForkable S m) (h : Plain S m)
    (hes : ∀ e ∈ es, S.config.forkKeycode (S.env.detailOf e) = noKey)
    (hmove : Move S a f m es m') :
    Plain S m' ∧ m'.tq.out ++ m'.tq.inp = m.tq.out ++ m.tq.inp ++ es := by
  have hn := hm.coherent.normal_iff.mpr h.mid
  cases hmove with
  | still => exact ⟨h, (List.append_nil _).symm⟩
  | clock c => exact ⟨⟨h.mid, h.inp⟩, (List.append_nil _).symm⟩
  | push e =>
    refine ⟨⟨h.mid, fun e' he' => ?_⟩, (List.append_assoc _ _ _).symm⟩
    rcases List.mem_append.mp he' with he' | he'
    · exact h.inp e' he'
    · exact hes e' he'
  | key e rest hi =>
    have hplain : S.config.forkKeycode (S.env.detailOf e) = noKey :=
      h.inp e (by rw [hi]; exact List.mem_cons_self)
    have hfa := ho _ hplain
    have hunforkable : ¬forkableP S (S.env.detailOf e) := by simp [forkableP, hplain]
    have hunforked : ¬m.keyForked (S.env.detailOf e) := by simp [keyForked, hfa]
    have hg := guard_verdict S m e
    generalize m.verdict S e = v at hg ⊢
    cases v with
    | pass =>
      obtain ⟨k, t, hk⟩ := recordRelease_eq S m e
      rw [Machine.enact, hk]
      refine ⟨⟨h.mid, fun e' he' => h.inp e' (List.mem_of_mem_tail he')⟩, ?_⟩
      simp [passAs, hi]
    | refork => exact absurd hg.2.2 hunforked
    | startSuspect => exact absurd hg.2.2.1 hunforkable
    | autoRepeat => exact absurd hg.2.2.1 hunforkable
    | selfFork => exact absurd hg.2.2.1 hunforkable
    | unfork => exact absurd hfa hg.2.2
    | forkHead => exact absurd hn hg.1
    | confirmHead => exact absurd hn hg.1
    | wait => exact absurd hn hg.1
    | repeatHead | discard | verify | unverify => exact absurd (hg.1.symm.trans hn) (by decide)
  | time hi hs => exact absurd hn hs
  | force hf hi hs => exact absurd hn hs

theorem onlyForkable_run {acts : List (Act E Time)} {s : Sys (ThreeLists E) E Time}
    (h : runs (Sys.step S) (Sys.create .nil) acts = some s) : OnlyForkable S s.machine :=
  (Sys.view_ind (P := fun _ _ m => OnlyForkable S m) (fun _ _ => rfl)
    (fun _ _ _ _ _ _ _ _ hm ih hmove => ih.move hm hmove) h).2

theorem lists_pass {acts acts' : List (Act E Time)} {s s' : Sys (ThreeLists E) E Time}
    (h : runs (Sys.step S) (Sys.create .nil) acts = some s) (hline : s.machine.line = [])
    (hplain : ∀ e ∈ offered acts', S.config.forkKeycode (S.env.detailOf e) = noKey)
    (h' : runs (Sys.step S) s acts' = some s') :
    Plain S s'.view ∧ ∃ es, s'.pushed = s.pushed ++ es ∧
      s'.handed ++ s'.machine.tq.inp = s.handed ++ es := by
  induction acts' using List.reverseRecOn generalizing s' with
  | nil =>
    cases h'
    obtain ⟨hmid, hinp⟩ := List.append_eq_nil_iff.mp hline
    refine ⟨⟨hmid, ?_⟩, [], (List.append_nil _).symm, by rw [hinp]⟩
    rw [Sys.view_inp, hinp]
    exact fun e he => absurd he List.not_mem_nil
  | append_singleton acts' a ih =>
    obtain ⟨u, hu, hstep⟩ := runs_snoc_some.mp h'
    rw [offered_append] at hplain
    obtain ⟨hpu, es, hes, hout⟩ := ih (fun e he => hplain e (List.mem_append_left _ he)) hu
    have hru : runs (Sys.step S) (Sys.create .nil) (acts ++ acts') = some u :=
      runs_append_some.mpr ⟨s, h, hu⟩
    have hsu := runs_sound hru
    have hsv : Sound S u.view := ⟨hsu.coherent, hsu.headOpen, hsu.bugs⟩
    obtain ⟨es', hes', hmove⟩ := Sys.view_step hsu hstep
    obtain ⟨hpv, hout'⟩ := hpu.move hsv (onlyForkable_run hru) (fun e he =>
      hplain e (List.mem_append_right _ (step_offered hstep hes' e he))) hmove
    refine ⟨hpv, es ++ es', by rw [hes', hes, List.append_assoc], ?_⟩
    rw [Sys.view_inp, Sys.view_inp] at hout'
    have hhanded : s'.handed ++ s'.machine.tq.inp = u.handed ++ u.machine.tq.inp ++ es' := hout'
    rw [hhanded, hout, List.append_assoc]

/-- a further call, while the output is not frozen, returns, and nothing is left in the queue -/
theorem lists_pass_returns {acts acts' : List (Act E Time)} {s u u₁ : Sys (ThreeLists E) E Time}
    (h : runs (Sys.step S) (Sys.create .nil) acts = some s) (hline : s.machine.line = [])
    (hplain : ∀ e ∈ offered acts', S.config.forkKeycode (S.env.detailOf e) = noKey)
    (hu : runs (Sys.step S) s acts' = some u) {call : Call E Time}
    (hkey : ∀ e, call = .acceptEvent e → S.config.forkKeycode (S.env.detailOf e) = noKey)
    (hadm : Accepts S u.machine call) (hcall : u.step S (.call call) = some u₁) :
    ∃ b ∈ StateTransition.eval (Sys.unfrozen S) u₁, b.control = .idle ∧
      ∃ es, b.pushed = s.pushed ++ es ∧ relayed b.trace = s.handed ++ es := by
  have hu₁ : runs (Sys.step S) s (acts' ++ [.call call]) = some u₁ :=
    runs_snoc_some.mpr ⟨u, hu, hcall⟩
  have hafter : ∀ n t, runs (Sys.step S) u₁ (List.replicate n (.tick false)) = some t →
      Plain S t.view ∧ ∃ es, t.pushed = s.pushed ++ es ∧
        t.handed ++ t.machine.tq.inp = s.handed ++ es := by
    intro n t ht
    refine lists_pass h hline (fun e he => ?_) (runs_append_some.mpr ⟨u₁, hu₁, ht⟩)
    simp only [offered_append, List.mem_append] at he
    rcases he with (he | he) | he
    · exact hplain e he
    · cases call with
      | acceptEvent e' =>
        obtain rfl := List.mem_singleton.mp he
        exact hkey e rfl
      | _ => cases he
    · simp [offered] at he
  have hrun₁ := runs_append_some.mpr ⟨s, h, hu₁⟩
  -- nothing is suspected on the way
  have hno : ∀ t, StateTransition.Reaches (Sys.unfrozen S) u₁ t → ¬Stuck S t := by
    rintro t hreach ⟨-, hsuspect, -⟩
    obtain ⟨n, hn⟩ := exists_runs_of_reaches hreach
    have hn' := (runs_sound (runs_append_some.mpr ⟨u₁, hrun₁, hn⟩)).coherent.normal_iff.mpr
      (hafter n t hn).1.mid
    exact absurd (hn'.symm.trans hsuspect) (by decide)
  have hlock : u₁.control = .relock → S.stdLibrary = false := fun hc => by
    rw [(Sys.step_call hcall).2, Sys.apply, enter_relock] at hc
    obtain ⟨now, rfl, hlt⟩ := hc
    exact absurd hadm (not_le.mpr hlt)
  obtain ⟨b, hb, hidle⟩ := returns_of_not_stuck (runs_sound hrun₁) hlock hno
  obtain ⟨n, hn⟩ := exists_runs_of_reaches (StateTransition.mem_eval.mp hb).1
  have hu' := runs_sound (runs_append_some.mpr ⟨s, h, hu⟩)
  obtain ⟨-, hq⟩ := lists_quiescent hu' hadm
    (show runs (Sys.step S) u (.call call :: List.replicate n (.tick false)) = some b by
      rw [runs_cons, hcall]
      exact hn)
  obtain ⟨-, es, hes, hout⟩ := hafter n b hn
  rw [hidle] at hq
  rw [Sys.handed, hidle, hq.1.inp, hq.2] at hout
  exact ⟨b, hb, hidle, es, hes, by simpa [Control.inHand] using hout⟩

variable {c : ℕ}

/-- **Unforkable keys are not delayed.**  Where no event is undecided, whatever was typed before,
and only unforkable keys are typed from then on: no key is suspected, and their events leave as
they are, in order.  Only a frozen output keeps them: a further call that is not turned away
returns while the output is not frozen, and then all of them are relayed. -/
theorem unforkable_pass (hcap : 2 ≤ c) {acts acts' : List (Act E Time)}
    (hw : WithinCapacity S c (acts ++ acts')) {s s' : Sys (Triqueue E) E Time}
    (h : runs (Sys.step S) (Sys.create (Triqueue.create c)) acts = some s)
    (hmid : s.machine.tq.middleEmpty = true) (hinp : s.machine.tq.thirdEmpty = true)
    (hplain : ∀ e ∈ offered acts', S.config.forkKeycode (S.env.detailOf e) = noKey)
    (h' : runs (Sys.step S) s acts' = some s') :
    s'.machine.state = .normal ∧ s'.machine.tq.middleEmpty = true ∧
      ∃ l l' : ListMachine E Time, Stands c s.machine l ∧ Stands c s'.machine l' ∧
      (∃ es, s'.pushed = s.pushed ++ es ∧
        relayed s'.trace ++ s'.control.inHand ++ l'.tq.out ++ l'.tq.inp
          = relayed s.trace ++ s.control.inHand ++ l.tq.out ++ es) ∧
      ∀ call s₁, (∀ e, call = .acceptEvent e → S.config.forkKeycode (S.env.detailOf e) = noKey) →
        WithinCapacity S c (acts ++ acts' ++ [.call call]) → Accepts S s'.machine call →
        s'.step S (.call call) = some s₁ →
        ∃ n r es, runs (Sys.step S) s₁ (List.replicate n (.tick false)) = some r ∧
          r.control = .idle ∧ r.pushed = s.pushed ++ es ∧
          relayed r.trace = relayed s.trace ++ s.control.inHand ++ l.tq.out ++ es := by
  obtain ⟨t', ht', halike'⟩ := ring_run hcap hw (runs_append_some.mpr ⟨s, h, h'⟩)
  obtain ⟨t, ht, hrest⟩ := runs_append_some.mp ht'
  have halike := ring_run_alike hcap hw.left h ht
  rw [Triqueue.middleEmpty_eq halike.stands.rep, List.isEmpty_iff] at hmid
  rw [Triqueue.thirdEmpty_eq halike.stands.rep, List.isEmpty_iff] at hinp
  have hline : t.machine.line = [] := by
    rw [line, hmid, hinp]
    rfl
  obtain ⟨hp, es, hes, hout⟩ := lists_pass ht hline hplain hrest
  rw [halike'.stands.state, Triqueue.middleEmpty_eq halike'.stands.rep, halike'.pushed,
    halike.pushed, halike'.trace, halike.trace, halike'.control, halike.control]
  refine ⟨(runs_sound ht').coherent.normal_iff.mpr hp.mid, ?_, t.machine, t'.machine,
    halike.stands, halike'.stands, ⟨es, hes, hout⟩, ?_⟩
  · rw [← Sys.view_mid, hp.mid]
    rfl
  · intro call s₁ hkey hw₁ hadm hcall
    have hall := runs_snoc_some.mpr ⟨s', runs_append_some.mpr ⟨s, h, h'⟩, hcall⟩
    obtain ⟨t₁, ht₁, halike₁⟩ := ring_run hcap hw₁ hall
    obtain ⟨u, hu, htcall⟩ := runs_snoc_some.mp ht₁
    obtain rfl : u = t' := Option.some.inj (hu.symm.trans ht')
    obtain ⟨d, hd, hidle, es', hes', hrel⟩ := lists_pass_returns ht hline hplain hrest hkey
      (hadm.stands halike'.stands) htcall
    obtain ⟨b, hbd, hb⟩ := StateTransition.tr_eval (respects_of_rel_swap (R := Alike c)
      fun u v => unfrozen_alike (S := S) (s := u) (t := v)) halike₁ hd
    obtain ⟨n, hn⟩ := exists_runs_of_reaches (StateTransition.mem_eval.mp hb).1
    exact ⟨n, b, es', hn, hbd.control.trans hidle, hbd.pushed.trans hes', hbd.trace ▸ hrel⟩

/-- key 1 was forked by a timer, and key 20 is typed before key 1 is released -/
theorem unforkable_pass_typed : ∃ s s',
    runs (Sys.step testSetup) (Sys.create (Triqueue.create 2))
      (during (.acceptEvent (down 1 100)) 7 ++ during (.acceptTime 1100) 9) = some s ∧
    runs (Sys.step testSetup) s (during (.acceptEvent (down 20 1110)) 8) = some s' ∧
    relayed s'.trace = [down 11 100, down 20 1110] ∧
    s'.machine.state = .normal ∧ s'.machine.tq.middleEmpty = true ∧
      ∃ l l' : ListMachine TestEvent Nat, Stands 2 s.machine l ∧ Stands 2 s'.machine l' ∧
      ∃ es, s'.pushed = s.pushed ++ es ∧
        relayed s'.trace ++ s'.control.inHand ++ l'.tq.out ++ l'.tq.inp
          = relayed s.trace ++ s.control.inHand ++ l.tq.out ++ es := by
  have hall := Option.eq_some_of_isSome (o := runs (Sys.step testSetup)
    (Sys.create (Triqueue.create 2)) (during (.acceptEvent (down 1 100)) 7 ++
      during (.acceptTime 1100) 9 ++ during (.acceptEvent (down 20 1110)) 8)) (by decide)
  obtain ⟨s, hs, hs'⟩ := runs_append_some.mp hall
  have hempty : ∀ u ∈ runs (Sys.step testSetup) (Sys.create (Triqueue.create 2))
      (during (.acceptEvent (down 1 100)) 7 ++ during (.acceptTime 1100) 9),
      u.machine.tq.middleEmpty = true ∧ u.machine.tq.thirdEmpty = true := by decide
  obtain ⟨hn, hm, l, l', hl, hl', hout, -⟩ := unforkable_pass (le_refl 2) (by decide) hs
    (hempty s hs).1 (hempty s hs).2 (by decide) hs'
  exact ⟨s, _, hs, hs', by decide, hn, hm, l, l', hl, hl', hout⟩

end ForkNS
