import ForkPlugin.Machine.Batch
import ForkPlugin.Machine.Resolver

/-!
# One suspicion

How the uninterrupted machine ends a suspicion, and how the look-ahead of the resolver does.

* `Ready`               nothing is suspected: the output, the input, and the remembered keys;
* `Looks`               a machine that suspects `h` and remembers what the look-ahead does;
* `enact_keeps`         what every event does that does not end the suspicion;
* `Ended`, `Follows`    the end of a suspicion, for each outcome, and as the look-ahead has it;
* `lookAhead_reaches`   on a stream that alternates the machine comes to that end.
-/

namespace ForkNS

open Runs Machine StateTransition

variable {E Time : Type} [LinearOrder Time] [Add Time] [Zero Time] [NatCast Time]
  {S : Setup E Time}

namespace Machine

def keys (m : ListMachine E Time) : Keys Time :=
  ⟨m.forkActive, m.lastReleased, m.lastReleasedTime⟩

/-- nothing suspected, the output sent, the input to come, and what is remembered -/
structure Ready (S : Setup E Time) (m : ListMachine E Time) (out inp : List E) (ks : Keys Time) :
    Prop where
  sound : Sound S m
  tq : m.tq = ⟨out, [], inp⟩
  keys : m.keys = ks

namespace Ready
variable {m : ListMachine E Time} {out es : List E} {ks : Keys Time} (hm : Ready S m out es ks)
include hm

theorem normal : m.state = .normal := hm.sound.coherent.normal_iff.mpr (by rw [hm.tq])

theorem inp : m.tq.inp = es := by rw [hm.tq]

theorem forkActive : m.forkActive = ks.forkActive := congrArg Keys.forkActive hm.keys

theorem lastReleased : m.lastReleased = ks.lastReleased := congrArg Keys.lastReleased hm.keys

theorem lastReleasedTime : m.lastReleasedTime = ks.lastReleasedTime :=
  congrArg Keys.lastReleasedTime hm.keys

end Ready

/-- the machine suspects `h` and remembers what the resolver does -/
structure Looks (S : Setup E Time) (h : E) (l : Look Time) (m : ListMachine E Time) : Prop where
  verificator : m.state = .suspect ∧ l.verificator = none ∨
    m.state = .verify ∧ l.verificator = some m.verificatorKeycode
  deadline : m.mDecisionTime = l.deadline
  suspectTime : m.suspectTime = S.env.timeOf h

omit [LinearOrder Time] [Add Time] [Zero Time] [NatCast Time] in
theorem Looks.notNormal {h : E} {l : Look Time} {m : ListMachine E Time} (hl : Looks S h l m) :
    m.state ≠ .normal := by
  rcases hl.verificator with ⟨hs, -⟩ | ⟨hs, -⟩ <;> rw [hs] <;> decide

/-- the machine scans an event as the resolver sees it -/
theorem Looks.scan (hE : S.env.Lawful) {h : E} {l : Look Time} {m m' : ListMachine E Time}
    (hl : Looks S h l m) (hsu : m.suspect = S.env.detailOf h) {e : E}
    (hk : S.env.pressP e → S.env.detailOf e ≠ S.env.detailOf h)
    (hd : m'.decision = Decision.scan S m.decision e) : Looks S h (l.see S h e) m' := by
  obtain ⟨hv, hdl, hst⟩ := hl
  have hmatch : ((Decision.scan S m.decision e).state = .suspect ∧
        (l.see S h e).verificator = none ∨
      (Decision.scan S m.decision e).state = .verify ∧ (l.see S h e).verificator
        = some (Decision.scan S m.decision e).verificatorKeycode) ∧
      (Decision.scan S m.decision e).mDecisionTime = (l.see S h e).deadline := by
    rcases hv with ⟨hs, hn⟩ | ⟨hs, hn⟩
    · by_cases hp : S.env.pressP e = true
      · -- a press becomes the verificator
        simp [Decision.scan, Look.see, decision, hs, hn, hp, hE.oneKind e hp, hk hp, hdl, hst, hsu]
      · simp [Decision.scan, Look.see, decision, hs, hn, hp, hdl]
    · by_cases hr : S.env.releaseP e = true ∧ S.env.detailOf e = m.verificatorKeycode
      · simp [Decision.scan, Look.see, decision, hs, hn, hr.1, hr.2, hdl]
      · have hr' : ¬(S.env.releaseP e = true ∧ m.verificatorKeycode = S.env.detailOf e) :=
          fun h => hr ⟨h.1, h.2.symm⟩
        simp [Decision.scan, Look.see, decision, hs, hn, hr, hr', hdl]
  rw [← hd] at hmatch
  refine ⟨hmatch.1, hmatch.2, ?_⟩
  show m'.decision.suspectTime = _
  rw [hd, Decision.scan_suspectTime]
  exact hst

theorem forkHead_ready {m : ListMachine E Time} (hm : Sound S m) {h : E} {t : List E}
    (hmid : m.tq.mid = h :: t) :
    Ready S (m.forkHead S)
      (m.tq.out ++ [S.env.rewriteEvent h (S.config.forkKeycode (S.env.detailOf h))])
      (t ++ m.tq.inp)
      (m.keys.setFork (S.env.detailOf h) (S.config.forkKeycode (S.env.detailOf h))) := by
  refine ⟨hm.forkHead, ?_, ?_⟩
  · rw [forkHead_cons S hmid]
    simp [settleAs, setForkActive, clear, hmid]
  · rw [forkHead_cons S hmid]
    rfl

theorem confirmHead_ready {m : ListMachine E Time} (hm : Sound S m) {h : E} {t : List E}
    (hmid : m.tq.mid = h :: t) :
    Ready S m.confirmHead (m.tq.out ++ [h]) (t ++ m.tq.inp) m.keys := by
  refine ⟨hm.confirmHead, ?_, ?_⟩
  · rw [confirmHead_cons hmid]
    simp [settleAs, clear, hmid]
  · rw [confirmHead_cons hmid]
    rfl

/-- an event before the deadline is kept, unless it releases or presses the suspect, or presses a
forked key -/
theorem enact_keeps {m : ListMachine E Time} {e : E} {es : List E} (hs : m.state ≠ .normal)
    (hi : m.tq.inp = e :: es) (ht : S.env.timeOf e < m.mDecisionTime)
    (hf : ¬(S.env.pressP e ∧ m.keyForked (S.env.detailOf e)))
    (hr : S.env.releaseP e → S.env.detailOf e ≠ m.suspect)
    (hp : S.env.pressP e → S.env.detailOf e ≠ m.suspect) :
    (m.enact S e (m.verdict S e)).tq = ⟨m.tq.out, m.tq.mid ++ [e], es⟩ ∧
      (m.enact S e (m.verdict S e)).keys = m.keys := by
  have hkeep : ∀ m' : ListMachine E Time, m'.tq = m.tq →
      (m'.keep e).tq = ⟨m.tq.out, m.tq.mid ++ [e], es⟩ := by
    intro m' hq
    rw [keep, hq, hi]
    rfl
  have hg := guard_verdict S m e
  generalize m.verdict S e = v at hg ⊢
  cases v with
  | verify => exact ⟨hkeep _ rfl, rfl⟩
  | unverify => exact ⟨hkeep _ rfl, rfl⟩
  | wait => exact ⟨hkeep _ rfl, rfl⟩
  | forkHead => exact absurd hg.2 (not_or.mpr ⟨hf, not_le.mpr ht⟩)
  | confirmHead => exact absurd hg.2.2.1 (hr hg.2.1)
  | repeatHead => exact absurd hg.2.2.2.1 (hp hg.2.1)
  | discard => exact absurd hg.2.2.2.1 (hp hg.2.1)
  | _ => exact absurd hg.1 hs

omit [Zero Time] [NatCast Time] in
/-- the release of the suspect before the deadline confirms it -/
theorem verdict_release {m : ListMachine E Time} {e : E} (hs : m.state ≠ .normal)
    (ht : S.env.timeOf e < m.mDecisionTime) (hp : S.env.pressP e = false)
    (hr : S.env.releaseP e) (hk : S.env.detailOf e = m.suspect) : m.verdict S e = .confirmHead := by
  have hg := guard_verdict S m e
  cases hv : m.verdict S e with
  | confirmHead => rfl
  | forkHead =>
    rw [hv] at hg
    rcases hg.2 with ⟨hp', -⟩ | hd
    · simp [hp] at hp'
    · exact absurd hd (not_le.mpr ht)
  | repeatHead => rw [hv] at hg; simp [hp, guard] at hg
  | discard => rw [hv] at hg; simp [hp, guard] at hg
  | verify => rw [hv] at hg; simp [hp, guard] at hg
  | unverify => rw [hv] at hg; exact absurd hk hg.2.2.1
  | wait => rw [hv] at hg; exact absurd hk (hg.2.2.1 hr)
  | _ => rw [hv] at hg; exact absurd hg.1 hs

omit [Zero Time] [NatCast Time] in
/-- a press of a forked key forks the suspect -/
theorem verdict_forked {m : ListMachine E Time} {e : E} (hs : m.state ≠ .normal)
    (hp : S.env.pressP e) (hk : m.keyForked (S.env.detailOf e)) : m.verdict S e = .forkHead := by
  have hf := (forkedPress_iff S).mpr ⟨hp, hk⟩
  simp only [verdict, if_pos hf, if_neg hs]

/-- how the suspicion of `h` ends, from `m` where `t` is internal after it and `es` is to come -/
def Ended (S : Setup E Time) (T : Time) (h : E) (t es : List E) (m m' : ListMachine E Time) :
    Outcome → Prop
  | .forked => Ready S m'
      (m.tq.out ++ [S.env.rewriteEvent h (S.config.forkKeycode (S.env.detailOf h))]) (t ++ es)
      (m.keys.setFork (S.env.detailOf h) (S.config.forkKeycode (S.env.detailOf h)))
  | .unforked => Ready S m' (m.tq.out ++ [h]) (t ++ es) m.keys
  | .undecided => batchStep S T m' = none ∧ m'.tq.out = m.tq.out ∧ m'.line = h :: t ++ es

/-- an event that is kept does not change how the suspicion ends -/
theorem Ended.kept {T : Time} {h e : E} {t es : List E} {m m₁ m' : ListMachine E Time}
    (hout : m₁.tq.out = m.tq.out) (hkeys : m₁.keys = m.keys) {o : Outcome}
    (hend : Ended S T h (t ++ [e]) es m₁ m' o) : Ended S T h t (e :: es) m m' o := by
  have hlist : t ++ [e] ++ es = t ++ e :: es := by simp
  cases o with
  | forked => rwa [Ended, hlist, hout, hkeys] at hend
  | unforked => rwa [Ended, hlist, hout, hkeys] at hend
  | undecided =>
    obtain ⟨hn, ho, hl⟩ := hend
    refine ⟨hn, ho.trans hout, hl.trans ?_⟩
    rw [List.cons_append, hlist, List.cons_append]

/-- it ends as the look-ahead says where that is calm, and with a fork where it is not -/
def Follows (S : Setup E Time) (T : Time) (h : E) (l : Look Time) (t es : List E)
    (m m' : ListMachine E Time) : Prop :=
  CalmAhead S T m.forkActive h l es ∧ Ended S T h t es m m' (lookAhead S T h l es) ∨
  ¬CalmAhead S T m.forkActive h l es ∧ lookAhead S T h l es ≠ .forked ∧
    Ended S T h t es m m' .forked

theorem follows_forkHead {T : Time} {m : ListMachine E Time} (hm : Sound S m) {h : E}
    {l : Look Time} {t : List E} (hmid : m.tq.mid = h :: t)
    (hla : CalmAhead S T m.forkActive h l m.tq.inp → lookAhead S T h l m.tq.inp = .forked) :
    Follows S T h l t m.tq.inp m (m.forkHead S) := by
  have hready := forkHead_ready hm hmid
  by_cases hf : lookAhead S T h l m.tq.inp = .forked
  · refine .inl ⟨calmAhead_of_forked _ hf, ?_⟩
    rw [hf]
    exact hready
  · exact .inr ⟨fun hc => hf (hla hc), hf, hready⟩

/-- before the deadline an event that neither presses a forked key nor releases the suspect adds
nothing of its own -/
theorem Follows.kept {T : Time} {h e : E} {l : Look Time} {t es : List E}
    {m m₁ m' : ListMachine E Time} (ht : S.env.timeOf e < l.deadline)
    (hf : ¬(S.env.pressP e ∧ m.keyForked (S.env.detailOf e)))
    (hr : ¬(S.env.releaseP e ∧ S.env.detailOf e = S.env.detailOf h))
    (hout : m₁.tq.out = m.tq.out) (hkeys : m₁.keys = m.keys)
    (hend : Follows S T h (l.see S h e) (t ++ [e]) es m₁ m') :
    Follows S T h l t (e :: es) m m' := by
  have hfa : m₁.forkActive = m.forkActive := congrArg Keys.forkActive hkeys
  have hcalm : CalmAhead S T m.forkActive h l (e :: es) ↔
      CalmAhead S T m₁.forkActive h (l.see S h e) es := by
    rw [hfa]
    refine ⟨fun hc => hc.2 ht hr, fun hc => ⟨fun hk => ?_, fun _ _ => hc⟩⟩
    exact absurd ⟨hk.1, by simpa [keyForked] using hk.2⟩ hf
  have hla : lookAhead S T h l (e :: es) = lookAhead S T h (l.see S h e) es := by
    rw [lookAhead, if_neg (not_le.mpr ht), if_neg hr]
  rw [Follows, hcalm, hla]
  rcases hend with ⟨hc, hend⟩ | ⟨hc, hnf, hend⟩
  · exact .inl ⟨hc, hend.kept hout hkeys⟩
  · exact .inr ⟨hc, hnf, hend.kept hout hkeys⟩

/-- **The look-ahead.**  The uninterrupted machine ends a suspicion as the look-ahead says where
that is calm, and forks the suspect where it is not. -/
theorem lookAhead_reaches (hE : S.env.Lawful) (T : Time) {h : E} (es : List E) :
    ∀ (m : ListMachine E Time) (l : Look Time) (t past : List E), Sound S m →
      m.tq.mid = h :: t → m.tq.inp = es → Looks S h l m → alternatesFrom S.env past es →
      isDown S.env past (S.env.detailOf h) = true →
      ∃ m', Reaches (batchStep S T) m m' ∧ Follows S T h l t es m m' := by
  induction es with
  | nil =>
    intro m l t past hm hmid hi hl _ _
    by_cases hT : l.deadline ≤ T
    · have hstep := batchStep_late (S := S) hi hl.notNormal (hl.deadline.trans_le hT)
      refine ⟨_, .single hstep, ?_⟩
      rw [← hi]
      refine follows_forkHead hm hmid fun _ => ?_
      rw [hi, lookAhead, if_pos hT]
    · refine ⟨m, .refl, .inl ⟨trivial, ?_⟩⟩
      rw [lookAhead, if_neg hT]
      refine ⟨batchStep_none hi fun _ => ?_, rfl, by rw [line, hmid, hi]⟩
      rw [hl.deadline]
      exact not_le.mp hT
  | cons e es ih =>
    intro m l t past hm hmid hi hl halt hdown
    have hs := hl.notNormal
    have hsu := hm.coherent.suspect_eq hmid
    have hstep := batchStep_cons (S := S) (T := T) hi
    by_cases hlate : l.deadline ≤ S.env.timeOf e
    · rw [verdict_late hs (hl.deadline.trans_le hlate)] at hstep
      refine ⟨_, .single hstep, ?_⟩
      rw [← hi]
      refine follows_forkHead hm hmid fun _ => ?_
      rw [hi, lookAhead, if_pos hlate]
    have ht : S.env.timeOf e < l.deadline := not_le.mp hlate
    have ht' : S.env.timeOf e < m.mDecisionTime := hl.deadline ▸ ht
    by_cases hf : S.env.pressP e = true ∧ m.keyForked (S.env.detailOf e) = true
    · -- the branch of `transition_by_key` that the look-ahead does not have
      rw [verdict_forked hs hf.1 hf.2] at hstep
      refine ⟨_, .single hstep, ?_⟩
      rw [← hi]
      refine follows_forkHead hm hmid ?_
      rw [hi]
      intro hc
      exact hc.1 ⟨hf.1, by simpa [keyForked] using hf.2⟩
    by_cases hr : S.env.releaseP e = true ∧ S.env.detailOf e = S.env.detailOf h
    · have hp := hE.not_press hr.1
      rw [verdict_release hs ht' hp hr.1 (hsu ▸ hr.2)] at hstep
      refine ⟨_, .single hstep, .inl ⟨⟨fun hk => ?_, fun _ h => absurd hr h⟩, ?_⟩⟩
      · simp [hp] at hk
      · rw [lookAhead, if_neg hlate, if_pos hr]
        have hready := confirmHead_ready hm hmid
        rwa [hi] at hready
    · -- kept: the suspect is still down, so the event is no press of it
      have hpr : S.env.pressP e → S.env.detailOf e ≠ m.suspect := by
        intro hp
        rw [hsu]
        exact halt.1.press_other hdown hp
      have hrel : S.env.releaseP e → S.env.detailOf e ≠ m.suspect := by
        intro hr' hk
        exact hr ⟨hr', hk.trans hsu⟩
      obtain ⟨hq, hkeys⟩ := enact_keeps hs hi ht' hf hrel hpr
      have hm₁ := hm.enact (e := e)
      generalize m.enact S e (m.verdict S e) = m₁ at hstep hq hkeys hm₁
      have hmid₁ : m₁.tq.mid = h :: (t ++ [e]) := by
        rw [hq, hmid]
        rfl
      have hd : m₁.decision = Decision.scan S m.decision e := by
        rw [((coherent_cons hmid₁).mp hm₁.coherent).2, ((coherent_cons hmid).mp hm.coherent).2,
          Decision.rescan_snoc]
      obtain ⟨m', hreach, hend⟩ := ih m₁ _ (t ++ [e]) (past ++ [e]) hm₁ hmid₁ (by rw [hq])
        (hl.scan hE hsu (fun hp => hsu ▸ hpr hp) hd) halt.2 (isDown_kept hdown hr)
      exact ⟨m', .head hstep hreach, hend.kept ht hf hr (by rw [hq]) hkeys⟩

end Machine

end ForkNS
