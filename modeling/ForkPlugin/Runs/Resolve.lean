import ForkPlugin.Machine.Ahead
import ForkPlugin.Machine.TestEvents
import ForkPlugin.Runs.Delay

/-!
# The online machine computes the offline decision

The machine sees one event at a time: it queues, decides, and replays what it had queued.  The
resolver has all events before it.  Both come to the same, except that a press of a forked key
forks whatever is suspected when the machine reads it.

* `Chosen`              what the machine makes of one choice of the resolver;
* `Strays`              where it has sent a fork that the resolver has not;
* `choose_reaches`      one choice: a release, a quick press, a suspicion, or anything else;
* `resolve_reaches`     all choices, one after the other;
* `online_is_offline`   so for every run that ends with an unfrozen `accept_time(T)`;
* `online_strays`       a stream on which it is not so.
-/

namespace ForkNS

open Runs Machine StateTransition

variable {E Time : Type} [LinearOrder Time] [Add Time] [Zero Time] [NatCast Time]
  {S : Setup E Time}

namespace Machine

/-- what the machine makes of the choice about `e`, before `es` -/
def Chosen (S : Setup E Time) (T : Time) (out es : List E) (ks : Keys Time) (e : E)
    (m' : ListMachine E Time) : Option (E × Keys Time) → Prop
  | some (r, ks') => Ready S m' (out ++ [r]) es ks' ∧ Sends S ks.forkActive e r ks'.forkActive
  | none => batchStep S T m' = none ∧ m'.tq.out = out ∧ m'.line = e :: es

/-- the machine has sent after `out` the fork of some press; in `decided` it is not forked, or
missing -/
def Strays (S : Setup E Time) (out decided : List E) (m' : ListMachine E Time) : Prop :=
  Sound S m' ∧ ∃ sent h, S.config.forkKeycode (S.env.detailOf h) ≠ noKey ∧
    m'.tq.out = out ++ sent ++ [S.env.rewriteEvent h (S.config.forkKeycode (S.env.detailOf h))] ∧
    (decided = sent ∨ sent ++ [h] <+: decided)

theorem Strays.cons {out decided : List E} {r : E} {m' : ListMachine E Time}
    (hs : Strays S (out ++ [r]) decided m') : Strays S out (r :: decided) m' := by
  obtain ⟨hm', sent, h, hc, hout, hd⟩ := hs
  refine ⟨hm', r :: sent, h, hc, ?_, ?_⟩
  · rw [hout]
    simp
  · exact hd.imp (congrArg _) (List.prefix_cons_inj r).mpr

section
variable {m : ListMachine E Time} {out es : List E} {e : E} {ks : Keys Time} {T : Time}

theorem passed_chosen (hm : Ready S m out (e :: es) ks) {r : E} {ks' : Keys Time}
    {u : ListMachine E Time} (hq : u.tq = m.tq) (hkeys : u.keys = ks')
    (henact : m.enact S e (m.verdict S e) = u.passAs r)
    (hs : Sends S ks.forkActive e r ks'.forkActive) :
    ∃ m', Reaches (batchStep S T) m m' ∧ Chosen S T out es ks e m' (some (r, ks')) := by
  refine ⟨_, .single (batchStep_cons hm.inp), ⟨hm.sound.enact, ?_, ?_⟩, hs⟩
  · rw [henact, passAs, hq, hm.tq]
    rfl
  · rw [henact]
    exact hkeys

omit [LinearOrder Time] [Add Time] [Zero Time] [NatCast Time] in
theorem forkActive_of_fits {past : List E}
    (hdown : ∀ k, ks.forkActive k ≠ noKey → isDown S.env past k = true)
    (hfit : FitsAfter S.env past e) (hp : S.env.pressP e) :
    ks.forkActive (S.env.detailOf e) = noKey := by
  by_contra hne
  have hd := hdown (S.env.detailOf e) hne
  rw [hfit.1 hp] at hd
  cases hd

theorem release_chosen (hE : S.env.Lawful) (hm : Ready S m out (e :: es) ks)
    (hr : S.env.releaseP e = true) :
    ∃ m', Reaches (batchStep S T) m m' ∧ Chosen S T out es ks e m' (some (ks.release S e)) := by
  have hn := hm.normal
  have hp := hE.not_press hr
  have hfa := hm.forkActive
  by_cases hf : ks.forkActive (S.env.detailOf e) = noKey
  · have hv : m.verdict S e = .pass := by
      simp [verdict, normalVerdict, hn, hp, hfa, hf]
    rw [Keys.release, if_neg (not_not.mpr hf)]
    refine passed_chosen hm (u := m.recordRelease S e) ?_ ?_ (by rw [hv]; rfl)
      (.plain (fun h => by simp [hp] at h) fun _ => .inr hf)
    · simp [recordRelease, hr, recordLastReleaseEvent]
    · simp [recordRelease, hr, recordLastReleaseEvent, keys, ← hm.keys]
  · have hv : m.verdict S e = .unfork := by
      simp [verdict, normalVerdict, hn, hp, hr, hfa, hf]
    rw [Keys.release, if_pos hf]
    refine passed_chosen hm
      (u := (m.recordForkRelease S e).setForkActive (S.env.detailOf e) noKey) ?_ ?_
      (by rw [hv, ← hfa]; rfl) (.unfork hr hf)
    · unfold recordForkRelease
      split_ifs <;> rfl
    · unfold recordForkRelease
      split_ifs <;> simp [recordLastReleaseEvent, keys, setForkActive, ← hm.keys]

theorem other_chosen (hm : Ready S m out (e :: es) ks) {past : List E}
    (hdown : ∀ k, ks.forkActive k ≠ noKey → isDown S.env past k = true)
    (hfit : FitsAfter S.env past e) (hr : S.env.releaseP e = false) (hmay : ¬Keys.mayFork S e) :
    ∃ m', Reaches (batchStep S T) m m' ∧ Chosen S T out es ks e m' (some (e, ks)) := by
  have hn := hm.normal
  have hfa : S.env.pressP e → ks.forkActive (S.env.detailOf e) = noKey :=
    forkActive_of_fits hdown hfit
  have hfk := hm.forkActive
  have hv : m.verdict S e = .pass := by
    simp only [Keys.mayFork, not_and, Bool.not_eq_false] at hmay
    by_cases hp : S.env.pressP e = true
    · by_cases hc : S.config.forkKeycode (S.env.detailOf e) = noKey
      · simp [verdict, normalVerdict, keyForked, forkableP, hn, hr, hfk, hfa hp, hc]
      · simp [verdict, normalVerdict, keyForked, hn, hr, hfk, hfa hp, hmay hp hc]
    · simp [verdict, normalVerdict, hn, hp, hr]
  refine passed_chosen hm (u := m.recordRelease S e) ?_ ?_ (by rw [hv]; rfl)
    (.plain (fun hp => .inr (hfa hp)) fun h => by simp [hr] at h)
  · simp [recordRelease, hr]
  · simpa [recordRelease, hr] using hm.keys

section
variable {past : List E} (hm : Ready S m out (e :: es) ks)
  (hdown : ∀ k, ks.forkActive k ≠ noKey → isDown S.env past k = true)
  (halt : alternatesFrom S.env past (e :: es)) (hkey : S.env.detailOf e ≠ noKey)
include hm hdown halt hkey

theorem quick_chosen (hmay : Keys.mayFork S e) (hq : ks.quick S e) :
    ∃ m', Reaches (batchStep S T) m m' ∧
      Chosen S T out es ks e m' (some (e, ks.setFork (S.env.detailOf e) (S.env.detailOf e))) := by
  obtain ⟨hp, hc, hi⟩ := hmay
  have hn := hm.normal
  have hfk := hm.forkActive
  have hfa := forkActive_of_fits hdown halt.1 hp
  have hne : ¬noKey = S.env.detailOf e := fun h => hkey h.symm
  have hla := hm.lastReleased
  have hlt := hm.lastReleasedTime
  have hv : m.verdict S e = .selfFork := by
    simp [verdict, normalVerdict, keyForked, forkableP, timeDifferenceMore, hn, hp, hi, hc,
      hfk, hfa, hne, hla, hlt, hq.1, hq.2]
  refine passed_chosen hm (u := m.setForkActive (S.env.detailOf e) (S.env.detailOf e)) rfl ?_
    (by rw [hv]; rfl) (.selfFork hp)
  rw [← hm.keys]
  rfl

theorem verdict_start (hmay : Keys.mayFork S e) (hq : ¬ks.quick S e) :
    m.verdict S e = .startSuspect := by
  obtain ⟨hp, hc, hi⟩ := hmay
  have hn := hm.normal
  have hfk := hm.forkActive
  have hfa := forkActive_of_fits hdown halt.1 hp
  have hne : ¬noKey = S.env.detailOf e := fun h => hkey h.symm
  have hla := hm.lastReleased
  have hlt := hm.lastReleasedTime
  simp only [Keys.quick, not_and, not_le] at hq
  by_cases hl : ks.lastReleased = S.env.detailOf e
  · simp [verdict, normalVerdict, keyForked, forkableP, timeDifferenceMore, hn, hp, hi, hc,
      hfk, hfa, hne, hla, hlt, hl, hq hl]
  · simp [verdict, normalVerdict, keyForked, forkableP, hn, hp, hi, hc, hfk, hfa, hne, hla, hl]

theorem suspect_chosen (hE : S.env.Lawful) (hmay : Keys.mayFork S e) (hq : ¬ks.quick S e) :
    ∃ m', Reaches (batchStep S T) m m' ∧
      (CalmAhead S T ks.forkActive e (Look.start S e) es ∧
          Chosen S T out es ks e m' (choose S T ks e es) ∨
        ¬CalmAhead S T ks.forkActive e (Look.start S e) es ∧
          Strays S out (resolve S T ks (e :: es)).1 m') := by
  have hv := verdict_start hm hdown halt hkey hmay hq
  have hmay' := hmay
  obtain ⟨hp, hc, hi⟩ := hmay'
  have hr : S.env.releaseP e = false := hE.oneKind e hp
  have hfk := hm.forkActive
  have hfa := forkActive_of_fits hdown halt.1 hp
  have hstep := batchStep_cons (S := S) (T := T) hm.inp
  have hm₁ := hm.sound.enact (e := e)
  rw [hv] at hstep hm₁
  have htq : (m.enact S e .startSuspect).tq = ⟨out, [e], es⟩ := by
    show ThreeLists.mk m.tq.out (m.tq.mid ++ [e]) m.tq.inp.tail = _
    rw [hm.tq]
    rfl
  have hlooks : Looks S e (Look.start S e) (m.enact S e .startSuspect) :=
    ⟨.inl ⟨rfl, rfl⟩, rfl, rfl⟩
  obtain ⟨m', hreach, hend⟩ := lookAhead_reaches hE T es _ _ [] (past ++ [e]) hm₁
    (congrArg ThreeLists.mid htq) (congrArg ThreeLists.inp htq) hlooks halt.2 (isDown_press hp)
  refine ⟨m', .head hstep hreach, ?_⟩
  have hout₁ : (m.enact S e .startSuspect).tq.out = out := congrArg ThreeLists.out htq
  have hkeys₁ : (m.enact S e .startSuspect).keys = ks := hm.keys
  have hfk₁ : (m.enact S e .startSuspect).forkActive = ks.forkActive := hfk
  have hch : choose S T ks e es = (lookAhead S T e (Look.start S e) es).decide S ks e := by
    rw [choose, if_neg (Bool.eq_false_iff.mp hr), if_pos hmay, if_neg hq]
  rw [Follows, hfk₁] at hend
  rcases hend with ⟨hcalm, hend⟩ | ⟨hcalm, hnf, hend⟩
  · refine .inl ⟨hcalm, ?_⟩
    rw [hch]
    cases hla : lookAhead S T e (Look.start S e) es with
    | forked =>
      rw [hla, Ended, hout₁, hkeys₁] at hend
      exact ⟨hend, .fork hp (.inl hc)⟩
    | unforked =>
      rw [hla, Ended, hout₁, hkeys₁] at hend
      exact ⟨hend, .plain (fun _ => .inr hfa) fun h => by simp [hr] at h⟩
    | undecided =>
      rw [hla, Ended, hout₁] at hend
      exact hend
  · rw [Ended, hout₁] at hend
    refine .inr ⟨hcalm, hend.sound, [], e, hc, ?_, ?_⟩
    · rw [hend.tq, List.append_nil]
    · rw [resolve, hch]
      cases hla : lookAhead S T e (Look.start S e) es with
      | forked => exact absurd hla hnf
      | unforked => exact .inr ⟨_, rfl⟩
      | undecided => exact .inl rfl

/-- **One choice.**  The uninterrupted machine comes to the choice of the resolver, or strays. -/
theorem choose_reaches (hE : S.env.Lawful) :
    ∃ m', Reaches (batchStep S T) m m' ∧
      ((S.env.releaseP e = false → Keys.mayFork S e → ¬ks.quick S e →
          CalmAhead S T ks.forkActive e (Look.start S e) es) ∧
        Chosen S T out es ks e m' (choose S T ks e es) ∨
      ¬(S.env.releaseP e = false → Keys.mayFork S e → ¬ks.quick S e →
          CalmAhead S T ks.forkActive e (Look.start S e) es) ∧
        Strays S out (resolve S T ks (e :: es)).1 m') := by
  by_cases hr : S.env.releaseP e = true
  · obtain ⟨m', hreach, hch⟩ := release_chosen (T := T) hE hm hr
    refine ⟨m', hreach, .inl ⟨fun h => absurd hr (Bool.eq_false_iff.mp h), ?_⟩⟩
    rwa [choose, if_pos hr]
  by_cases hmay : Keys.mayFork S e
  · by_cases hq : ks.quick S e
    · obtain ⟨m', hreach, hch⟩ := quick_chosen (T := T) hm hdown halt hkey hmay hq
      refine ⟨m', hreach, .inl ⟨fun _ _ h => absurd hq h, ?_⟩⟩
      rwa [choose, if_neg hr, if_pos hmay, if_pos hq]
    · obtain ⟨m', hreach, hend⟩ := suspect_chosen (T := T) hm hdown halt hkey hE hmay hq
      refine ⟨m', hreach, hend.imp (.imp_left fun h _ _ _ => h) (.imp_left fun h hc => ?_)⟩
      exact h (hc (Bool.eq_false_iff.mpr hr) hmay hq)
  · obtain ⟨m', hreach, hch⟩ :=
      other_chosen (T := T) hm hdown halt.1 (Bool.eq_false_iff.mpr hr) hmay
    refine ⟨m', hreach, .inl ⟨fun _ h => absurd h hmay, ?_⟩⟩
    rwa [choose, if_neg hr, if_neg hmay]

end

end

/-- **All choices.**  The uninterrupted machine ends with the output of the resolver where that is
calm, and strays where it is not. -/
theorem resolve_reaches (hE : S.env.Lawful) (T : Time) (es : List E) :
    ∀ (m : ListMachine E Time) (out past : List E) (ks : Keys Time), Ready S m out es ks →
      (∀ k, ks.forkActive k ≠ noKey → isDown S.env past k = true) →
      alternatesFrom S.env past es → (∀ e ∈ es, S.env.detailOf e ≠ noKey) →
      ∃ m', Reaches (batchStep S T) m m' ∧
        (Calm S T ks es ∧ batchStep S T m' = none ∧
            m'.tq.out = out ++ (resolve S T ks es).1 ∧ m'.line = (resolve S T ks es).2 ∨
          ¬Calm S T ks es ∧ Strays S out (resolve S T ks es).1 m') := by
  induction es with
  | nil =>
    intro m out past ks hm _ _ _
    have hn := hm.normal
    refine ⟨m, .refl, .inl ⟨trivial, batchStep_none (by rw [hm.tq]) fun h => absurd hn h, ?_, ?_⟩⟩
    · rw [hm.tq, resolve, List.append_nil]
    · rw [line, hm.tq]
      rfl
  | cons e es ih =>
    intro m out past ks hm hdown halt hkeys
    obtain ⟨m₁, hreach, hch⟩ :=
      choose_reaches (T := T) hm hdown halt (hkeys e List.mem_cons_self) hE
    rcases hch with ⟨hcalm, hch⟩ | ⟨hcalm, hs⟩
    · cases hc : choose S T ks e es with
      | none =>
        rw [hc] at hch
        obtain ⟨hnone, hout, hline⟩ := hch
        refine ⟨m₁, hreach, .inl ⟨⟨hcalm, by rw [hc]; trivial⟩, hnone, ?_, ?_⟩⟩
        · simp [resolve, hc, hout]
        · simp [resolve, hc, hline]
      | some p =>
        obtain ⟨r, ks'⟩ := p
        rw [hc] at hch
        obtain ⟨hready, hsends⟩ := hch
        have hcalm' : Calm S T ks (e :: es) ↔ Calm S T ks' es := by
          rw [Calm, hc]
          exact and_iff_right hcalm
        obtain ⟨m', hreach', hend⟩ := ih m₁ (out ++ [r]) (past ++ [e]) ks' hready
          (hsends.down hdown) halt.2 fun x hx => hkeys x (List.mem_cons_of_mem e hx)
        refine ⟨m', hreach.trans hreach', ?_⟩
        rw [hcalm', resolve, hc]
        rcases hend with ⟨h, hnone, hout, hline⟩ | ⟨h, hs⟩
        · exact .inl ⟨h, hnone, by rw [hout]; simp, hline⟩
        · exact .inr ⟨h, Strays.cons hs⟩
    · exact ⟨m₁, hreach, .inr ⟨fun h => hcalm h.1, hs⟩⟩

/-! ## the end of a run -/

theorem batchStep_out {T : Time} {m m' : ListMachine E Time} (hm : Sound S m)
    (h : batchStep S T m = some m') : Sound S m' ∧ m.tq.out <+: m'.tq.out := by
  have hfirst : ∀ {m₁ : ListMachine E Time}, SendsFirst S m m₁ → m.tq.out <+: m₁.tq.out := by
    rintro m₁ ⟨e, r, -, hout, -⟩
    rw [hout]
    exact List.prefix_append _ _
  unfold batchStep at h
  split at h
  case h_1 e rest hi =>
    cases h
    refine ⟨hm.enact, ?_⟩
    rcases enact_sends hm hi with ⟨⟨-, hout, -⟩, -⟩ | ⟨-, heq⟩ | hs
    · rw [hout]
    · rw [heq]
    · exact hfirst hs
  case h_2 =>
    split_ifs at h with hc
    cases h
    exact ⟨hm.forkHead, hfirst (forkHead_sends hm hc.1)⟩

theorem eval_out {T : Time} {m m' : ListMachine E Time} (hm : Sound S m)
    (h : m' ∈ eval (batchStep S T) m) : m.tq.out <+: m'.tq.out := by
  have hinv := reaches_inv (I := fun u => Sound S u ∧ m.tq.out <+: u.tq.out)
    (fun a b ha hab => ?_) (mem_eval.mp h).1 ⟨hm, List.prefix_rfl⟩
  · exact hinv.2
  · obtain ⟨hb, hout⟩ := batchStep_out ha.1 hab
    exact ⟨hb, ha.2.trans hout⟩

theorem Strays.ne (hE : S.env.Lawful)
    (hself : ∀ k, S.config.forkKeycode k ≠ noKey → S.config.forkKeycode k ≠ k) {T : Time}
    {out decided : List E} {m m' : ListMachine E Time} (hs : Strays S out decided m)
    (h : m' ∈ eval (batchStep S T) m) : m'.tq.out ≠ out ++ decided := by
  obtain ⟨hm, sent, x, hx, hout, hd⟩ := hs
  intro heq
  have hpre := eval_out hm h
  rw [hout, heq, List.append_assoc, List.prefix_append_right_inj] at hpre
  rcases hd with rfl | hd
  · have hlen := hpre.length_le
    simp at hlen
  · have hsame := List.prefix_of_prefix_length_le hpre hd (by simp)
    have hcode : S.env.rewriteEvent x (S.config.forkKeycode (S.env.detailOf x)) = x := by
      simpa using hsame.eq_of_length (by simp)
    have hdetail := congrArg S.env.detailOf hcode
    rw [hE.detailOf] at hdetail
    exact hself _ hx hdetail

end Machine

theorem lists_resolve (hE : S.env.Lawful) {es : List E} {T : Time} (h0 : 0 ≤ T)
    (hpos : ∀ e ∈ es, 0 < S.env.timeOf e) (hkeys : ∀ e ∈ es, 1 ≤ S.env.detailOf e)
    (halt : Alternates S.env es) {acts : List (Act E Time)} {u : Sys (ThreeLists E) E Time}
    (hforce : .call .acceptConfirmation ∉ acts) (hoffered : offered acts = es)
    (hsort : (times S.env (calls acts) ++ [T]).Pairwise (· ≤ ·))
    (h : runs (Sys.step S) (Sys.create .nil) acts = some u)
    (hidle : u.control = .idle) (hpushed : u.pushed = es) :
    ∃ s, EndsAt S ThreeLists.nil acts T s ∧
      (Calm S T .start es → relayed s.trace = (resolve S T .start es).1 ∧
        s.machine.line = (resolve S T .start es).2) ∧
      ((∀ k, S.config.forkKeycode k ≠ noKey → S.config.forkKeycode k ≠ k) →
        relayed s.trace = (resolve S T .start es).1 → Calm S T .start es) := by
  have hfit := fits_of_sorted hforce hsort
  obtain ⟨s, hs, hsp⟩ := exists_endsAt h hidle (hpushed ▸ halt) hfit h0
  rw [hpushed] at hsp
  refine ⟨s, hs, ?_⟩
  obtain ⟨hnil, hend⟩ := batch_end hs hfit h0 (hsp ▸ no_events_at_zero hpos hoffered hsort)
  rw [hsp] at hend
  have hnew := create_sound (S := S)
  have hready : Ready S ((create .nil).feed es) [] es .start :=
    ⟨⟨hnew.coherent, hnew.headOpen, hnew.bugs⟩, rfl, rfl⟩
  obtain ⟨m', hreach, hm'⟩ := resolve_reaches hE T es _ [] [] .start hready
    (fun k hk => absurd rfl hk) halt fun e he => Nat.one_le_iff_ne_zero.mp (hkeys e he)
  have hout : (s.view.feed []).tq.out = relayed s.trace := by
    simp [feed, framed, Sys.view, hs.1, hnil, Control.inHand]
  have hline : (s.view.feed []).line = s.machine.line := by
    simp [line, feed, framed, Sys.view]
  rw [reaches_eval hreach] at hend
  rw [← hout, ← hline]
  rcases hm' with ⟨hcalm, hnone, ho, hl⟩ | ⟨hcalm, hstray⟩
  · have heq := Part.mem_unique hend (eval_halted hnone)
    rw [heq]
    exact ⟨fun _ => ⟨ho, hl⟩, fun _ _ => hcalm⟩
  · exact ⟨fun hc => absurd hc hcalm, fun hself heq => absurd heq (hstray.ne hE hself hend)⟩

/-- **The online machine computes the offline decision.**  On a stream whose keys alternate and of
which nothing is skipped, what is relayed by the end is what the resolver sends, where the
resolver is calm, and only there if no key is forked to itself. -/
theorem online_is_offline (hE : S.env.Lawful) {c : ℕ} (hc : 2 ≤ c) {es : List E} {T : Time}
    (h0 : 0 ≤ T) (hpos : ∀ e ∈ es, 0 < S.env.timeOf e) (hkeys : ∀ e ∈ es, 1 ≤ S.env.detailOf e)
    (halt : Alternates S.env es) {acts : List (Act E Time)} {u : Sys (Triqueue E) E Time}
    (hforce : .call .acceptConfirmation ∉ acts) (hoffered : offered acts = es)
    (hsort : (times S.env (calls acts) ++ [T]).Pairwise (· ≤ ·)) (hw : WithinCapacity S c acts)
    (h : runs (Sys.step S) (Sys.create (Triqueue.create c)) acts = some u)
    (hidle : u.control = .idle) (hpushed : u.pushed = es) :
    ∃ s, EndsAt S (Triqueue.create c) acts T s ∧
      (Calm S T .start es → relayed s.trace = (resolve S T .start es).1 ∧
        ∃ l, Triqueue.Rep c s.machine.tq l ∧ l.mid ++ l.inp = (resolve S T .start es).2) ∧
      ((∀ k, S.config.forkKeycode k ≠ noKey → S.config.forkKeycode k ≠ k) →
        relayed s.trace = (resolve S T .start es).1 → Calm S T .start es) := by
  obtain ⟨v, hv, halike⟩ := ring_run hc hw h
  obtain ⟨t, ht, hcalm, honly⟩ := lists_resolve hE h0 hpos hkeys halt hforce hoffered hsort hv
    (halike.control ▸ hidle) (halike.pushed ▸ hpushed)
  obtain ⟨s, hs, hst⟩ := ring_endsAt halike h hv ht
  rw [← hst.trace] at hcalm honly
  refine ⟨s, hs, fun hc => ?_, honly⟩
  obtain ⟨hrelayed, hline⟩ := hcalm hc
  exact ⟨hrelayed, t.machine.tq, hst.stands.rep, hline⟩

/-- key 1 is suspected for long, key 2 goes up and down again while key 3 is suspected -/
def pressedForked : List TestEvent :=
  [down 1 1, down 2 10, down 3 20, up 2 100, down 2 110, up 2 120, up 3 150]

theorem online_is_offline_held : ∃ u s,
    runs (Sys.step testSetup) (Sys.create (Triqueue.create 100)) heldAtOnce = some u ∧
    EndsAt testSetup (Triqueue.create 100) heldAtOnce 500 s ∧ Calm testSetup 500 .start held ∧
    relayed s.trace = (resolve testSetup 500 .start held).1 ∧
    (resolve testSetup 500 .start held).1 = [down 13 100, down 20 150, up 20 180, up 13 400] := by
  have hu := Option.eq_some_of_isSome
    (o := runs (Sys.step testSetup) (Sys.create (Triqueue.create 100)) heldAtOnce) (by decide)
  obtain ⟨s, hs, hcalm, -⟩ := online_is_offline testEnvironment_lawful (show 2 ≤ 100 by decide)
    (T := 500) (by decide) (by decide) (by decide) (by decide) (by decide)
    (show offered heldAtOnce = held by decide) (by decide) (by decide) hu (by decide) (by decide)
  exact ⟨_, s, hu, hs, by decide, (hcalm (by decide)).1, by decide⟩

/-- The second press of key 2 forks key 3, which the resolver leaves as it is. -/
theorem online_strays : ∃ s,
    EndsAt testSetup (Triqueue.create 100)
      (pressedForked.flatMap fun e => during (.acceptEvent e) 7) 2000 s ∧
    WithinCapacity testSetup 100 (pressedForked.flatMap fun e => during (.acceptEvent e) 7) ∧
    s.pushed = pressedForked ∧ Alternates testEnvironment pressedForked ∧
    pressedForked.Pairwise (fun e e' => e.time ≤ e'.time) ∧
    (∀ e ∈ pressedForked, 1 ≤ e.key ∧ e.key ≤ testSetup.maxKeycode - 1) ∧
    relayed s.trace =
      [down 11 1, down 12 10, down 13 20, up 12 100, down 2 110, up 2 120, up 13 150] ∧
    resolve testSetup 2000 .start pressedForked =
      ([down 11 1, down 12 10, down 3 20, up 12 100, down 2 110, up 2 120, up 3 150], []) := by
  have hs := Option.eq_some_of_isSome (o := runs (Sys.step testSetup)
    (Sys.create (Triqueue.create 100))
    (pressedForked.flatMap (fun e => during (.acceptEvent e) 7) ++
      .call (.acceptTime 2000) :: List.replicate 31 (.tick false))) (by decide)
  exact ⟨_, ⟨by decide, 31, hs⟩, by decide, by decide, by decide, by decide, by decide, by decide,
    by decide⟩

end ForkNS
