import ForkPlugin.Machine.Flow
import ForkPlugin.Machine.Sends
import ForkPlugin.Runs.Safe

/-!
# When a call returns

Every iteration of the loop decides an event, or keeps one for later, but for one exit: a repeated
press of the suspect that is not configured to repeat is left where it is, and the loop reads it
again.

* `RepeatsSuspect`      the next iteration takes that exit;
* `work`                what a running call has still to do;
* `tick_work`           every other step lowers it;
* `call_returns_iff`    a call returns exactly when no iteration takes that exit, and time does not
                        go backwards under a `std::mutex`;
* `repeat_hangs`        a call that never returns.
-/

namespace ForkNS

open Runs Machine StateTransition

variable {E Time : Type}

/-! ## what is left to do -/

def work (m : ListMachine E Time) : Control E Time → ℕ × ℕ × ℕ
  | .idle => (0, 0, 0)
  | .nextDecisionTime => (1, 0, 0)
  | .relock => (1, 0, 0)
  | .pushTime _ _ => (2, 0, 0)
  | .flushEnd _ => (3, 0, 0)
  | .flushLoop _ => (4, m.tq.out.length, 0)
  | .relayEvent _ _ => (4, m.tq.out.length, 1)
  | .automatonLoop _ => (5, m.line.length, m.tq.inp.length)
  | .runAutomaton _ => (6, 0, 0)

abbrev WorkLt : ℕ × ℕ × ℕ → ℕ × ℕ × ℕ → Prop := Prod.Lex (· < ·) (Prod.Lex (· < ·) (· < ·))

theorem workLt_wf : WellFounded WorkLt :=
  WellFounded.prod_lex Nat.lt_wfRel.wf (WellFounded.prod_lex Nat.lt_wfRel.wf Nat.lt_wfRel.wf)

theorem work_afterAutomaton (m : ListMachine E Time) (f : Bool) :
    (work m (afterAutomaton f)).1 ≤ 1 := by
  cases f
  · exact le_refl 1
  · exact Nat.zero_le 1

section
variable [LinearOrder Time] [Add Time] [Zero Time] [NatCast Time] {S : Setup E Time}

/-- the next event is a repeated press of the suspect, not configured to repeat, before the
deadline -/
def RepeatsSuspect {Q : Type} [TriqueueOps Q E] (S : Setup E Time) (m : Machine Q Time) : Prop :=
  m.state = .suspect ∧ TriqueueOps.thirdEmpty m.tq = false ∧
    ∃ e, TriqueueOps.peekThird m.tq = some e ∧ S.env.detailOf e = m.suspect ∧
      S.env.pressP e ∧ S.env.releaseP e = false ∧ S.env.timeOf e < m.mDecisionTime ∧
      S.config.forkRepeatable m.suspect = false

section
variable {Q : Type} [TriqueueOps Q E] {m : Machine Q Time}

omit [Zero Time] [NatCast Time] in
/-- the verdict of that exit -/
theorem verdict_of_repeats (hkf : m.keyForked m.suspect = false) (h : RepeatsSuspect S m) :
    TriqueueOps.thirdEmpty m.tq = false ∧
      ∃ e, TriqueueOps.peekThird m.tq = some e ∧ m.verdict S e = .discard := by
  obtain ⟨hs, hi, e, hpeek, hk, hp, hr, ht, hc⟩ := h
  refine ⟨hi, e, hpeek, ?_⟩
  simp [verdict, suspectVerdict, hkf, hs, hp, hr, hk, hc, not_le.mpr ht]

omit [Zero Time] [NatCast Time] in
theorem repeats_of_verdict (hi : TriqueueOps.thirdEmpty m.tq = false) {e : E}
    (hpeek : TriqueueOps.peekThird m.tq = some e) (hv : m.verdict S e = .discard) :
    RepeatsSuspect S m := by
  have hg := guard_verdict S m e
  rw [hv] at hg
  obtain ⟨hs, hp, hr, hk, ht, -, hc⟩ := hg
  exact ⟨hs, hi, e, hpeek, hk, hp, hr, ht, hk ▸ hc⟩

end

omit [Add Time] [Zero Time] [NatCast Time] in
theorem repeatsSuspect_iff {m : ListMachine E Time} : RepeatsSuspect S m ↔
    m.state = .suspect ∧ ∃ e rest, m.tq.inp = e :: rest ∧ S.env.detailOf e = m.suspect ∧
      S.env.pressP e ∧ S.env.releaseP e = false ∧ S.env.timeOf e < m.mDecisionTime ∧
      S.config.forkRepeatable m.suspect = false := by
  have hthird : TriqueueOps.thirdEmpty m.tq = m.tq.inp.isEmpty := rfl
  have hpeek : TriqueueOps.peekThird m.tq = m.tq.inp.head? := rfl
  rw [RepeatsSuspect, hthird, hpeek]
  cases m.tq.inp with
  | nil => simp
  | cons e rest => simp

/-- the suspect is not forked while it is undecided -/
theorem keyForked_suspect {m : ListMachine E Time} (hm : Sound S m) (hs : m.state ≠ .normal) :
    m.keyForked m.suspect = false := by
  obtain ⟨h, t, -, -, -, ha, hsu⟩ := hm.head hs
  rw [hsu]
  exact keyForked_false.mpr (.inr ha)

theorem discard_iff {m : ListMachine E Time} (hm : Sound S m) {e : E} {rest : List E}
    (hi : m.tq.inp = e :: rest) : m.verdict S e = .discard ↔ RepeatsSuspect S m := by
  have hpeek : TriqueueOps.peekThird m.tq = some e := congrArg List.head? hi
  have hthird : TriqueueOps.thirdEmpty m.tq = false := by
    show m.tq.inp.isEmpty = false
    rw [hi]
    rfl
  constructor
  · exact repeats_of_verdict hthird hpeek
  · intro hrep
    have hn : m.state ≠ .normal := by rw [hrep.1]; decide
    obtain ⟨-, e', hpeek', hv⟩ := verdict_of_repeats (keyForked_suspect hm hn) hrep
    rw [hpeek] at hpeek'
    cases hpeek'
    exact hv

/-- Every step of a call lowers the work, but for the exit that leaves the event. -/
theorem tick_work {m : ListMachine E Time} (hm : Sound S m) {c : Control E Time}
    {x : Effect (ThreeLists E) E Time} (h : Tick S m false c x)
    (hd : ∀ f, c = .automatonLoop f → ¬RepeatsSuspect S m) :
    WorkLt (work x.machine x.control) (work m c) := by
  cases h with
  | runAutomaton _ f => exact .left _ _ (by decide)
  | body f =>
    have hfork : m.state ≠ .normal → WorkLt (work (m.forkHead S) (.automatonLoop f))
        (work m (.automatonLoop f)) := fun hs => by
      obtain ⟨e, r, hl, -, -⟩ := forkHead_sends hm hs
      refine .right _ (.left _ _ ?_)
      rw [hl]
      exact Nat.lt_succ_self _
    rcases automatonBody_cases hm f with ⟨e, rest, hi, hb⟩ | ⟨-, hs, -, hb⟩ | ⟨-, -, hb⟩
    · have hv : m.verdict S e ≠ .discard := fun hv => hd f rfl ((discard_iff hm hi).mp hv)
      rw [hb]
      rcases enact_sends hm hi with ⟨⟨hl, -, -⟩, hrest⟩ | ⟨hdis, -⟩ | ⟨x, r, hl, -, -⟩
      · -- kept: the line stays, the input part is shorter
        have hl' : (m.enact S e (m.verdict S e)).line = m.line := hl.trans (List.append_nil _)
        refine .right _ ?_
        rw [hl', hrest, hi]
        exact .right _ (Nat.lt_succ_self _)
      · exact absurd hdis hv
      · refine .right _ (.left _ _ ?_)
        rw [hl]
        exact Nat.lt_succ_self _
    · rw [hb]
      exact hfork hs
    · rw [hb]
      exact .left _ _ (show 4 < 5 by decide)
  | pop f e out ho =>
    refine .right _ (.left _ _ ?_)
    rw [ho]
    exact Nat.lt_succ_self _
  | popNone f => exact .left _ _ (by decide)
  | relay _ f e => exact .right _ (.right _ Nat.zero_lt_one)
  | endTime f => exact .left _ _ (by decide)
  | endNone f => exact .left _ _ (lt_of_le_of_lt (work_afterAutomaton _ f) (by decide))
  | pushTime _ f => exact .left _ _ (lt_of_le_of_lt (work_afterAutomaton _ f) (by decide))
  | nextDecisionTime => exact .left _ _ (by decide)
  | relock => exact .left _ _ (by decide)

/-! ## whole calls -/

theorem tick_none {m : ListMachine E Time} {c : Control E Time} (h : tick S m false c = none) :
    c = .idle ∨ c = .relock ∧ S.stdLibrary = true := by
  cases c with
  | idle => exact .inl rfl
  | relock =>
    simp only [tick] at h
    split_ifs at h with hl
    exact .inr ⟨rfl, hl⟩
  | flushLoop f =>
    rcases ho : m.tq.out with - | ⟨e, out⟩
    · simp [tick, popEventIfPresent_nil ho] at h
    · simp [tick, popEventIfPresent_eq ho] at h
  | _ => cases h

theorem tick_relock {Q : Type} [TriqueueOps Q E] {m : Machine Q Time} {frozen : Bool}
    {c : Control E Time} {x : Effect Q E Time} (h : tick S m frozen c = some x) :
    x.control ≠ .relock := by
  have hafter : ∀ f, (afterAutomaton f : Control E Time) ≠ .relock := by
    intro f hf
    cases f <;> cases hf
  cases tick_flow h with
  | endNone f => exact hafter f
  | endFrozen f => exact hafter f
  | pushTime _ f => exact hafter f
  | _ => exact fun h => by cases h

/-- the running call takes the exit that leaves the event, again and again -/
def Stuck {Q : Type} [TriqueueOps Q E] (S : Setup E Time) (s : Sys Q E Time) : Prop :=
  (∃ f, s.control = .automatonLoop f) ∧ RepeatsSuspect S s.machine

/-- A call that is never stuck comes to its end. -/
theorem exists_eval_of_not_stuck {s : Sys (ThreeLists E) E Time} (hs : Sound S s.machine)
    (hno : ∀ t, Reaches (Sys.unfrozen S) s t → ¬Stuck S t) :
    ∃ b, b ∈ eval (Sys.unfrozen S) s := by
  refine exists_eval workLt_wf (fun t => work t.machine t.control)
    (I := fun t => Sound S t.machine ∧ Reaches (Sys.unfrozen S) s t) ?_ s ⟨hs, .refl⟩
  rintro t t' ⟨ht, hreach⟩ hstep
  refine ⟨⟨Sys.unfrozen_sound ht hstep, hreach.tail hstep⟩, ?_⟩
  obtain ⟨x, hx, rfl⟩ := Sys.unfrozen_cases hstep
  exact tick_work ht hx fun f hc hrep => hno t hreach ⟨⟨f, hc⟩, hrep⟩

/-- A stuck call does nothing while the output is not frozen. -/
theorem Stuck.waits {Q : Type} [TriqueueOps Q E] {s : Sys Q E Time} (h : Stuck S s)
    (hkf : s.machine.keyForked s.machine.suspect = false) :
    ∃ s', s.step S (.tick false) = some s' ∧ s'.machine = s.machine ∧ s'.control = s.control := by
  obtain ⟨⟨f, hc⟩, hrep⟩ := h
  obtain ⟨hi, e, hpeek, hv⟩ := verdict_of_repeats hkf hrep
  have hbody : s.machine.automatonBody S f = (s.machine, true) := by
    rw [automatonBody_event hi hpeek, hv]
    rfl
  refine ⟨s.apply { machine := s.machine, control := .automatonLoop f,
                    seen := [.outputFrozen false] }, ?_, rfl, hc.symm⟩
  simp only [Sys.step, hc, tick, Bool.false_eq_true, if_false, hbody, if_true, Option.map_some]

/-- so it stays stuck -/
theorem Stuck.step {s : Sys (ThreeLists E) E Time} (h : Sound S s.machine ∧ Stuck S s) :
    ∃ s', s.unfrozen S = some s' ∧ Sound S s'.machine ∧ Stuck S s' := by
  obtain ⟨hs, hstuck⟩ := h
  have hn : s.machine.state ≠ .normal := by rw [hstuck.2.1]; decide
  obtain ⟨s', hstep, hm, hc⟩ := hstuck.waits (keyForked_suspect hs hn)
  refine ⟨s', hstep, hm ▸ hs, ?_⟩
  rw [Stuck, hm, hc]
  exact hstuck

theorem stuck_diverges {s : Sys (ThreeLists E) E Time} (hs : Sound S s.machine)
    (h : Stuck S s) (b : Sys (ThreeLists E) E Time) : b ∉ eval (Sys.unfrozen S) s :=
  eval_diverges (I := fun u => Sound S u.machine ∧ Stuck S u) (fun _ => Stuck.step) ⟨hs, h⟩ b

/-- A call that is never stuck returns, unless it is to lock again what it has locked. -/
theorem returns_of_not_stuck {s : Sys (ThreeLists E) E Time} (hs : Sound S s.machine)
    (hlock : s.control = .relock → S.stdLibrary = false)
    (hno : ∀ t, Reaches (Sys.unfrozen S) s t → ¬Stuck S t) :
    ∃ b ∈ eval (Sys.unfrozen S) s, b.control = .idle := by
  obtain ⟨b, hb⟩ := exists_eval_of_not_stuck hs hno
  refine ⟨b, hb, ?_⟩
  obtain ⟨hreach, hnone⟩ := mem_eval.mp hb
  have htick : tick S b.machine false b.control = none := by
    simpa [Sys.unfrozen, Sys.step] using hnone
  rcases tick_none htick with hidle | ⟨hrelock, hstd⟩
  · exact hidle
  · exfalso
    rcases Relation.ReflTransGen.cases_tail hreach with rfl | ⟨t, -, ht⟩
    · simp [hlock hrelock] at hstd
    · obtain ⟨x, hx, rfl⟩ := Sys.step_tick ht
      exact tick_relock hx hrelock

omit [Add Time] [NatCast Time] in
theorem enter_relock {Q : Type} [TriqueueOps Q E] {m : Machine Q Time} {c : Call E Time} :
    (enter S m c).control = .relock ↔ ∃ now, c = .acceptTime now ∧ now < m.mCurrentTime := by
  cases c with
  | acceptEvent e =>
    simp only [enter, acceptEvent]
    split_ifs <;> simp
  | acceptTime now =>
    simp only [enter, acceptTime]
    split_ifs with h
    · simpa using h
    · simpa using h
  | acceptConfirmation => simp [enter]

/-- over three lists -/
theorem lists_return_iff {acts : List (Act E Time)} {s s₁ : Sys (ThreeLists E) E Time}
    (h : runs (Sys.step S) (Sys.create .nil) acts = some s) {c : Call E Time}
    (hcall : s.step S (.call c) = some s₁) :
    (∃ b ∈ eval (Sys.unfrozen S) s₁, b.control = .idle) ↔
      (∀ t, Reaches (Sys.unfrozen S) s₁ t → ¬Stuck S t) ∧
      (s₁.control = .relock → S.stdLibrary = false) := by
  have hs₁ : Sound S s₁.machine := runs_sound (runs_snoc_some.mpr ⟨s, h, hcall⟩)
  constructor
  · rintro ⟨b, hb, hidle⟩
    refine ⟨fun t hreach hstuck => ?_, fun hrelock => ?_⟩
    · have ht : Sound S t.machine :=
        reaches_inv (I := fun u => Sound S u.machine) (fun u v => Sys.unfrozen_sound) hreach hs₁
      rw [reaches_eval hreach] at hb
      exact stuck_diverges ht hstuck b hb
    · by_contra hstd
      rw [Bool.not_eq_false] at hstd
      have hnone : s₁.unfrozen S = none := by
        simp [Sys.unfrozen, Sys.step, hrelock, tick, hstd]
      have hbs := Part.mem_unique hb (eval_halted hnone)
      rw [hbs, hrelock] at hidle
      cases hidle
  · rintro ⟨hno, hlock⟩
    exact returns_of_not_stuck hs₁ hlock hno

/-! ## over the ring -/

omit [Add Time] [Zero Time] [NatCast Time] in
theorem repeats_alike {c : ℕ} {m : Machine (Triqueue E) Time} {l : ListMachine E Time}
    (h : Stands c m l) : RepeatsSuspect S m ↔ RepeatsSuspect S l := by
  have hthird : TriqueueOps.thirdEmpty m.tq = TriqueueOps.thirdEmpty l.tq :=
    Triqueue.thirdEmpty_eq h.rep
  by_cases hinp : l.tq.inp = []
  · have hl : TriqueueOps.thirdEmpty l.tq = true := List.isEmpty_iff.mpr hinp
    simp [RepeatsSuspect, hthird, hl]
  · have hpeek : TriqueueOps.peekThird m.tq = TriqueueOps.peekThird l.tq :=
      Triqueue.peekThird_eq h.rep hinp
    rw [RepeatsSuspect, RepeatsSuspect, hthird, hpeek]
    cases h
    exact Iff.rfl

omit [Add Time] [Zero Time] [NatCast Time] in
theorem stuck_alike {c : ℕ} {s : Sys (Triqueue E) E Time} {t : Sys (ThreeLists E) E Time}
    (h : Alike c s t) : Stuck S s ↔ Stuck S t := by
  rw [Stuck, Stuck, h.control, repeats_alike h.stands]

theorem unfrozen_respects (c : ℕ) : Respects (Sys.unfrozen S) (Sys.unfrozen S)
    (Alike c : Sys (Triqueue E) E Time → Sys (ThreeLists E) E Time → Prop) :=
  respects_of_rel fun _ _ => unfrozen_alike

/-- a stuck call never returns -/
theorem ring_stuck_diverges {c : ℕ} (hc : 2 ≤ c) {acts : List (Act E Time)}
    (hw : WithinCapacity S c acts) {s : Sys (Triqueue E) E Time}
    (h : runs (Sys.step S) (Sys.create (Triqueue.create c)) acts = some s) (hs : Stuck S s)
    (b : Sys (Triqueue E) E Time) : b ∉ eval (Sys.unfrozen S) s := by
  obtain ⟨t, ht, halike⟩ := ring_run hc hw h
  intro hb
  obtain ⟨d, -, hd⟩ := tr_eval (unfrozen_respects c) halike hb
  exact stuck_diverges (runs_sound ht) ((stuck_alike halike).mp hs) d hd

/-- **When a call returns.**  In every reachable state every call returns, the output not frozen,
if and only if no iteration of its loop meets a press of the suspect that is before the deadline
and not configured to repeat, and it is not `accept_time` with an earlier time under a
`std::mutex`. -/
theorem call_returns_iff {c : ℕ} (hc : 2 ≤ c) {acts : List (Act E Time)}
    {s s₁ : Sys (Triqueue E) E Time}
    (h : runs (Sys.step S) (Sys.create (Triqueue.create c)) acts = some s) {a : Call E Time}
    (hw : WithinCapacity S c (acts ++ [.call a])) (hcall : s.step S (.call a) = some s₁) :
    (∃ b ∈ eval (Sys.unfrozen S) s₁, b.control = .idle) ↔
      (∀ t, Reaches (Sys.unfrozen S) s₁ t → ¬Stuck S t) ∧
      ∀ now, a = .acceptTime now → now < s.machine.mCurrentTime → S.stdLibrary = false := by
  obtain ⟨t₁, ht₁, halike⟩ := ring_run hc hw (runs_snoc_some.mpr ⟨s, h, hcall⟩)
  obtain ⟨t, ht, htcall⟩ := runs_snoc_some.mp ht₁
  have hrel := unfrozen_respects (S := S) (E := E) c
  have hrel' := respects_of_rel_swap (R := Alike c)
    fun u v => unfrozen_alike (S := S) (s := u) (t := v)
  have hreturn : (∃ b ∈ eval (Sys.unfrozen S) s₁, b.control = .idle) ↔
      ∃ b ∈ eval (Sys.unfrozen S) t₁, b.control = .idle := by
    constructor
    · rintro ⟨b, hb, hidle⟩
      obtain ⟨d, hbd, hd⟩ := tr_eval hrel halike hb
      exact ⟨d, hd, hbd.control ▸ hidle⟩
    · rintro ⟨d, hd, hidle⟩
      obtain ⟨b, hbd, hb⟩ := tr_eval hrel' halike hd
      exact ⟨b, hb, hbd.control.trans hidle⟩
  have hstuck : (∀ u, Reaches (Sys.unfrozen S) s₁ u → ¬Stuck S u) ↔
      ∀ u, Reaches (Sys.unfrozen S) t₁ u → ¬Stuck S u := by
    constructor
    · intro hno v hv hs
      obtain ⟨u, huv, hu⟩ := tr_reaches hrel' halike hv
      exact hno u hu ((stuck_alike huv).mpr hs)
    · intro hno u hu hs
      obtain ⟨v, huv, hv⟩ := tr_reaches hrel halike hu
      exact hno v hv ((stuck_alike huv).mp hs)
  have hctl : s₁.control = (enter S s.machine a).control :=
    congrArg Sys.control (Sys.step_call hcall).2
  rw [hreturn, hstuck, lists_return_iff ht htcall, ← halike.control, hctl, enter_relock]
  simp only [forall_exists_index, and_imp]

/-! ## streams that alternate -/

/-- where keys alternate no suspect is pressed again: it would have been released, and decided -/
theorem not_repeats_of_alternates {acts : List (Act E Time)} {s : Sys (ThreeLists E) E Time}
    (h : runs (Sys.step S) (Sys.create .nil) acts = some s) (halt : Alternates S.env s.pushed) :
    ¬RepeatsSuspect S s.machine := by
  rw [repeatsSuspect_iff]
  rintro ⟨hs, e, rest, hi, hk, hp, -⟩
  have hm := runs_sound h
  obtain ⟨sent, hsent⟩ := Sys.pushed_line h
  obtain ⟨x, t, hmid, hpx, -, -, hsu⟩ := hm.head (by rw [hs]; decide)
  have halt' : Alternates S.env ((sent ++ [x] ++ t) ++ e :: rest) := by
    rw [hsent, line, hmid, hi] at halt
    simpa using halt
  have hup := (alternates_split halt').2.1 hp
  rw [hk, hsu] at hup
  obtain ⟨r, hr, hrel, hrk⟩ := exists_release (isDown_press hpx) hup
  exact hm.not_released hmid r hr hrel hrk

/-- **On a stream that alternates every call returns**, when time does not go backwards. -/
theorem returns_of_alternates {acts : List (Act E Time)} {s s₁ : Sys (ThreeLists E) E Time}
    (h : runs (Sys.step S) (Sys.create .nil) acts = some s) {c : Call E Time}
    (hcall : s.step S (.call c) = some s₁) (hlock : s₁.control ≠ .relock)
    (halt : Alternates S.env s₁.pushed) :
    ∃ n s', runs (Sys.step S) s₁ (List.replicate n (.tick false)) = some s' ∧
      s'.control = .idle ∧ s'.pushed = s₁.pushed := by
  have h₁ := runs_snoc_some.mpr ⟨s, h, hcall⟩
  have hpushed : ∀ t, Reaches (Sys.unfrozen S) s₁ t → t.pushed = s₁.pushed := fun t hreach =>
    reaches_inv (I := fun u => u.pushed = s₁.pushed)
      (fun u v hu huv => (Sys.unfrozen_pushed huv).trans hu) hreach rfl
  have hno : ∀ t, Reaches (Sys.unfrozen S) s₁ t → ¬Stuck S t := by
    rintro t hreach ⟨-, hrep⟩
    obtain ⟨n, hn⟩ := exists_runs_of_reaches hreach
    have ht := runs_append_some.mpr ⟨s₁, h₁, hn⟩
    exact not_repeats_of_alternates ht (hpushed t hreach ▸ halt) hrep
  obtain ⟨b, hb, hidle⟩ := returns_of_not_stuck (runs_sound h₁) (fun hr => absurd hr hlock) hno
  have hreach := (mem_eval.mp hb).1
  obtain ⟨n, hn⟩ := exists_runs_of_reaches hreach
  exact ⟨n, b, hn, hidle, hpushed b hreach⟩

end

/-- key 3 is suspected -/
def suspecting : List (Act TestEvent Nat) := during (.acceptEvent (down 3 100)) 7

/-- and then released -/
theorem call_returns_iff_up : ∃ s s₁,
    runs (Sys.step testSetup) (Sys.create (Triqueue.create 100)) suspecting = some s ∧
    s.step testSetup (.call (.acceptEvent (up 3 150))) = some s₁ ∧
    ((∃ b ∈ eval (Sys.unfrozen testSetup) s₁, b.control = .idle) ↔
      (∀ t, Reaches (Sys.unfrozen testSetup) s₁ t → ¬Stuck testSetup t) ∧
      ∀ now, Call.acceptEvent (up 3 150) = .acceptTime now → now < s.machine.mCurrentTime →
        testSetup.stdLibrary = false) := by
  have hs := Option.eq_some_of_isSome
    (o := runs (Sys.step testSetup) (Sys.create (Triqueue.create 100)) suspecting) (by decide)
  exact ⟨_, _, hs, rfl, call_returns_iff (show 2 ≤ 100 by decide) hs (by decide) rfl⟩

/-- Key 3 repeats while it is suspected: the call never returns. -/
theorem repeat_hangs : ∃ s s₁,
    runs (Sys.step testSetup) (Sys.create (Triqueue.create 100)) suspecting = some s ∧
    WithinCapacity testSetup 100 (suspecting ++ [.call (.acceptEvent (down 3 150))]) ∧
    s.step testSetup (.call (.acceptEvent (down 3 150))) = some s₁ ∧
    ∀ b, b ∉ eval (Sys.unfrozen testSetup) s₁ := by
  have hs := Option.eq_some_of_isSome
    (o := runs (Sys.step testSetup) (Sys.create (Triqueue.create 100)) suspecting) (by decide)
  have hs₁ := runs_snoc_some.mpr ⟨_, hs, show Sys.step testSetup _
    (.call (.acceptEvent (down 3 150))) = some _ from rfl⟩
  have ht := runs_snoc_some.mpr ⟨_, hs₁, show Sys.step testSetup _ (.tick false) = some _ from rfl⟩
  refine ⟨_, _, hs, by decide, rfl, ?_⟩
  rw [eval_step (show Sys.unfrozen testSetup _ = some _ from rfl)]
  refine ring_stuck_diverges (show 2 ≤ 100 by decide) (by decide) ht ⟨⟨false, rfl⟩, ?_⟩
  exact ⟨by decide, by decide, down 3 150, by decide, by decide, by decide, by decide, by decide,
    by decide⟩

end ForkNS
