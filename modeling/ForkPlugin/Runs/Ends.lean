import ForkPlugin.Queue.Past
import ForkPlugin.Runs.Halt

/-!
# When a call ends

Whatever `output_frozen` answers, and however much the ring is asked to hold, an iteration of the
loop decides an event, keeps one for later or meets the repeated press of the suspect; there it
stays until the output is frozen.

* `Machine.Counted`   what holds of the machine in every run over the ring, also past its capacity;
* `Kept`, `Decided`   what an iteration does to the offsets;
* `ticksLeft`         a bound for the steps that a running call has still to do;
* `ticksLeft_lt`      every step lowers it, but for the exit that leaves the event;
* `ends_iff`          a call ends exactly when no iteration leaves the event for good.
-/

namespace ForkNS

open Runs Machine

variable {E Time : Type} {c : ℕ}

namespace Machine

/-- the offsets are in order, and the internal part is that of the suspected key, which is not
forked -/
structure Counted (c : ℕ) (m : Machine (Triqueue E) Time) : Prop where
  queue : Triqueue.Counted c m.tq
  normal_iff : m.state = .normal ↔ m.tq.middleEmpty = true
  suspect : m.state ≠ .normal → m.forkActive m.suspect = noKey

structure Kept (c : ℕ) (q : Triqueue E) (m' : Machine (Triqueue E) Time) : Prop where
  moved : Triqueue.Moved c q m'.tq
  state : m'.state ≠ .normal
  suspect : m'.forkActive m'.suspect = noKey

structure Decided (c : ℕ) (q : Triqueue E) (m' : Machine (Triqueue E) Time) : Prop where
  sent : Triqueue.Sent c q m'.tq
  state : m'.state = .normal

theorem moveToFirst_with {Q : Type} [TriqueueOps Q E] (m : Machine Q Time) :
    ∃ l, m.moveToFirst = { m with bugs := l, tq := TriqueueOps.moveToFirst m.tq } := by
  obtain ⟨l, hl⟩ := check_eq m (!TriqueueOps.middleEmpty m.tq) .moveToFirst
  exact ⟨l, by rw [moveToFirst, hl]⟩

theorem moveToSecond_with {Q : Type} [TriqueueOps Q E] (m : Machine Q Time) :
    ∃ l, m.moveToSecond = { m with bugs := l, tq := TriqueueOps.moveToSecond m.tq } := by
  obtain ⟨l, hl⟩ := check_eq m (!TriqueueOps.thirdEmpty m.tq) .moveToSecond
  exact ⟨l, by rw [moveToSecond, hl]⟩

theorem noteRelease_with {Q : Type} (S : Setup E Time) (m : Machine Q Time) (e : E) :
    ∃ k t, m.noteRelease S e = { m with lastReleased := k, lastReleasedTime := t } := by
  unfold noteRelease
  split_ifs
  · exact ⟨_, _, rfl⟩
  · exact ⟨m.lastReleased, m.lastReleasedTime, rfl⟩

theorem noteForkRelease_with {Q : Type} [Zero Time] (S : Setup E Time) (m : Machine Q Time)
    (e : E) :
    ∃ k t, m.noteForkRelease S e = { m with lastReleased := k, lastReleasedTime := t } := by
  unfold noteForkRelease
  split_ifs <;> exact ⟨_, _, rfl⟩

variable {q : Triqueue E} {m m' : Machine (Triqueue E) Time}

theorem Kept.counted (hq : Triqueue.Counted c q) (h : Kept c q m') : Counted c m' where
  queue := h.moved.counted
  normal_iff := by
    refine iff_of_false h.state ?_
    have hoi := hq.output_le
    simp only [Triqueue.middleEmpty, h.moved.endInternal, h.moved.endOutput, beq_iff_eq]
    omega
  suspect _ := h.suspect

theorem Decided.counted (h : Decided c q m') : Counted c m' where
  queue := h.sent.counted
  normal_iff := by
    refine iff_of_true h.state ?_
    rw [Triqueue.middleEmpty, h.sent.endInternal, h.sent.endOutput, beq_self_eq_true]
  suspect hn := absurd h.state hn

theorem Decided.of_writeAt {i : ℕ} {x : E} (h : Decided c (q.writeAt i x) m') : Decided c q m' :=
  ⟨⟨h.sent.counted, h.sent.size, h.sent.endOutput, h.sent.endInternal⟩, h.state⟩

/-! ## the exits of the handlers -/

section
variable (H : Triqueue.Counted c m.tq)
include H

theorem kept_moveToSecond (hi : m.tq.thirdEmpty = false) (hs : m.state ≠ .normal)
    (hsu : m.forkActive m.suspect = noKey) : Kept c m.tq m.moveToSecond := by
  obtain ⟨l, hl⟩ := moveToSecond_with m
  rw [hl]
  exact ⟨H.moveToSecond hi, hs, hsu⟩

theorem decided_pass (hm : m.tq.middleEmpty = true) (hi : m.tq.thirdEmpty = false)
    (hs : m.state = .normal) : Decided c m.tq m.moveToSecond.moveToFirst := by
  obtain ⟨l, hl⟩ := moveToSecond_with m
  obtain ⟨l', hl'⟩ := moveToFirst_with m.moveToSecond
  rw [hl', hl]
  exact ⟨H.sendThird hm hi, hs⟩

variable [Zero Time]

theorem decided_rewind (hm : m.tq.middleEmpty = false) :
    Decided c m.tq m.moveToFirst.rewindMachine := by
  obtain ⟨l, hl⟩ := moveToFirst_with m
  rw [hl]
  exact ⟨H.sendMiddle hm, rfl⟩

theorem decided_confirm (hm : m.tq.middleEmpty = false) : Decided c m.tq m.doConfirmNonForkBy := by
  obtain ⟨l, hl⟩ := check_eq m (m.state == .suspect || m.state == .verify) .assertConfirmState
  rw [doConfirmNonForkBy, hl]
  exact decided_rewind (m := { m with bugs := l }) H hm

theorem decided_activate (S : Setup E Time) (hm : m.tq.middleEmpty = false) :
    Decided c m.tq (m.activateForkRewind S) := by
  obtain ⟨e, he⟩ := H.peekMiddle hm
  have hm' : TriqueueOps.middleEmpty m.tq = false := hm
  have he' : TriqueueOps.peekMiddle m.tq = some e := he
  simp only [activateForkRewind, hm', he', Bool.false_eq_true, if_false]
  exact Decided.of_writeAt (decided_rewind (m := { m.setForkActive (S.env.detailOf e)
      (S.config.forkKeycode (S.env.detailOf e)) with
    tq := m.tq.writeAt (m.tq.buffer.indexToSubscript m.tq.endOutput) _ }) (H.writeAt _ _) hm)

end

section
variable [LinearOrder Time] [Add Time] [Zero Time] [NatCast Time] {S : Setup E Time}

/-- **One event**, whatever the state of the machine: it stays, it is kept or an event is
decided. -/
theorem Counted.respond (h : Counted c m) (hi : m.tq.thirdEmpty = false) {e : E} {v : Verdict}
    (hg : m.guard S e v) :
    v = .discard ∨ Kept c m.tq (m.respond S e v) ∨ Decided c m.tq (m.respond S e v) := by
  have H := h.queue
  have hmoved : m.moveToSecond.tq.middleEmpty = false := by
    have hmove := H.moveToSecond hi
    have hoi := H.output_le
    rw [moveToSecond_tq]
    show m.tq.moveToSecond.middleEmpty = false
    rw [Triqueue.middleEmpty, hmove.endInternal, hmove.endOutput]
    simp only [beq_eq_false_iff_ne]
    omega
  have hsecond : Triqueue.Counted c m.moveToSecond.tq := by
    rw [moveToSecond_tq]
    exact (H.moveToSecond hi).counted
  -- the event that was kept first is decided with the others
  have hthen : ∀ {m' : Machine (Triqueue E) Time}, Decided c m.moveToSecond.tq m' →
      Decided c m.tq m' := fun hd => by
    have hsent := hd.sent
    rw [moveToSecond_tq] at hsent
    exact ⟨(H.moveToSecond hi).sent hsent, hd.state⟩
  have hwaiting : m.state ≠ .normal → m.tq.middleEmpty = false := fun hn =>
    Bool.eq_false_iff.mpr fun hm => hn (h.normal_iff.mpr hm)
  cases v with
  | refork => exact .inr (.inr (hthen (decided_activate hsecond S hmoved)))
  | startSuspect =>
    obtain ⟨-, -, -, -, ha, -⟩ := hg
    exact .inr (.inl (kept_moveToSecond (m := { m with
      state := .suspect
      suspect := S.env.detailOf e
      suspectTime := S.env.timeOf e
      mDecisionTime := S.env.timeOf e + S.config.verificationIntervalOf (S.env.detailOf e) noKey })
      H hi (fun h => by cases h) ha))
  | autoRepeat => exact .inr (.inr (decided_pass H (h.normal_iff.mp hg.1) hi hg.1))
  | selfFork =>
    obtain ⟨l, hl⟩ := check_eq (m.setForkActive (S.env.detailOf e) (S.env.detailOf e))
      (TriqueueOps.middleEmpty (m.setForkActive (S.env.detailOf e) (S.env.detailOf e)).tq)
      .assertMiddleEmpty
    refine .inr (.inr ?_)
    simp only [Machine.respond, hl]
    exact decided_pass (m := { m.setForkActive (S.env.detailOf e) (S.env.detailOf e) with
      bugs := l }) H (h.normal_iff.mp hg.1) hi hg.1
  | unfork =>
    refine .inr (.inr ?_)
    obtain ⟨k, t, hnote⟩ := noteForkRelease_with S m e
    simp only [Machine.respond, hnote]
    exact Decided.of_writeAt (decided_pass (m := { m with
      lastReleased := k
      lastReleasedTime := t
      forkActive := Function.update m.forkActive (S.env.detailOf e) noKey
      tq := m.tq.writeAt (m.tq.buffer.indexToSubscript m.tq.endInternal) _ })
      (H.writeAt _ _) (h.normal_iff.mp hg.1) hi hg.1)
  | pass =>
    refine .inr (.inr ?_)
    obtain ⟨k, t, hnote⟩ := noteRelease_with S m e
    rw [Machine.respond, hnote]
    exact decided_pass (m := { m with lastReleased := k, lastReleasedTime := t }) H
      (h.normal_iff.mp hg.1) hi hg.1
  | forkHead =>
    refine .inr (.inr ?_)
    simp only [Machine.respond]
    split_ifs
    · exact hthen (decided_activate hsecond S hmoved)
    · exact decided_activate H S (hwaiting hg.1)
  | confirmHead => exact .inr (.inr (decided_confirm H (hwaiting hg.1)))
  | repeatHead =>
    have hn : m.state ≠ .normal := by rw [hg.1]; decide
    exact .inr (.inr (decided_confirm (m := m.setForkActive m.suspect m.suspect) H (hwaiting hn)))
  | discard => exact .inl rfl
  | verify =>
    have hn : m.state ≠ .normal := by rw [hg.1]; decide
    exact .inr (.inl (kept_moveToSecond (m := { m with
      state := .verify
      verificatorTime := S.env.timeOf e
      verificatorKeycode := S.env.detailOf e
      mDecisionTime := min m.mDecisionTime (S.config.verifierDecisionTime m.suspect m.suspectTime
        (S.env.detailOf e) (S.env.timeOf e)) }) H hi (fun h => by cases h) (h.suspect hn)))
  | unverify =>
    have hn : m.state ≠ .normal := by rw [hg.1]; decide
    exact .inr (.inl (kept_moveToSecond (m := { m with
      state := .suspect, verificatorKeycode := noKey }) H hi (fun h => by cases h) (h.suspect hn)))
  | wait => exact .inr (.inl (kept_moveToSecond H hi hg.1 (h.suspect hg.1)))

omit [LinearOrder Time] [Add Time] [Zero Time] [NatCast Time] in
theorem canPop_ne_zero (hcan : TriqueueOps.canPop m.tq = true) : m.tq.endOutput ≠ 0 := fun h0 => by
  have hcan' : (0 != m.tq.endOutput) = true := hcan
  rw [h0] at hcan'
  cases hcan'

/-- what one iteration can do -/
theorem Counted.body (h : Counted c m) {f again : Bool}
    (hb : m.automatonBody S f = (m', again)) :
    (again = false ∧ m' = m) ∨ (RepeatsSuspect S m ∧ m' = m) ∨ Kept c m.tq m' ∨
      Decided c m.tq m' := by
  have H := h.queue
  have hwaiting : m.state ≠ .normal → m.tq.middleEmpty = false := fun hn =>
    Bool.eq_false_iff.mpr fun hm => hn (h.normal_iff.mpr hm)
  cases automatonBody_iteration hb with
  | unread hi hp =>
    -- what is counted can be read
    obtain ⟨e, he⟩ := H.peekThird hi
    cases he.symm.trans hp
  | event e hi hp =>
    rcases h.respond hi (guard_verdict S m e) with hv | hres
    · rw [hv]
      exact .inr (.inl ⟨repeats_of_verdict hi hp hv, rfl⟩)
    · exact .inr (.inr hres)
  | time hi hd => exact .inr (.inr (.inr (decided_activate H S (hwaiting hd.1))))
  | force hi hd hf hs =>
    have hm : TriqueueOps.middleEmpty m.tq = false := hwaiting hs
    have hforce : m.transitionByForce S = m.activateForkRewind S := by
      rw [transitionByForce, if_neg hs, hm]
      rfl
    rw [hforce]
    exact .inr (.inr (.inr (decided_activate H S hm)))
  | done => exact .inl ⟨rfl, rfl⟩

theorem Counted.keeps :
    Keeps S (fun _ => True) (fun m : Machine (Triqueue E) Time => m.Counted c) where
  clock _ _ h := ⟨h.queue, h.normal_iff, h.suspect⟩
  push m e h _ _ := ⟨h.queue.push e, h.normal_iff, h.suspect⟩
  pop m h hcan := by
    have hoi := h.queue.output_le
    have hout : m.tq.endOutput ≠ 0 := canPop_ne_zero hcan
    obtain ⟨l, hl⟩ := check_eq m (TriqueueOps.canPop m.tq) .popEmpty
    rw [Machine.pop, hl]
    refine ⟨h.queue.pop hcan, h.normal_iff.trans ?_, h.suspect⟩
    show (m.tq.endInternal == m.tq.endOutput) = true
      ↔ (m.tq.endInternal - 1 == m.tq.endOutput - 1) = true
    simp only [beq_iff_eq]
    omega
  body m f again m' h hb := by
    rcases h.body hb with ⟨-, rfl⟩ | ⟨-, rfl⟩ | hkept | hdecided
    · exact h
    · exact h
    · exact hkept.counted h.queue
    · exact hdecided.counted

theorem Counted.run (hc : 2 ≤ c) {acts : List (Act E Time)} {s : Sys (Triqueue E) E Time}
    (h : runs (Sys.step S) (Sys.create (Triqueue.create c)) acts = some s) :
    Counted c s.machine :=
  Counted.keeps.run ⟨Triqueue.counted_create hc, iff_of_true rfl rfl, fun hn => absurd rfl hn⟩
    (fun _ _ => trivial) h

end

end Machine

/-! ## what is left to do -/

/-- for `waiting` undecided events, of which `unread` are in the input part -/
def iterationsLeft (waiting unread : ℕ) : ℕ := waiting * waiting + unread

/-- an event leaves, and all others are to be read again -/
theorem iterationsLeft_sent (waiting unread : ℕ) :
    iterationsLeft waiting waiting < iterationsLeft (waiting + 1) unread := by
  have hsquare : (waiting + 1) * (waiting + 1) = waiting * waiting + 2 * waiting + 1 := by ring
  unfold iterationsLeft
  omega

/-- the iterations for the events of a queue -/
def Triqueue.iterations (q : Triqueue E) : ℕ :=
  iterationsLeft (q.buffer.size - q.endOutput) (q.buffer.size - q.endInternal)

/-- an event leaves in two steps: it is popped, and it is relayed -/
def ticksLeft (m : Machine (Triqueue E) Time) : Control E Time → ℕ
  | .idle => 0
  | .nextDecisionTime | .relock => 1
  | .pushTime _ _ => 2
  | .flushEnd _ => 3
  | .flushLoop _ => 4 + 2 * m.tq.endOutput
  | .relayEvent _ _ => 5 + 2 * m.tq.endOutput
  | .automatonLoop _ => 5 + 2 * m.tq.buffer.size + m.tq.iterations
  | .runAutomaton _ => 6 + 2 * m.tq.buffer.size + m.tq.iterations

theorem ticksLeft_afterAutomaton (m : Machine (Triqueue E) Time) (f : Bool) :
    ticksLeft m (afterAutomaton f) ≤ 1 := by
  cases f
  · exact le_refl 1
  · exact Nat.zero_le 1

theorem iterations_moved {q q' : Triqueue E} (h : Triqueue.Moved c q q') :
    q'.iterations < q.iterations := by
  have hle := h.counted.internal_le
  rw [h.endInternal, h.size] at hle
  simp only [Triqueue.iterations, iterationsLeft, h.size, h.endOutput, h.endInternal]
  omega

theorem iterations_sent {q q' : Triqueue E} (h : Triqueue.Sent c q q') :
    q'.iterations < q.iterations := by
  have hle := h.counted.internal_le
  rw [h.endInternal, h.size] at hle
  have hwaiting : q.buffer.size - q.endOutput = q.buffer.size - (q.endOutput + 1) + 1 := by omega
  simp only [Triqueue.iterations, h.size, h.endOutput, h.endInternal, hwaiting]
  exact iterationsLeft_sent _ _

/-- the bound in terms of what the queue counts -/
theorem ticksLeft_le {m : Machine (Triqueue E) Time} (h : m.Counted c) (ctl : Control E Time) :
    ticksLeft m ctl ≤ m.tq.buffer.size * m.tq.buffer.size + 3 * m.tq.buffer.size + 6 := by
  have hoi := h.queue.output_le
  have hin := h.queue.internal_le
  have hiterations : m.tq.iterations ≤ m.tq.buffer.size * m.tq.buffer.size + m.tq.buffer.size :=
    Nat.add_le_add (Nat.mul_self_le_mul_self (Nat.sub_le _ _)) (Nat.sub_le _ _)
  generalize m.tq.buffer.size * m.tq.buffer.size = square at hiterations ⊢
  cases ctl <;> simp only [ticksLeft] <;> omega

section
variable [LinearOrder Time] [Add Time] [Zero Time] [NatCast Time] {S : Setup E Time}

/-- **Every step lowers the bound**, but for the exit that leaves the event. -/
theorem ticksLeft_lt {m : Machine (Triqueue E) Time} (h : m.Counted c) {frozen : Bool}
    {ctl : Control E Time} {x : Effect (Triqueue E) E Time} (hx : tick S m frozen ctl = some x)
    (hd : frozen = false → (∃ f, ctl = .automatonLoop f) → ¬RepeatsSuspect S m) :
    ticksLeft x.machine x.control < ticksLeft m ctl := by
  have hout : m.tq.endOutput ≤ m.tq.buffer.size :=
    le_trans h.queue.output_le h.queue.internal_le
  cases tick_flow hx with
  | runAutomaton _ f => exact Nat.add_lt_add_right (Nat.add_lt_add_right (by decide) _) _
  | again f m' hb =>
    have hloop : m'.tq.buffer.size = m.tq.buffer.size ∧ m'.tq.iterations < m.tq.iterations := by
      rcases h.body hb with ⟨hagain, -⟩ | ⟨hrep, -⟩ | hkept | hdecided
      · cases hagain
      · exact absurd hrep (hd rfl ⟨f, rfl⟩)
      · exact ⟨hkept.moved.size, iterations_moved hkept.moved⟩
      · exact ⟨hdecided.sent.size, iterations_sent hdecided.sent⟩
    simp only [ticksLeft, hloop.1]
    exact Nat.add_lt_add_left hloop.2 _
  | done f m' hb =>
    cases automatonBody_iteration hb with
    | done =>
      simp only [ticksLeft]
      omega
  | bodyFrozen f =>
    simp only [ticksLeft]
    omega
  | pop f e m' hp =>
    unfold popEventIfPresent at hp
    split_ifs at hp with hcan
    · obtain ⟨-, rfl⟩ := Prod.mk.inj hp
      obtain ⟨l, hl⟩ := check_eq m (TriqueueOps.canPop m.tq) .popEmpty
      have hpos := canPop_ne_zero hcan
      have hpop : m.pop.tq.endOutput = m.tq.endOutput - 1 := by
        rw [Machine.pop, hl]
        rfl
      simp only [ticksLeft, hpop]
      omega
    · cases hp
  | popNone f m' hp =>
    simp only [ticksLeft]
    omega
  | popFrozen f =>
    simp only [ticksLeft]
    omega
  | relay _ f e => exact Nat.add_lt_add_right (by decide) _
  | endTime f now m' hp hn => exact (by decide : 2 < 3)
  | endNone f m' hp => exact lt_of_le_of_lt (ticksLeft_afterAutomaton _ f) (show 1 < 3 by decide)
  | endFrozen f => exact lt_of_le_of_lt (ticksLeft_afterAutomaton _ f) (show 1 < 3 by decide)
  | pushTime _ f now =>
    exact lt_of_le_of_lt (ticksLeft_afterAutomaton _ f) (show 1 < 2 by decide)
  | nextDecisionTime => exact Nat.zero_lt_one
  | relock => exact Nat.zero_lt_one

/-! ## whole calls -/

section
variable {Q : Type} [TriqueueOps Q E]

/-- a running call can go on -/
theorem exists_tick {m : Machine Q Time} {ctl : Control E Time} (hidle : ctl ≠ .idle)
    (hlock : ctl = .relock → S.stdLibrary = false) (frozen : Bool) :
    ∃ x, tick S m frozen ctl = some x := by
  cases ctl with
  | idle => exact absurd rfl hidle
  | relock => exact ⟨_, by simp [tick, hlock rfl]; rfl⟩
  | runAutomaton f => exact ⟨_, rfl⟩
  | relayEvent f e => exact ⟨_, rfl⟩
  | pushTime f now => exact ⟨_, rfl⟩
  | nextDecisionTime => exact ⟨_, rfl⟩
  | automatonLoop f => cases frozen <;> exact ⟨_, rfl⟩
  | flushEnd f => cases frozen <;> exact ⟨_, rfl⟩
  | flushLoop f =>
    cases frozen
    · rcases hp : m.popEventIfPresent with ⟨_ | e, m'⟩
      · exact ⟨_, by simp only [tick, hp]; rfl⟩
      · exact ⟨_, by simp only [tick, hp]; rfl⟩
    · exact ⟨_, rfl⟩

/-- the running call, `n` steps later, with these answers of `output_frozen` -/
abbrev goOn (S : Setup E Time) (s : Sys Q E Time) (answers : ℕ → Bool) (n : ℕ) :
    Option (Sys Q E Time) :=
  runs (Sys.step S) s ((List.range n).map fun i => .tick (answers i))

end

theorem goOn_counted {s t : Sys (Triqueue E) E Time} (hs : s.machine.Counted c)
    {answers : ℕ → Bool} {n : ℕ} (h : goOn S s answers n = some t) : t.machine.Counted c :=
  runs_inv (I := fun u => u.machine.Counted c) hs
    (fun _ _ _ hu => Counted.keeps.step hu fun _ _ => trivial) h

/-- a stuck call waits for a frozen answer -/
theorem stuck_waits {s : Sys (Triqueue E) E Time} (hs : s.machine.Counted c) (h : Stuck S s) :
    ∃ s', s.step S (.tick false) = some s' ∧ s'.machine = s.machine ∧ s'.control = s.control := by
  have hn : s.machine.state ≠ .normal := by rw [h.2.1]; decide
  exact h.waits (keyForked_false.mpr (.inr (hs.suspect hn)))

/-- where no frozen answer comes, it never ends -/
theorem stuck_never_ends {s t : Sys (Triqueue E) E Time} (hs : s.machine.Counted c)
    {answers : ℕ → Bool} {n : ℕ} (ht : goOn S s answers n = some t) (hstuck : Stuck S t)
    (hthawed : ∀ k ≥ n, answers k = false) {m : ℕ} {u : Sys (Triqueue E) E Time}
    (hu : goOn S s answers m = some u) : u.control ≠ .idle := by
  refine not_done_of_stays (J := fun v => v.machine.Counted c ∧ Stuck S v)
    (D := fun v => v.control = .idle) (fun i hi v ⟨hv, hvs⟩ => ?_) (fun v ⟨_, hvs⟩ hidle => ?_)
    (fun v i hidle => ?_) ht ⟨goOn_counted hs ht, hstuck⟩ hu
  · obtain ⟨v', hstep, hm, hc⟩ := stuck_waits hv hvs
    refine ⟨v', ?_, hm ▸ hv, ?_⟩
    · rw [hthawed i hi]
      exact hstep
    · rw [Stuck, hm, hc]
      exact hvs
  · obtain ⟨f, hc⟩ := hvs.1
    rw [hc] at hidle
    cases hidle
  · rw [Sys.step, hidle]
    rfl

/-- **When a call ends**, whatever `output_frozen` answers, and however much the ring counts: every
iteration that leaves the event is followed by a frozen answer, and the call does not lock again
what it has locked. -/
theorem ends_iff {s : Sys (Triqueue E) E Time} (hs : s.machine.Counted c) (answers : ℕ → Bool) :
    (∃ n s', goOn S s answers n = some s' ∧ s'.control = .idle) ↔
      (∀ n t, goOn S s answers n = some t → Stuck S t → ∃ k ≥ n, answers k = true) ∧
      (s.control = .relock → S.stdLibrary = false) := by
  constructor
  · rintro ⟨m, s', hrun, hidle⟩
    refine ⟨fun n t ht hstuck => ?_, fun hrelock => ?_⟩
    · by_contra hno
      push Not at hno
      exact stuck_never_ends hs ht hstuck (fun k hk => Bool.eq_false_iff.mpr (hno k hk)) hrun hidle
    · by_contra hstd
      rw [Bool.not_eq_false] at hstd
      have hrun' : runs (Sys.step S) s (((List.range m).map answers).map .tick) = some s' := by
        rwa [List.map_map]
      rw [relock_waits hstd hrelock hrun'] at hidle
      cases hidle
  · rintro ⟨hfair, hlock⟩
    -- the bound is `ticksLeft`; a stuck call waits while the output is not frozen
    refine exists_done_of_fair (I := fun k u => u.machine.Counted c ∧
        (u.control = .relock → S.stdLibrary = false) ∧ ticksLeft u.machine u.control = k)
      (W := fun i u => Stuck S u ∧ answers i = false) ?_ ?_ ⟨hs, hlock, rfl⟩
    · rintro i k u ⟨hu, hul, rfl⟩
      by_cases hidle : u.control = .idle
      · exact .inl hidle
      obtain ⟨x, hx⟩ := exists_tick (m := u.machine) hidle hul (answers i)
      have hstep : u.step S (.tick (answers i)) = some (u.apply x) := by
        rw [Sys.step, hx]
        rfl
      refine .inr ⟨_, _, hstep, ⟨Counted.keeps.tick hu hx, fun h => ?_, rfl⟩, ?_⟩
      · exact absurd h (tick_relock hx)
      by_cases hwait : Stuck S u ∧ answers i = false
      · obtain ⟨u', hu', hm, hc⟩ := stuck_waits hu hwait.1
        rw [← hwait.2, hstep] at hu'
        cases hu'
        exact .inr ⟨hwait, by rw [hm, hc]⟩
      · refine .inl (ticksLeft_lt hu hx fun hthawed hloop hrep => ?_)
        exact hwait ⟨⟨hloop, hrep⟩, hthawed⟩
    · rintro i u hu ⟨hstuck, -⟩
      obtain ⟨j, hj, hfrozen⟩ := hfair i u hu hstuck
      refine ⟨j, hj, fun t _ hwait => ?_⟩
      rw [hfrozen] at hwait
      cases hwait.2

end

end ForkNS
