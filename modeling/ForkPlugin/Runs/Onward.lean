import ForkPlugin.Machine.Flow
import ForkPlugin.Runs.Conserve
import ForkPlugin.Runs.Delay

/-!
# Time handed downstream

The environment is told times in two ways: every relayed event has one, and `push_time` hands one
over.  Where the machine is fed times that never run backwards, neither do these.

* `outputTimes`    the times that the environment is told;
* `Sys.times`      what was told, what is in hand, and the queue, in this order;
* `Onward`         they are sorted, none is later than the inputs, and the clock, when it is set, is
                   after all of them;
* `time_onward`    so what was told is sorted.
-/

namespace ForkNS

open Runs Machine

variable {E Time : Type}

def outputTimes (S : Setup E Time) (trace : List (Obs E Time)) : List Time :=
  trace.filterMap fun
    | .relayEvent pevent => some (S.env.timeOf pevent)
    | .pushTime now => some now
    | _ => none

/-- the time about to be told -/
def Control.timesInHand (S : Setup E Time) : Control E Time → List Time
  | .relayEvent _ pevent => [S.env.timeOf pevent]
  | .pushTime _ now => [now]
  | _ => []

@[simp] theorem timesInHand_afterAutomaton (S : Setup E Time) (f : Bool) :
    (afterAutomaton f : Control E Time).timesInHand S = [] := by
  unfold afterAutomaton
  split_ifs <;> rfl

/-- what was told, what is in hand, and what waits in the queue -/
def Sys.times (S : Setup E Time) (s : Sys (ThreeLists E) E Time) : List Time :=
  outputTimes S s.trace ++ s.control.timesInHand S ++ s.machine.tq.all.map S.env.timeOf

variable [LinearOrder Time] [Add Time] [Zero Time] [NatCast Time] {S : Setup E Time}

/-- the times of the queue change by what is pushed only -/
theorem Move.times (hE : S.env.RewritesCode) {a : Act E Time} {f : Bool}
    {m m' : ListMachine E Time} {es : List E} (hm : Sound S m) (h : Move S a f m es m') :
    m'.tq.all.map S.env.timeOf = m.tq.all.map S.env.timeOf ++ es.map S.env.timeOf := by
  have hall : ∀ l : ListMachine E Time, l.tq.all = l.tq.out ++ l.line := fun l =>
    List.append_assoc _ _ _
  rcases h.sends hm with ⟨hline, hout, -⟩ | ⟨rfl, e, r, hline, hout, hsend⟩
  · rw [hall, hall, hline, hout]
    simp
  · rw [hall, hall, hline, hout]
    simp [(hsend.same hE).timeOf]

theorem automatonBody_times (hE : S.env.RewritesCode) {m : ListMachine E Time} (hm : Sound S m)
    (f : Bool) :
    (m.automatonBody S f).1.tq.all.map S.env.timeOf = m.tq.all.map S.env.timeOf := by
  have hmove := automatonBody_move hm (.tick false) f []
  have hsound : Sound S (m.framed [] [] m.mCurrentTime) := by
    simpa [framed] using hm
  simpa [framed] using hmove.times hE hsound

theorem automatonBody_mCurrentTime {m : ListMachine E Time} (hm : Sound S m) (f : Bool) :
    (m.automatonBody S f).1.mCurrentTime = m.mCurrentTime := by
  rcases automatonBody_cases hm f with ⟨e, rest, -, hb⟩ | ⟨-, -, -, hb⟩ | ⟨-, -, hb⟩
  · rw [hb]
    exact enact_mCurrentTime S m e _
  · rw [hb]
    exact forkHead_mCurrentTime S m
  · rw [hb]

/-- the clock is set to no time, or to an input after everything before -/
def ClockAhead (m : ListMachine E Time) (ts ins : List Time) : Prop :=
  m.mCurrentTime = 0 ∨ m.mCurrentTime ∈ ins ∧ ∀ t ∈ ts, t ≤ m.mCurrentTime

structure Onward (S : Setup E Time) (ins : List Time) (s : Sys (ThreeLists E) E Time) : Prop where
  sound : Sound S s.machine
  sorted : (s.times S).Pairwise (· ≤ ·)
  reached : ∀ t ∈ s.times S, ∃ i ∈ ins, t ≤ i
  clock : ClockAhead s.machine (s.times S) ins

omit [Add Time] [NatCast Time] [Zero Time] in
theorem pairwise_snoc {ts : List Time} {t : Time} (h : ts.Pairwise (· ≤ ·))
    (ht : ∀ x ∈ ts, x ≤ t) : (ts ++ [t]).Pairwise (· ≤ ·) := by
  refine List.pairwise_append.mpr ⟨h, List.pairwise_singleton _ _, ?_⟩
  intro x hx y hy
  rw [List.mem_singleton.mp hy]
  exact ht x hx

/-- a step that tells what it has in hand, or takes in hand what was first in the queue -/
theorem Onward.apply {ins : List Time} {s : Sys (ThreeLists E) E Time} (h : Onward S ins s)
    {x : Effect (ThreeLists E) E Time} (hs : Sound S x.machine)
    (htimes : (s.apply x).times S = s.times S)
    (hclock : x.machine.mCurrentTime = 0 ∨ x.machine.mCurrentTime = s.machine.mCurrentTime) :
    Onward S ins (s.apply x) := by
  refine ⟨hs, ?_, ?_, ?_⟩
  · rw [htimes]
    exact h.sorted
  · rw [htimes]
    exact h.reached
  · rw [htimes]
    rcases hclock with hz | hsame
    · exact .inl hz
    · unfold ClockAhead
      show x.machine.mCurrentTime = 0 ∨ _
      rw [show (s.apply x).machine.mCurrentTime = s.machine.mCurrentTime from hsame, hsame]
      exact h.clock

section
variable {ins : List Time} {s : Sys (ThreeLists E) E Time} {f : Bool}

omit [LinearOrder Time] [Add Time] [Zero Time] [NatCast Time] in
theorem times_flushEnd (hc : s.control = .flushEnd f) :
    s.times S = outputTimes S s.trace ++ s.machine.tq.all.map S.env.timeOf := by
  rw [Sys.times, hc]
  simp [Control.timesInHand]

omit [LinearOrder Time] [Add Time] [Zero Time] [NatCast Time] in
theorem times_pushTime {m : ListMachine E Time} (hq : m.tq = s.machine.tq) (now : Time) :
    (s.apply { machine := m, control := .pushTime f now, seen := [.outputFrozen false] }).times S
      = outputTimes S s.trace ++ now :: s.machine.tq.all.map S.env.timeOf := by
  simp [Sys.times, Sys.apply, outputTimes, Control.timesInHand, hq]

/-- nothing waits: the clock is handed over, and stays -/
theorem Onward.pushClock (h : Onward S ins s) (hc : s.control = .flushEnd f)
    (hall : s.machine.tq.all = []) (hn : s.machine.mCurrentTime ≠ 0) :
    Onward S ins (s.apply
      { machine := s.machine
        control := .pushTime f s.machine.mCurrentTime
        seen := [.outputFrozen false] }) := by
  obtain ⟨hin, hle⟩ := h.clock.resolve_left hn
  have hbefore := times_flushEnd (S := S) hc
  have htimes := times_pushTime (S := S) (s := s) (f := f) rfl s.machine.mCurrentTime
  rw [hall, List.map_nil, List.append_nil] at hbefore
  rw [hall, List.map_nil, ← hbefore] at htimes
  refine ⟨h.sound, ?_, ?_, .inr ⟨hin, ?_⟩⟩
  · rw [htimes]
    exact pairwise_snoc h.sorted hle
  · rw [htimes]
    intro t ht
    rcases List.mem_append.mp ht with ht | ht
    · exact h.reached t ht
    · exact ⟨_, hin, le_of_eq (List.mem_singleton.mp ht)⟩
  · rw [htimes]
    intro t ht
    rcases List.mem_append.mp ht with ht | ht
    · exact hle t ht
    · exact le_of_eq (List.mem_singleton.mp ht)

/-- the time of the first event that waits is handed over -/
theorem Onward.pushFirst (h : Onward S ins s) (hc : s.control = .flushEnd f) {e : E}
    {rest : List E} (hall : s.machine.tq.all = e :: rest) :
    Onward S ins (s.apply
      { machine := { s.machine with mCurrentTime := 0 }
        control := .pushTime f (S.env.timeOf e)
        seen := [.outputFrozen false] }) := by
  have hbefore := times_flushEnd (S := S) hc
  have htimes := times_pushTime (S := S) (s := s) (f := f)
    (m := { s.machine with mCurrentTime := 0 }) rfl (S.env.timeOf e)
  rw [hall, List.map_cons] at htimes hbefore
  have hsorted := h.sorted
  rw [hbefore] at hsorted
  obtain ⟨hout, hwait, hcross⟩ := List.pairwise_append.mp hsorted
  refine ⟨⟨h.sound.coherent, h.sound.headOpen, h.sound.bugs⟩, ?_, ?_, .inl rfl⟩
  · rw [htimes]
    refine List.pairwise_append.mpr ⟨hout, ?_, ?_⟩
    · refine List.pairwise_cons.mpr ⟨fun t ht => ?_, hwait⟩
      rcases List.mem_cons.mp ht with rfl | ht
      · exact le_refl _
      · exact List.rel_of_pairwise_cons hwait ht
    · intro t ht u hu
      rcases List.mem_cons.mp hu with rfl | hu
      · exact hcross t ht _ List.mem_cons_self
      · exact hcross t ht u hu
  · rw [htimes]
    intro t ht
    refine h.reached t ?_
    rw [hbefore]
    simp only [List.mem_append, List.mem_cons] at ht ⊢
    tauto

/-- the time that `push_time` is about to hand over -/
theorem Onward.pushTime (h : Onward S ins s) (hc : s.control = .flushEnd f) {now : Time}
    {m : ListMachine E Time} (hp : s.machine.pushTimeToNext S = (now, m)) (hn : now ≠ 0) :
    Onward S ins (s.apply
      { machine := m
        control := .pushTime f now
        seen := [.outputFrozen false] }) := by
  rcases hall : s.machine.tq.all with - | ⟨e, rest⟩
  · have hfirst : TriqueueOps.first s.machine.tq = none := by simp [TriqueueOps.first, hall]
    rw [pushTimeToNext, hfirst] at hp
    cases hp
    exact h.pushClock hc hall hn
  · have hfirst : TriqueueOps.first s.machine.tq = some e := by simp [TriqueueOps.first, hall]
    rw [pushTimeToNext, hfirst] at hp
    cases hp
    exact h.pushFirst hc hall

end

/-- a step tells what it has in hand or takes in hand what is first in the queue, or it hands over
a time -/
theorem tick_times (hE : S.env.RewritesCode) {m : ListMachine E Time} (hm : Sound S m)
    {frozen : Bool} {c : Control E Time} {x : Effect (ThreeLists E) E Time}
    (h : tick S m frozen c = some x) :
    (outputTimes S x.seen ++ (x.control.timesInHand S ++ x.machine.tq.all.map S.env.timeOf)
        = c.timesInHand S ++ m.tq.all.map S.env.timeOf ∧
      (x.machine.mCurrentTime = 0 ∨ x.machine.mCurrentTime = m.mCurrentTime)) ∨
    ∃ f now m', c = .flushEnd f ∧ m.pushTimeToNext S = (now, m') ∧ now ≠ 0 ∧
      x = { machine := m', control := .pushTime f now, seen := [.outputFrozen false] } := by
  cases tick_flow h with
  | endTime f now m' hp hn => exact .inr ⟨f, now, m', rfl, hp, hn, rfl⟩
  | again f m' hb =>
    obtain rfl : (m.automatonBody S f).1 = m' := congrArg Prod.fst hb
    exact .inl ⟨automatonBody_times hE hm f, .inr (automatonBody_mCurrentTime hm f)⟩
  | done f m' hb =>
    obtain rfl : (m.automatonBody S f).1 = m' := congrArg Prod.fst hb
    exact .inl ⟨automatonBody_times hE hm f, .inr (automatonBody_mCurrentTime hm f)⟩
  | pop f e m' hp =>
    rcases ho : m.tq.out with - | ⟨e', out⟩
    · rw [popEventIfPresent_nil ho] at hp
      cases hp
    · rw [popEventIfPresent_eq ho] at hp
      cases hp
      refine .inl ⟨?_, .inr rfl⟩
      simp [outputTimes, Control.timesInHand, ThreeLists.all, ho]
  | popNone f m' hp =>
    rcases ho : m.tq.out with - | ⟨e', out⟩
    · rw [popEventIfPresent_nil ho] at hp
      cases hp
      exact .inl ⟨rfl, .inr rfl⟩
    · rw [popEventIfPresent_eq ho] at hp
      cases hp
  | endNone f m' hp =>
    obtain ⟨c', hc', hq⟩ := pushTimeToNext_eq S m
    rw [hp] at hq
    obtain rfl : m' = { m with mCurrentTime := c' } := hq
    refine .inl ⟨?_, hc'⟩
    rw [timesInHand_afterAutomaton]
    rfl
  | endFrozen f =>
    refine .inl ⟨?_, .inr rfl⟩
    rw [timesInHand_afterAutomaton]
    rfl
  | pushTime frozen f now =>
    refine .inl ⟨?_, .inr rfl⟩
    rw [timesInHand_afterAutomaton]
    rfl
  | _ => exact .inl ⟨rfl, .inr rfl⟩

theorem Onward.tick (hE : S.env.RewritesCode) {ins : List Time}
    {s s' : Sys (ThreeLists E) E Time} (h : Onward S ins s) {frozen : Bool}
    (hstep : s.step S (.tick frozen) = some s') : Onward S ins s' := by
  have hsound := Sys.step_sound h.sound hstep
  obtain ⟨x, hx, rfl⟩ := Sys.step_tick hstep
  rcases tick_times hE h.sound hx with ⟨htimes, hclock⟩ | ⟨f, now, m', hc, hp, hn, rfl⟩
  · refine h.apply hsound ?_ hclock
    rw [Sys.times, Sys.times, Sys.apply, outputTimes, List.filterMap_append, List.append_assoc,
      List.append_assoc, List.append_assoc, ← htimes]
    rfl
  · exact h.pushTime hc hp hn

theorem Onward.mono {ins ins' : List Time} (hsub : ∀ t ∈ ins, t ∈ ins')
    {s : Sys (ThreeLists E) E Time} (h : Onward S ins s) : Onward S ins' s where
  sound := h.sound
  sorted := h.sorted
  reached t ht := (h.reached t ht).imp fun i hi => ⟨hsub i hi.1, hi.2⟩
  clock := h.clock.imp id fun hc => ⟨hsub _ hc.1, hc.2⟩

theorem Onward.setTime {ins : List Time} {s : Sys (ThreeLists E) E Time} {now : Time}
    (h : Onward S ins s) (hc : s.control = .idle) (hlater : ∀ i ∈ ins, i ≤ now) :
    Onward S (ins ++ [now]) (s.apply
      { machine := { s.machine with mCurrentTime := now }
        control := .runAutomaton false }) := by
  have hmono : Onward S (ins ++ [now]) s := h.mono fun t ht => List.mem_append_left _ ht
  have htimes : (s.apply
      { machine := { s.machine with mCurrentTime := now }
        control := .runAutomaton false }).times S = s.times S := by
    simp [Sys.times, Sys.apply, hc, Control.timesInHand]
  refine ⟨⟨h.sound.coherent, h.sound.headOpen, h.sound.bugs⟩, ?_, ?_, .inr ⟨?_, ?_⟩⟩
  · rw [htimes]
    exact h.sorted
  · rw [htimes]
    exact hmono.reached
  · exact List.mem_append_right _ List.mem_cons_self
  · rw [htimes]
    intro t ht
    obtain ⟨i, hi, hti⟩ := h.reached t ht
    exact hti.trans (hlater i hi)

theorem Onward.enqueue {ins : List Time} {s : Sys (ThreeLists E) E Time} {e : E}
    {m : ListMachine E Time} (h : Onward S ins s) (hc : s.control = .idle)
    (hlater : ∀ i ∈ ins, i ≤ S.env.timeOf e)
    (hm : m = { s.machine with mCurrentTime := 0, tq := TriqueueOps.push s.machine.tq e })
    (hsound : Sound S m) :
    Onward S (ins ++ [S.env.timeOf e])
      (s.apply { machine := m, control := .runAutomaton false, pushed := [e] }) := by
  have hmono : Onward S (ins ++ [S.env.timeOf e]) s := h.mono fun t ht => List.mem_append_left _ ht
  have htimes : (s.apply { machine := m, control := .runAutomaton false, pushed := [e] }).times S
      = s.times S ++ [S.env.timeOf e] := by
    simp [hm, Sys.times, Sys.apply, hc, Control.timesInHand, TriqueueOps.push, ThreeLists.all]
  refine ⟨hsound, ?_, ?_, .inl (by subst hm; rfl)⟩
  · rw [htimes]
    refine pairwise_snoc h.sorted fun t ht => ?_
    obtain ⟨i, hi, hti⟩ := h.reached t ht
    exact hti.trans (hlater i hi)
  · rw [htimes]
    intro t ht
    rcases List.mem_append.mp ht with ht | ht
    · exact hmono.reached t ht
    · exact ⟨_, List.mem_append_right _ List.mem_cons_self, le_of_eq (List.mem_singleton.mp ht)⟩

/-- a call with a time after all inputs before -/
theorem Onward.call {ins : List Time} {s s' : Sys (ThreeLists E) E Time} {c : Call E Time}
    (h : Onward S ins s) (hlater : ∀ i ∈ ins, ∀ t ∈ times S.env [c], i ≤ t)
    (hpos : ∀ t ∈ times S.env [c], 0 < t) (hstep : s.step S (.call c) = some s') :
    Onward S (ins ++ times S.env [c]) s' := by
  have hsound := Sys.step_sound h.sound hstep
  obtain ⟨hc, rfl⟩ := Sys.step_call hstep
  have hmono : Onward S (ins ++ times S.env [c]) s := h.mono fun t ht => List.mem_append_left _ ht
  cases c with
  | acceptConfirmation =>
    refine hmono.apply hsound ?_ (.inr rfl)
    simp [Sys.times, Sys.apply, hc, Control.timesInHand, outputTimes, enter]
  | acceptTime now =>
    have hclock : ¬s.machine.mCurrentTime > now := by
      rw [gt_iff_lt, not_lt]
      rcases h.clock with hz | ⟨hin, -⟩
      · rw [hz]
        exact le_of_lt (hpos now List.mem_cons_self)
      · exact hlater _ hin now List.mem_cons_self
    simp only [enter, acceptTime, if_neg hclock]
    exact h.setTime hc fun i hi => hlater i hi now List.mem_cons_self
  | acceptEvent e =>
    simp only [enter, acceptEvent] at hsound ⊢
    split_ifs at hsound ⊢
    · refine hmono.apply hsound ?_ (.inl rfl)
      simp [Sys.times, Sys.apply, hc, Control.timesInHand, outputTimes]
    · refine hmono.apply hsound ?_ (.inl rfl)
      simp [Sys.times, Sys.apply, hc, Control.timesInHand, outputTimes]
    · exact h.enqueue hc (fun i hi => hlater i hi _ List.mem_cons_self) rfl hsound

/-- over three lists, of any length -/
theorem lists_onward (hE : S.env.RewritesCode) {acts : List (Act E Time)}
    {s : Sys (ThreeLists E) E Time} (hsorted : (times S.env (calls acts)).Pairwise (· ≤ ·))
    (hpos : ∀ t ∈ times S.env (calls acts), 0 < t)
    (h : runs (Sys.step S) (Sys.create .nil) acts = some s) :
    Onward S (times S.env (calls acts)) s := by
  refine runs_ind (P := fun acts s => (times S.env (calls acts)).Pairwise (· ≤ ·) →
    (∀ t ∈ times S.env (calls acts), 0 < t) → Onward S (times S.env (calls acts)) s)
    ?_ ?_ acts s h hsorted hpos
  · intro _ _
    refine ⟨create_sound, ?_, ?_, .inl rfl⟩ <;>
      simp [Sys.times, Sys.create, outputTimes, Control.timesInHand, Machine.create, ThreeLists.all,
        ThreeLists.nil]
  · intro acts u a v ih hstep hsorted hpos
    rw [calls_append, times_append] at hsorted hpos ⊢
    obtain ⟨hfirst, -, hlater⟩ := List.pairwise_append.mp hsorted
    have hu := ih hfirst fun t ht => hpos t (List.mem_append_left _ ht)
    cases a with
    | call c => exact hu.call hlater (fun t ht => hpos t (List.mem_append_right _ ht)) hstep
    | tick frozen =>
      have hin : times S.env (calls [.tick frozen]) = [] := rfl
      rw [hin, List.append_nil]
      exact hu.tick hE hstep

/-- **Time handed downstream never runs backwards.** -/
theorem time_onward (hE : S.env.RewritesCode) {c : ℕ} (hc : 2 ≤ c) {acts : List (Act E Time)}
    (hw : WithinCapacity S c acts) (hsorted : (times S.env (calls acts)).Pairwise (· ≤ ·))
    (hpos : ∀ t ∈ times S.env (calls acts), 0 < t) {s : Sys (Triqueue E) E Time}
    (h : runs (Sys.step S) (Sys.create (Triqueue.create c)) acts = some s) :
    (outputTimes S s.trace).Pairwise (· ≤ ·) := by
  obtain ⟨t, ht, halike⟩ := ring_run hc hw h
  have hall := (lists_onward hE hsorted hpos ht).sorted
  rw [Sys.times, List.append_assoc] at hall
  rw [halike.trace]
  exact (List.pairwise_append.mp hall).1

theorem time_onward_fork : ∃ s,
    runs (Sys.step testSetup) (Sys.create (Triqueue.create 2)) typedUnderFork = some s ∧
    outputTimes testSetup s.trace = [100, 100] ∧
    (outputTimes testSetup s.trace).Pairwise (· ≤ ·) := by
  have hs := Option.eq_some_of_isSome
    (o := runs (Sys.step testSetup) (Sys.create (Triqueue.create 2)) typedUnderFork) (by decide)
  exact ⟨_, hs, by decide, time_onward testEnvironment_lawful.toRewritesCode (le_refl 2)
    (by decide) (by decide) (by decide) hs⟩

end ForkNS
