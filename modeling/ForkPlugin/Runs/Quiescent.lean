import ForkPlugin.Machine.Flow
import ForkPlugin.Machine.Ring
import ForkPlugin.Machine.View
import ForkPlugin.Machine.TestEvents

/-!
# What a call leaves behind

A call that runs the automaton while the output is not frozen reads all events that wait and hands
over all that is decided.

* `Accepts`         the first block of a call lets the automaton run: the keycode is in range, the
                    time is not before `mCurrent_time`;
* `Settled`         the loop has ended: no event waits to be read, nothing is suspected after a
                    forced run, and a deadline is after the time of the timer;
* `Quieting`        what holds at each control point of such a call (`Quieting.tick`);
* `Emptied`         what holds at each control point of a run whose output is never frozen;
* `call_quiescent`  at the return of a call the output and the input part are empty.

A call that is turned away by a time that moved backwards returns only without `std::mutex`: in
the Windows driver, whose output is never frozen.
-/

namespace ForkNS

open Runs Machine

variable {E Time : Type}

/-! ## calls that run the automaton -/

def Call.forces : Call E Time → Bool
  | .acceptConfirmation => true
  | _ => false

/-- the time of a timer; 0 is none -/
def Call.timer [Zero Time] [DecidableEq Time] : Call E Time → Option Time
  | .acceptTime now => if now = 0 then none else some now
  | _ => none

/-- the call is not turned away by its first block -/
def Accepts {Q : Type} [LE Time] (S : Setup E Time) (m : Machine Q Time) : Call E Time → Prop
  | .acceptEvent pevent => S.env.detailOf pevent ≤ S.maxKeycode
  | .acceptTime now => m.mCurrentTime ≤ now
  | .acceptConfirmation => True

/-! ## the steps of such a call -/

section
variable [LinearOrder Time] [Zero Time]

theorem Call.timer_ne_zero {call : Call E Time} : ∀ now ∈ call.timer, now ≠ 0 := by
  intro now hnow
  cases call with
  | acceptTime t =>
    simp only [Call.timer] at hnow
    split_ifs at hnow with ht
    · cases hnow
    · cases hnow
      exact ht
  | _ => cases hnow

/-- the state in which the loop ends -/
structure Settled (f : Bool) (timer : Option Time) (m : ListMachine E Time) : Prop where
  inp : m.tq.inp = []
  forced : f = true → m.state = .normal
  ahead : ∀ now ∈ timer, m.state ≠ .normal → now < m.mDecisionTime

/-- what holds at each control point of a call that runs the automaton -/
def Quieting (f : Bool) (timer : Option Time) (m : ListMachine E Time) : Control E Time → Prop
  | .runAutomaton g | .automatonLoop g => g = f ∧ ∀ now ∈ timer, m.mCurrentTime = now
  | .flushLoop g | .relayEvent g _ => g = f ∧ Settled f timer m
  | .flushEnd g | .pushTime g _ => g = f ∧ Settled f timer m ∧ m.tq.out = []
  | .nextDecisionTime | .idle => Settled f timer m ∧ m.tq.out = []
  | .relock => False

variable {f : Bool} {timer : Option Time} {m : ListMachine E Time}

omit [Zero Time] in
theorem Settled.of_same (h : Settled f timer m) {m' : ListMachine E Time}
    (hi : m'.tq.inp = m.tq.inp) (hs : m'.state = m.state)
    (hd : m'.mDecisionTime = m.mDecisionTime) : Settled f timer m' where
  inp := hi.trans h.inp
  forced hf := hs.trans (h.forced hf)
  ahead now hnow hn := by
    rw [hd]
    exact h.ahead now hnow (hs ▸ hn)

omit [Zero Time] in
theorem quieting_afterAutomaton (h : Settled f timer m) (ho : m.tq.out = []) :
    Quieting f timer m (afterAutomaton f) := by
  cases f
  · exact ⟨h, ho⟩
  · exact ⟨h, ho⟩

variable [Add Time] [NatCast Time] {S : Setup E Time}

/-- one iteration of the loop goes on with the same clock, or the machine is settled -/
theorem Quieting.body (hm : Sound S m) (hclock : ∀ now ∈ timer, m.mCurrentTime = now)
    (hne : ∀ now ∈ timer, now ≠ 0) :
    Quieting f timer (m.automatonBody S f).1
      (if (m.automatonBody S f).2 then .automatonLoop f else .flushLoop f) := by
  rcases automatonBody_cases hm f with ⟨e, rest, hi, hb⟩ | ⟨hi, hs, -, hb⟩ | ⟨hi, hdone, hb⟩
  · rw [hb]
    refine ⟨rfl, fun now hnow => ?_⟩
    rw [enact_mCurrentTime]
    exact hclock now hnow
  · rw [hb]
    refine ⟨rfl, fun now hnow => ?_⟩
    rw [forkHead_mCurrentTime]
    exact hclock now hnow
  · rw [hb]
    refine ⟨rfl, hi, fun hf => ?_, fun now hnow hn => ?_⟩
    · by_contra hn
      rw [(hdone hn).1] at hf
      cases hf
    · have hc := hclock now hnow
      rw [← hc]
      exact (hdone hn).2 (hc ▸ hne now hnow)

/-- **One step**, while the output is not frozen. -/
theorem Quieting.tick (hm : Sound S m) (hne : ∀ now ∈ timer, now ≠ 0) {c : Control E Time}
    (h : Quieting f timer m c) {x : Effect (ThreeLists E) E Time}
    (hx : Tick S m false c x) : Quieting f timer x.machine x.control := by
  cases hx with
  | runAutomaton _ g => exact h
  | body g =>
    obtain ⟨rfl, hclock⟩ := h
    exact Quieting.body hm hclock hne
  | pop g e out ho => exact ⟨h.1, h.2.of_same rfl rfl rfl⟩
  | popNone g ho => exact ⟨h.1, h.2, ho⟩
  | relay _ g e => exact h
  | endTime g c now => exact ⟨h.1, h.2.1.of_same rfl rfl rfl, h.2.2⟩
  | endNone g c =>
    obtain ⟨rfl, hset, ho⟩ := h
    exact quieting_afterAutomaton (hset.of_same rfl rfl rfl) ho
  | pushTime _ g now =>
    obtain ⟨rfl, hset, ho⟩ := h
    exact quieting_afterAutomaton hset ho
  | nextDecisionTime => exact h
  | relock => exact h.elim

omit [Add Time] [NatCast Time] in
theorem enter_quieting {call : Call E Time} (hadm : Accepts S m call) :
    Quieting call.forces call.timer (enter S m call).machine (enter S m call).control := by
  cases call with
  | acceptEvent e =>
    simp only [enter, acceptEvent, if_neg (not_lt.mpr hadm)]
    split_ifs
    · exact ⟨rfl, fun now hnow => by cases hnow⟩
    · exact ⟨rfl, fun now hnow => by cases hnow⟩
  | acceptTime now =>
    simp only [enter, acceptTime, if_neg (not_lt.mpr hadm)]
    refine ⟨rfl, fun t ht => ?_⟩
    simp only [Call.timer] at ht
    split_ifs at ht
    · cases ht
    · cases ht
      rfl
  | acceptConfirmation => exact ⟨rfl, fun now hnow => by cases hnow⟩

theorem lists_quiescent {s s' : Sys (ThreeLists E) E Time} (hs : Sound S s.machine)
    {call : Call E Time} (hadm : Accepts S s.machine call) {n : ℕ}
    (hrun : runs (Sys.step S) s (.call call :: List.replicate n (.tick false)) = some s') :
    Sound S s'.machine ∧ Quieting call.forces call.timer s'.machine s'.control := by
  obtain ⟨s₁, hcall, hticks⟩ := Option.bind_eq_some_iff.mp hrun
  have hs₁ := Sys.step_sound hs hcall
  obtain ⟨-, rfl⟩ := Sys.step_call hcall
  have hq := enter_quieting (S := S) hadm
  clear hrun hcall
  induction n generalizing s' with
  | zero =>
    cases hticks
    exact ⟨hs₁, hq⟩
  | succ n ih =>
    rw [List.replicate_succ'] at hticks
    obtain ⟨u, hu, htick⟩ := runs_snoc_some.mp hticks
    obtain ⟨hsu, hqu⟩ := ih hu
    refine ⟨Sys.step_sound hsu htick, ?_⟩
    obtain ⟨x, hx, rfl⟩ := Sys.unfrozen_cases htick
    exact hqu.tick hsu Call.timer_ne_zero hx

/-! ## runs that are never frozen -/

omit [Zero Time] [Add Time] [NatCast Time] in
theorem Settled.untimed (h : Settled f timer m) : Settled f none m :=
  ⟨h.inp, h.forced, fun _ hnow => by cases hnow⟩

omit [Zero Time] [Add Time] [NatCast Time] in
theorem Quieting.untimed {c : Control E Time} (h : Quieting f timer m c) : Quieting f none m c := by
  cases c with
  | runAutomaton g => exact ⟨h.1, fun _ hnow => by cases hnow⟩
  | automatonLoop g => exact ⟨h.1, fun _ hnow => by cases hnow⟩
  | flushLoop g => exact ⟨h.1, h.2.untimed⟩
  | relayEvent g e => exact ⟨h.1, h.2.untimed⟩
  | flushEnd g => exact ⟨h.1, h.2.1.untimed, h.2.2⟩
  | pushTime g now => exact ⟨h.1, h.2.1.untimed, h.2.2⟩
  | nextDecisionTime => exact ⟨h.1.untimed, h.2⟩
  | idle => exact ⟨h.1.untimed, h.2⟩
  | relock => exact h

/-- some call runs its course, or nothing is to be done -/
def Emptied (m : ListMachine E Time) (c : Control E Time) : Prop :=
  (∃ f, Quieting f none m c) ∨ c = .relock ∧ m.tq.inp = [] ∧ m.tq.out = []

omit [Zero Time] [Add Time] [NatCast Time] in
theorem emptied_idle (hinp : m.tq.inp = []) (hout : m.tq.out = []) :
    Emptied m (.idle : Control E Time) := by
  refine .inl ⟨false, ⟨hinp, fun hf => ?_, fun now hnow => ?_⟩, hout⟩
  · cases hf
  · cases hnow

omit [Zero Time] [Add Time] [NatCast Time] in
theorem Emptied.idle (h : Emptied m (.idle : Control E Time)) : m.tq.inp = [] ∧ m.tq.out = [] := by
  rcases h with ⟨f, hset, hout⟩ | ⟨hc, -⟩
  · exact ⟨hset.inp, hout⟩
  · cases hc

omit [Add Time] [NatCast Time] in
theorem Emptied.enter (h : Emptied m (.idle : Control E Time)) (call : Call E Time) :
    Emptied (enter S m call).machine (enter S m call).control := by
  by_cases hadm : Accepts S m call
  · exact .inl ⟨_, (enter_quieting hadm).untimed⟩
  obtain ⟨hinp, hout⟩ := h.idle
  cases call with
  | acceptEvent e =>
    simp only [ForkNS.enter, acceptEvent, if_pos (not_le.mp hadm)]
    exact emptied_idle hinp hout
  | acceptTime now =>
    simp only [ForkNS.enter, acceptTime, if_pos (not_le.mp hadm)]
    exact .inr ⟨rfl, hinp, hout⟩
  | acceptConfirmation => exact absurd trivial hadm

theorem Emptied.tick (hm : Sound S m) {c : Control E Time} (h : Emptied m c)
    {x : Effect (ThreeLists E) E Time} (hx : Tick S m false c x) :
    Emptied x.machine x.control := by
  rcases h with ⟨f, hq⟩ | ⟨rfl, hinp, hout⟩
  · exact .inl ⟨f, hq.tick hm (fun _ hnow => by cases hnow) hx⟩
  · cases hx
    exact emptied_idle hinp hout

theorem lists_emptied {acts : List (Act E Time)} {s : Sys (ThreeLists E) E Time}
    (hthawed : .tick true ∉ acts) (h : runs (Sys.step S) (Sys.create .nil) acts = some s) :
    Emptied s.machine s.control := by
  induction acts using List.reverseRecOn generalizing s with
  | nil =>
    cases h
    exact emptied_idle rfl rfl
  | append_singleton acts a ih =>
    obtain ⟨u, hu, hstep⟩ := runs_snoc_some.mp h
    rw [List.mem_append, List.mem_singleton, not_or] at hthawed
    have hd := ih hthawed.1 hu
    cases a with
    | call call =>
      obtain ⟨hidle, rfl⟩ := Sys.step_call hstep
      rw [hidle] at hd
      exact hd.enter call
    | tick frozen =>
      obtain ⟨x, hx, rfl⟩ := Sys.step_tick hstep
      cases frozen with
      | true => exact absurd rfl hthawed.2
      | false => exact hd.tick (runs_sound hu) (tick_cases hx)

theorem lists_returned {acts : List (Act E Time)} {call : Call E Time} {n : ℕ}
    (hbuild : S.stdLibrary = false → .tick true ∉ acts) {s s' : Sys (ThreeLists E) E Time}
    (h : runs (Sys.step S) (Sys.create .nil) acts = some s)
    (hrange : ∀ e, call = .acceptEvent e → S.env.detailOf e ≤ S.maxKeycode)
    (hrun : runs (Sys.step S) s (.call call :: List.replicate n (.tick false)) = some s')
    (hidle : s'.control = .idle) :
    s'.machine.tq.inp = [] ∧ s'.machine.tq.out = [] ∧
      (Accepts S s.machine call → Settled call.forces call.timer s'.machine) := by
  by_cases hadm : Accepts S s.machine call
  · obtain ⟨-, hq⟩ := lists_quiescent (runs_sound h) hadm hrun
    rw [hidle] at hq
    exact ⟨hq.1.inp, hq.2, fun _ => hq.1⟩
  -- the call was turned away, and returns: there is no lock
  have hlib : S.stdLibrary = false := by
    by_contra hstd
    rw [Bool.not_eq_false] at hstd
    obtain ⟨s₁, hcall, hticks⟩ := Option.bind_eq_some_iff.mp hrun
    have hrelock : s₁.control = .relock := by
      obtain ⟨-, rfl⟩ := Sys.step_call hcall
      cases call with
      | acceptEvent e => exact absurd (hrange e rfl) hadm
      | acceptTime now =>
        show (acceptTime s.machine now).control = _
        rw [acceptTime, if_pos (not_le.mp hadm)]
      | acceptConfirmation => exact absurd trivial hadm
    have hticks' : runs (Sys.step S) s₁ ((List.replicate n false).map .tick) = some s' := by
      rwa [List.map_replicate]
    rw [relock_waits hstd hrelock hticks'] at hidle
    cases hidle
  have hthawed : .tick true ∉ acts ++ .call call :: List.replicate n (.tick false) := by
    simp [hbuild hlib]
  have hd := lists_emptied hthawed (runs_append_some.mpr ⟨s, h, hrun⟩)
  rw [hidle] at hd
  exact ⟨hd.idle.1, hd.idle.2, fun h => absurd h hadm⟩

end

/-! ## over the ring -/

variable [LinearOrder Time] [Zero Time] [Add Time] [NatCast Time] {S : Setup E Time}

omit [Zero Time] [Add Time] [NatCast Time] in
theorem Accepts.stands {c : ℕ} {m : Machine (Triqueue E) Time} {l : ListMachine E Time}
    {call : Call E Time} (hadm : Accepts S m call) (h : Stands c m l) : Accepts S l call := by
  cases h
  exact hadm

/-- **A call leaves nothing that could be handed over.**  A machine that never holds more than its
capacity, whose output is not frozen during the call, and nowhere before it in the build without
`std::mutex`: where a call returns, and its keycode is in range, the output and the input part are
empty, and the internal part is just while the state is normal.  After a timer that was not
rejected nothing is pending that is due, after a forced confirmation nothing at all. -/
theorem call_quiescent {c : ℕ} (hc : 2 ≤ c) {acts : List (Act E Time)} {call : Call E Time} {n : ℕ}
    (hbuild : S.stdLibrary = false → .tick true ∉ acts)
    (hw : WithinCapacity S c (acts ++ .call call :: List.replicate n (.tick false)))
    {s s' : Sys (Triqueue E) E Time}
    (h : runs (Sys.step S) (Sys.create (Triqueue.create c)) acts = some s)
    (hrange : ∀ e, call = .acceptEvent e → S.env.detailOf e ≤ S.maxKeycode)
    (hrun : runs (Sys.step S) s (.call call :: List.replicate n (.tick false)) = some s')
    (hidle : s'.control = .idle) :
    s'.machine.tq.canPop = false ∧ s'.machine.tq.thirdEmpty = true ∧
      (s'.machine.tq.middleEmpty = true ↔ s'.machine.state = .normal) ∧
      (∀ now, call = .acceptTime now → now ≠ 0 → s.machine.mCurrentTime ≤ now →
        s'.machine.state = .normal ∨ now < s'.machine.mDecisionTime) ∧
      (call = .acceptConfirmation →
        s'.machine.tq.empty = true ∧ s'.machine.state = .normal) := by
  obtain ⟨t', ht', halike'⟩ := ring_run hc hw (runs_append_some.mpr ⟨s, h, hrun⟩)
  obtain ⟨t, ht, hticks⟩ := runs_append_some.mp ht'
  have hstands := (ring_run_alike hc hw.left h ht).stands
  obtain ⟨hinp, hout, hset⟩ :=
    lists_returned hbuild ht hrange hticks (halike'.control ▸ hidle)
  have hrep := halike'.stands.rep
  have hnormal := (runs_sound ht').coherent.normal_iff
  rw [halike'.stands.state, halike'.stands.mDecisionTime, Triqueue.canPop_eq hrep,
    Triqueue.thirdEmpty_eq hrep, Triqueue.middleEmpty_eq hrep, Triqueue.empty_eq hrep]
  refine ⟨by rw [hout]; rfl, by rw [hinp]; rfl, ?_, ?_, ?_⟩
  · rw [List.isEmpty_iff]
    exact hnormal.symm
  · rintro now rfl hnow hcur
    have hadm : Accepts S s.machine (.acceptTime now) := hcur
    by_cases hn : t'.machine.state = .normal
    · exact .inl hn
    · exact .inr ((hset (hadm.stands hstands)).ahead now (by rw [Call.timer, if_neg hnow]; rfl) hn)
  · rintro rfl
    have hn := (hset trivial).forced rfl
    refine ⟨?_, hn⟩
    rw [ThreeLists.all, hout, hinp, hnormal.mp hn]
    rfl

theorem call_quiescent_early : ∃ s s',
    runs (Sys.step testSetup) (Sys.create (Triqueue.create 2))
      (during (.acceptEvent (down 3 100)) 7) = some s ∧
    runs (Sys.step testSetup) s (during (.acceptTime 200) 6) = some s' ∧
    s'.machine.mDecisionTime = 300 ∧
    s'.machine.tq.canPop = false ∧ s'.machine.tq.thirdEmpty = true ∧
      (s'.machine.tq.middleEmpty = true ↔ s'.machine.state = .normal) ∧
      (∀ now, Call.acceptTime (E := TestEvent) 200 = .acceptTime now → now ≠ 0 →
        s.machine.mCurrentTime ≤ now →
        s'.machine.state = .normal ∨ now < s'.machine.mDecisionTime) ∧
      (Call.acceptTime (E := TestEvent) 200 = .acceptConfirmation →
        s'.machine.tq.empty = true ∧ s'.machine.state = .normal) := by
  have hall := Option.eq_some_of_isSome (o := runs (Sys.step testSetup)
    (Sys.create (Triqueue.create 2))
    (during (.acceptEvent (down 3 100)) 7 ++ during (.acceptTime 200) 6)) (by decide)
  obtain ⟨s, hs, hs'⟩ := runs_append_some.mp hall
  exact ⟨s, _, hs, hs', by decide, call_quiescent (le_refl 2) (fun h => by cases h) (by decide) hs
    (fun e he => by cases he) hs' (by decide)⟩

end ForkNS
