import ForkPlugin.Machine.Coherent
import ForkPlugin.Machine.Flow
import ForkPlugin.Machine.Respond

/-!
# The machine as it is seen from outside

Freezing, flushing and the return of a call only carry events away.  The view of a running machine
has all that was ever sent in its output part: what was relayed, what is about to be relayed, and
what still waits there.

* `Sys.handed`, `Sys.view`   all events that left, in order; the machine with them;
* `Move`                     what a step can do to the view;
* `Sys.view_step`            every step does one of these moves;
* `Sys.view_ind`             the rule by which all properties of runs are proved: what holds of
                             the constructed machine and is kept by every move holds of the view
                             after every run.
-/

namespace ForkNS

open Runs Machine

variable {E Time : Type}

/-! ## what a step has in hand -/

def Control.inHand : Control E Time → List E
  | .relayEvent _ pevent => [pevent]
  | _ => []

/-- the running call is `accept_confirmation` -/
def Control.forcing : Control E Time → Bool
  | .runAutomaton f | .automatonLoop f | .flushLoop f | .relayEvent f _ | .flushEnd f
  | .pushTime f _ => f
  | .idle | .nextDecisionTime | .relock => false

@[simp] theorem inHand_afterAutomaton (f : Bool) :
    (afterAutomaton f : Control E Time).inHand = [] := by
  unfold afterAutomaton
  split_ifs <;> rfl

@[simp] theorem forcing_afterAutomaton (f : Bool) :
    (afterAutomaton f : Control E Time).forcing = false := by
  unfold afterAutomaton
  split_ifs <;> rfl

theorem relayed_append (xs ys : List (Obs E Time)) :
    relayed (xs ++ ys) = relayed xs ++ relayed ys := List.filterMap_append

@[simp] theorem relayed_nil : relayed ([] : List (Obs E Time)) = [] := rfl

@[simp] theorem relayed_frozen (b : Bool) :
    relayed ([.outputFrozen b] : List (Obs E Time)) = [] := rfl

@[simp] theorem relayed_relayEvent (e : E) :
    relayed ([.relayEvent e] : List (Obs E Time)) = [e] := rfl

@[simp] theorem relayed_pushTime (now : Time) :
    relayed ([.pushTime now] : List (Obs E Time)) = [] := rfl

@[simp] theorem relayed_returned (next : Time) :
    relayed ([.returned next] : List (Obs E Time)) = [] := rfl

namespace Sys

/-- all that left the internal and input parts for good -/
def handed (s : Sys (ThreeLists E) E Time) : List E :=
  relayed s.trace ++ s.control.inHand ++ s.machine.tq.out

def view (s : Sys (ThreeLists E) E Time) : ListMachine E Time :=
  s.machine.framed (relayed s.trace ++ s.control.inHand) [] s.machine.mCurrentTime

theorem view_mid (s : Sys (ThreeLists E) E Time) : s.view.tq.mid = s.machine.tq.mid := rfl

theorem view_inp (s : Sys (ThreeLists E) E Time) : s.view.tq.inp = s.machine.tq.inp :=
  List.append_nil _

end Sys

/-! ## moves -/

section
variable [LinearOrder Time] [Add Time] [Zero Time] [NatCast Time] (S : Setup E Time)

/-- `Move S a forcing m es m'`: the action `a` may turn the view `m` into `m'`, where `es` is
pushed -/
inductive Move (a : Act E Time) (forcing : Bool) (m : ListMachine E Time) :
    List E → ListMachine E Time → Prop
  | still : Move a forcing m [] m
  | clock (c : Time) (hc : c = 0 ∨ a = .call (.acceptTime c)) :
      Move a forcing m [] { m with mCurrentTime := c }
  | push (e : E) (ha : a = .call (.acceptEvent e)) :
      Move a forcing m [e] { m with
        mCurrentTime := 0, tq := ⟨m.tq.out, m.tq.mid, m.tq.inp ++ [e]⟩ }
  | key (e : E) (rest : List E) (hi : m.tq.inp = e :: rest) :
      Move a forcing m [] (m.enact S e (m.verdict S e))
  | time (hi : m.tq.inp = []) (hs : m.state ≠ .normal) (hc : m.mCurrentTime ≠ 0)
      (hd : m.mDecisionTime ≤ m.mCurrentTime) : Move a forcing m [] (m.forkHead S)
  | force (hf : forcing = true) (hi : m.tq.inp = []) (hs : m.state ≠ .normal) :
      Move a forcing m [] (m.forkHead S)

variable {S}

theorem Move.sound {a : Act E Time} {f : Bool} {m m' : ListMachine E Time} {es : List E}
    (h : Move S a f m es m') (hm : Sound S m) : Sound S m' := by
  cases h with
  | still => exact hm
  | clock c => exact ⟨hm.coherent, hm.headOpen, hm.bugs⟩
  | push e => exact ⟨hm.coherent, hm.headOpen, hm.bugs⟩
  | key e rest => exact hm.enact
  | time => exact hm.forkHead
  | force => exact hm.forkHead

end

/-! ## the locked parts of the flush -/

/-- popping an event takes it in hand -/
theorem popEventIfPresent_eq {m : ListMachine E Time} {e : E} {out : List E}
    (ho : m.tq.out = e :: out) :
    m.popEventIfPresent = (some e, { m with tq := ⟨out, m.tq.mid, m.tq.inp⟩ }) := by
  rcases m with ⟨_, _, _, _, _, _, _, _, _, _, ⟨o, mid, inp⟩, _⟩
  subst ho
  rfl

theorem popEventIfPresent_nil {m : ListMachine E Time} (ho : m.tq.out = []) :
    m.popEventIfPresent = (none, m) := by
  rw [popEventIfPresent, if_neg (by simp [TriqueueOps.canPop, ho])]

theorem pushTimeToNext_eq [Zero Time] (S : Setup E Time) (m : ListMachine E Time) :
    ∃ c, (c = 0 ∨ c = m.mCurrentTime) ∧ (m.pushTimeToNext S).2 = { m with mCurrentTime := c } := by
  unfold pushTimeToNext
  split
  · exact ⟨m.mCurrentTime, .inr rfl, rfl⟩
  · exact ⟨0, .inl rfl, rfl⟩

section
variable [LinearOrder Time] [Add Time] [Zero Time] [NatCast Time] {S : Setup E Time}

/-! ## one iteration of the loop -/

omit [LinearOrder Time] [Add Time] [NatCast Time] in
theorem transitionByForce_eq {m : ListMachine E Time} (hs : m.state ≠ .normal)
    (hmid : m.tq.mid ≠ []) : m.transitionByForce S = m.forkHead S := by
  have hme : TriqueueOps.middleEmpty m.tq = false := by
    simpa [TriqueueOps.middleEmpty] using hmid
  rw [transitionByForce, if_neg hs, hme]
  exact activateForkRewind_eq S hmid

theorem automatonBody_enact {m : ListMachine E Time} (hs : m.state = .normal ↔ m.tq.mid = [])
    {e : E} {rest : List E} (hi : m.tq.inp = e :: rest) {f : Bool} :
    m.automatonBody S f = (m.enact S e (m.verdict S e), true) := by
  have hte : TriqueueOps.thirdEmpty m.tq = false := by simp [TriqueueOps.thirdEmpty, hi]
  have hpe : TriqueueOps.peekThird m.tq = some e := by simp [TriqueueOps.peekThird, hi]
  rw [automatonBody_event hte hpe, ← transitionByKey_respond, transitionByKey_eq hs hi]

/-- What one iteration of the loop can do. -/
theorem automatonBody_cases {m : ListMachine E Time} (hm : Sound S m) (f : Bool) :
    (∃ e rest, m.tq.inp = e :: rest ∧
      m.automatonBody S f = (m.enact S e (m.verdict S e), true)) ∨
    (m.tq.inp = [] ∧ m.state ≠ .normal ∧
      (m.mCurrentTime ≠ 0 ∧ m.mDecisionTime ≤ m.mCurrentTime ∨ f = true) ∧
      m.automatonBody S f = (m.forkHead S, true)) ∨
    (m.tq.inp = [] ∧ (m.state ≠ .normal →
      f = false ∧ (m.mCurrentTime ≠ 0 → m.mCurrentTime < m.mDecisionTime)) ∧
      m.automatonBody S f = (m, false)) := by
  have hn := hm.coherent.normal_iff
  have hmid : m.state ≠ .normal → m.tq.mid ≠ [] := fun hs h => hs (hn.mpr h)
  have hinp : TriqueueOps.thirdEmpty m.tq = true → m.tq.inp = [] := List.isEmpty_iff.mp
  generalize hb : m.automatonBody S f = x
  obtain ⟨m', again⟩ := x
  cases automatonBody_iteration hb with
  | unread hi hp =>
    have hnil : m.tq.inp = [] := List.head?_eq_none_iff.mp hp
    rw [show TriqueueOps.thirdEmpty m.tq = true from List.isEmpty_iff.mpr hnil] at hi
    cases hi
  | event e hi hp =>
    obtain ⟨rest, hrest⟩ := List.head?_eq_some_iff.mp hp
    refine .inl ⟨e, rest, hrest, ?_⟩
    rw [← transitionByKey_respond, transitionByKey_eq hn hrest]
  | time hi hd =>
    refine .inr (.inl ⟨hinp hi, hd.1, .inl hd.2, ?_⟩)
    rw [activateForkRewind_eq S (hmid hd.1)]
  | force hi hd hf hs =>
    refine .inr (.inl ⟨hinp hi, hs, .inr hf, ?_⟩)
    rw [transitionByForce_eq hs (hmid hs)]
  | done hi hd hs =>
    refine .inr (.inr ⟨hinp hi, fun hsus => ⟨?_, fun hc => ?_⟩, rfl⟩)
    · exact Bool.eq_false_iff.mpr fun hf => hs ⟨hf, hsus⟩
    · exact not_le.mp fun hle => hd ⟨hsus, hc, hle⟩

theorem automatonBody_move {m : ListMachine E Time} (hm : Sound S m) (a : Act E Time) (f : Bool)
    (l : List E) : Move S a f (m.framed l [] m.mCurrentTime) []
      ((m.automatonBody S f).1.framed l [] (m.automatonBody S f).1.mCurrentTime) := by
  have hi' : (m.framed l [] m.mCurrentTime).tq.inp = m.tq.inp := List.append_nil _
  rcases automatonBody_cases hm f with ⟨e, rest, hi, hb⟩ | ⟨hi, hs, hc, hb⟩ | ⟨-, -, hb⟩
  · rw [hb, enact_mCurrentTime, ← enact_framed S l [] m.mCurrentTime (by simp [hi])]
    exact .key e rest (hi'.trans hi)
  · rw [hb, forkHead_mCurrentTime, ← forkHead_framed S l [] m.mCurrentTime]
    rcases hc with ⟨hc, hd⟩ | hf
    · exact .time (hi'.trans hi) hs hc hd
    · exact .force hf (hi'.trans hi) hs
  · rw [hb]
    exact .still

/-! ## every step is a move of the view -/

/-- the first block of a call -/
theorem enter_move (m : ListMachine E Time) (c : Call E Time) (l : List E) :
    relayed (enter S m c).seen = [] ∧ (enter S m c).control.inHand = [] ∧
      Move S (.call c) false (m.framed l [] m.mCurrentTime) (enter S m c).pushed
        ((enter S m c).machine.framed l [] (enter S m c).machine.mCurrentTime) := by
  cases c with
  | acceptEvent e =>
    simp only [enter, acceptEvent]
    split_ifs
    · exact ⟨rfl, rfl, .clock 0 (.inl rfl)⟩
    · exact ⟨rfl, rfl, .clock 0 (.inl rfl)⟩
    · refine ⟨rfl, rfl, ?_⟩
      have hp : Move S (.call (.acceptEvent e)) false (m.framed l [] m.mCurrentTime) [e] _ :=
        .push e rfl
      simpa [framed, TriqueueOps.push] using hp
  | acceptTime now =>
    simp only [enter, acceptTime]
    split_ifs
    · exact ⟨rfl, rfl, .still⟩
    · exact ⟨rfl, rfl, .clock now (.inr rfl)⟩
  | acceptConfirmation => exact ⟨rfl, rfl, .still⟩

/-- the further steps of a call, one constructor for each branch -/
inductive Tick (S : Setup E Time) (m : ListMachine E Time) :
    Bool → Control E Time → Effect (ThreeLists E) E Time → Prop
  | runAutomaton (frozen f : Bool) : Tick S m frozen (.runAutomaton f)
      { machine := m, control := .automatonLoop f }
  | body (f : Bool) : Tick S m false (.automatonLoop f)
      { machine := (m.automatonBody S f).1, seen := [.outputFrozen false],
        control := if (m.automatonBody S f).2 then .automatonLoop f else .flushLoop f }
  | bodyFrozen (f : Bool) : Tick S m true (.automatonLoop f)
      { machine := m, control := .flushLoop f, seen := [.outputFrozen true] }
  | pop (f : Bool) (e : E) (out : List E) (ho : m.tq.out = e :: out) : Tick S m false (.flushLoop f)
      { machine := { m with tq := ⟨out, m.tq.mid, m.tq.inp⟩ }, control := .relayEvent f e,
        seen := [.outputFrozen false] }
  | popNone (f : Bool) (ho : m.tq.out = []) : Tick S m false (.flushLoop f)
      { machine := m, control := .flushEnd f, seen := [.outputFrozen false] }
  | popFrozen (f : Bool) : Tick S m true (.flushLoop f)
      { machine := m, control := .flushEnd f, seen := [.outputFrozen true] }
  | relay (frozen f : Bool) (e : E) : Tick S m frozen (.relayEvent f e)
      { machine := m, control := .flushLoop f, seen := [.relayEvent e] }
  | endTime (f : Bool) (c now : Time) (hc : c = 0 ∨ c = m.mCurrentTime) :
      Tick S m false (.flushEnd f)
        { machine := { m with mCurrentTime := c }, control := .pushTime f now,
          seen := [.outputFrozen false] }
  | endNone (f : Bool) (c : Time) (hc : c = 0 ∨ c = m.mCurrentTime) : Tick S m false (.flushEnd f)
      { machine := { m with mCurrentTime := c }, control := afterAutomaton f,
        seen := [.outputFrozen false] }
  | endFrozen (f : Bool) : Tick S m true (.flushEnd f)
      { machine := m, control := afterAutomaton f, seen := [.outputFrozen true] }
  | pushTime (frozen f : Bool) (now : Time) : Tick S m frozen (.pushTime f now)
      { machine := m, control := afterAutomaton f, seen := [.pushTime now] }
  | nextDecisionTime (frozen : Bool) : Tick S m frozen .nextDecisionTime
      { machine := m, control := .idle, seen := [.returned m.nextDecisionTime] }
  | relock (frozen : Bool) (hl : S.stdLibrary = false) : Tick S m frozen .relock
      { machine := m, control := .idle, seen := [.returned m.nextDecisionTime] }

theorem tick_cases {m : ListMachine E Time} {frozen : Bool} {c : Control E Time}
    {x : Effect (ThreeLists E) E Time} (h : tick S m frozen c = some x) : Tick S m frozen c x := by
  cases tick_flow h with
  | runAutomaton frozen f => exact .runAutomaton frozen f
  | again f m' hb =>
    have hbody := Tick.body (S := S) (m := m) f
    rwa [hb] at hbody
  | done f m' hb =>
    have hbody := Tick.body (S := S) (m := m) f
    rwa [hb] at hbody
  | bodyFrozen f => exact .bodyFrozen f
  | pop f e m' hp =>
    rcases ho : m.tq.out with - | ⟨e', out⟩
    · rw [popEventIfPresent_nil ho] at hp
      cases hp
    · rw [popEventIfPresent_eq ho] at hp
      cases hp
      exact .pop f e out ho
  | popNone f m' hp =>
    rcases ho : m.tq.out with - | ⟨e, out⟩
    · rw [popEventIfPresent_nil ho] at hp
      cases hp
      exact .popNone f ho
    · rw [popEventIfPresent_eq ho] at hp
      cases hp
  | popFrozen f => exact .popFrozen f
  | relay frozen f e => exact .relay frozen f e
  | endTime f now m' hp =>
    obtain ⟨c, hc, hclock⟩ := pushTimeToNext_eq S m
    rw [hp] at hclock
    rw [show m' = _ from hclock]
    exact .endTime f c now hc
  | endNone f m' hp =>
    obtain ⟨c, hc, hclock⟩ := pushTimeToNext_eq S m
    rw [hp] at hclock
    rw [show m' = _ from hclock]
    exact .endNone f c hc
  | endFrozen f => exact .endFrozen f
  | pushTime frozen f now => exact .pushTime frozen f now
  | nextDecisionTime frozen => exact .nextDecisionTime frozen
  | relock frozen hl => exact .relock frozen hl

/-- a further step of a call -/
theorem tick_move {m : ListMachine E Time} (hm : Sound S m) {frozen : Bool} {c : Control E Time}
    {x : Effect (ThreeLists E) E Time} (h : Tick S m frozen c x) (a : Act E Time)
    (l : List E) : x.pushed = [] ∧
      Move S a c.forcing (m.framed (l ++ c.inHand) [] m.mCurrentTime) []
        (x.machine.framed (l ++ relayed x.seen ++ x.control.inHand) [] x.machine.mCurrentTime) := by
  -- a step that shows no event, takes none in hand and leaves the machine as it is
  have hquiet : ∀ x : Effect (ThreeLists E) E Time, x.machine = m → x.pushed = [] →
      relayed x.seen ++ x.control.inHand = c.inHand → x.pushed = [] ∧
      Move S a c.forcing (m.framed (l ++ c.inHand) [] m.mCurrentTime) []
        (x.machine.framed (l ++ relayed x.seen ++ x.control.inHand) [] x.machine.mCurrentTime) := by
    intro x hxm hxp hxl
    rw [hxm, List.append_assoc, hxl]
    exact ⟨hxp, .still⟩
  -- a step that sets the clock to zero, or leaves it
  have hclock : ∀ (f : Bool) (c' : Time), c' = 0 ∨ c' = m.mCurrentTime →
      Move S a f (m.framed l [] m.mCurrentTime) []
        (({ m with mCurrentTime := c' } : ListMachine E Time).framed l [] c') := by
    rintro f c' (rfl | rfl)
    · exact .clock 0 (.inl rfl)
    · exact .still
  cases h with
  | body f =>
    refine ⟨rfl, ?_⟩
    have hin : (if (m.automatonBody S f).2 then (Control.automatonLoop f : Control E Time)
        else .flushLoop f).inHand = [] := by
      split_ifs <;> rfl
    show Move S a f (m.framed (l ++ []) [] m.mCurrentTime) [] _
    simp only [hin, relayed_frozen, List.append_nil]
    exact automatonBody_move hm a f l
  | pop f e out ho =>
    refine ⟨rfl, ?_⟩
    have hout : (l ++ [e]) ++ out = l ++ m.tq.out := by simp [ho]
    show Move S a f (m.framed (l ++ []) [] m.mCurrentTime) [] _
    simp only [relayed_frozen, List.append_nil, framed, Control.inHand, hout]
    exact .still
  | endTime f c now hc =>
    refine ⟨rfl, ?_⟩
    show Move S a f (m.framed (l ++ []) [] m.mCurrentTime) []
      (({ m with mCurrentTime := c } : ListMachine E Time).framed (l ++ [] ++ []) [] c)
    rw [List.append_nil, List.append_nil]
    exact hclock f c hc
  | endNone f c hc =>
    refine ⟨rfl, ?_⟩
    show Move S a f (m.framed (l ++ []) [] m.mCurrentTime) []
      (({ m with mCurrentTime := c } : ListMachine E Time).framed
        (l ++ [] ++ (afterAutomaton f : Control E Time).inHand) [] c)
    rw [inHand_afterAutomaton, List.append_nil, List.append_nil]
    exact hclock f c hc
  | endFrozen f => exact hquiet _ rfl rfl (inHand_afterAutomaton f)
  | pushTime _ f now => exact hquiet _ rfl rfl (inHand_afterAutomaton f)
  | _ => exact hquiet _ rfl rfl rfl

theorem Sys.view_step {s s' : Sys (ThreeLists E) E Time} {a : Act E Time} (hs : Sound S s.machine)
    (h : s.step S a = some s') :
    ∃ es, s'.pushed = s.pushed ++ es ∧ Move S a s.control.forcing s.view es s'.view := by
  cases a with
  | call c =>
    obtain ⟨hc, rfl⟩ := step_call h
    obtain ⟨hr, hi, hmove⟩ := enter_move (S := S) s.machine c (relayed s.trace)
    have hin : s.control.inHand = [] := by
      rw [hc]
      rfl
    refine ⟨_, rfl, ?_⟩
    rw [view, view, apply, relayed_append, hr, hi, hin, List.append_nil, List.append_nil, hc]
    exact hmove
  | tick frozen =>
    obtain ⟨x, hx, rfl⟩ := step_tick h
    obtain ⟨hp, hmove⟩ := tick_move hs (tick_cases hx) (.tick frozen) (relayed s.trace)
    refine ⟨[], by rw [apply, hp], ?_⟩
    rw [view, view, apply, relayed_append]
    exact hmove

theorem Sys.step_sound {s s' : Sys (ThreeLists E) E Time} {a : Act E Time}
    (hs : Sound S s.machine) (h : s.step S a = some s') : Sound S s'.machine := by
  obtain ⟨es, -, hmove⟩ := Sys.view_step hs h
  have hv : Sound S s.view := ⟨hs.coherent, hs.headOpen, hs.bugs⟩
  have hv' := hmove.sound hv
  exact ⟨hv'.coherent, hv'.headOpen, hv'.bugs⟩

/-! ## runs -/

omit [Add Time] [NatCast Time] in
theorem enter_forcing {m : ListMachine E Time} {c : Call E Time}
    (h : (enter S m c).control.forcing = true) : c = .acceptConfirmation := by
  cases c with
  | acceptEvent e =>
    simp only [enter, acceptEvent] at h
    split_ifs at h <;> cases h
  | acceptTime now =>
    simp only [enter, acceptTime] at h
    split_ifs at h <;> cases h
  | acceptConfirmation => rfl

theorem tick_forcing {m : ListMachine E Time} {frozen : Bool} {c : Control E Time}
    {x : Effect (ThreeLists E) E Time} (h : Tick S m frozen c x)
    (hf : x.control.forcing = true) : c.forcing = true := by
  cases h with
  | body f =>
    dsimp only at hf
    split_ifs at hf <;> exact hf
  | endNone f => exact absurd hf (by simp)
  | endFrozen f => exact absurd hf (by simp)
  | pushTime frozen f now => exact absurd hf (by simp)
  | relock => cases hf
  | nextDecisionTime => cases hf
  | _ => exact hf

/-- a call that forces was made by `accept_confirmation` -/
theorem Sys.forcing_step {s s' : Sys (ThreeLists E) E Time} {a : Act E Time}
    (h : s.step S a = some s') (hf : s'.control.forcing = true) :
    s.control.forcing = true ∨ a = .call .acceptConfirmation := by
  cases a with
  | call c =>
    obtain ⟨-, rfl⟩ := step_call h
    exact .inr (congrArg _ (enter_forcing hf))
  | tick frozen =>
    obtain ⟨x, hx, rfl⟩ := step_tick h
    exact .inl (tick_forcing (tick_cases hx) hf)

/-- **Run rule for the view.**  Every property of the actions so far, the events pushed so far
and the view holds after every run, if it holds of the constructed machine and every move of a
sound view keeps it. -/
theorem Sys.view_ind {P : List (Act E Time) → List E → ListMachine E Time → Prop}
    (h0 : P [] [] (Machine.create .nil))
    (hmove : ∀ acts a f es m es' m', (f = true → Act.call .acceptConfirmation ∈ acts) →
      Sound S m → P acts es m → Move S a f m es' m' → P (acts ++ [a]) (es ++ es') m')
    {acts : List (Act E Time)} {s : Sys (ThreeLists E) E Time}
    (h : runs (Sys.step S) (Sys.create .nil) acts = some s) :
    Sound S s.machine ∧ P acts s.pushed s.view := by
  have hall : ∀ acts s, runs (Sys.step S) (Sys.create .nil) acts = some s →
      (s.control.forcing = true → Act.call .acceptConfirmation ∈ acts) ∧ Sound S s.machine ∧
        P acts s.pushed s.view := by
    refine runs_ind ⟨by simp [Sys.create, Control.forcing], create_sound, h0⟩ ?_
    rintro acts u a v ⟨hf, hs, hP⟩ hstep
    obtain ⟨es, hes, hm⟩ := view_step hs hstep
    have hsu : Sound S u.view := ⟨hs.coherent, hs.headOpen, hs.bugs⟩
    have hsv := hm.sound hsu
    refine ⟨fun hfv => ?_, ⟨hsv.coherent, hsv.headOpen, hsv.bugs⟩, ?_⟩
    · rcases forcing_step hstep hfv with hfu | rfl
      · exact List.mem_append_left _ (hf hfu)
      · simp
    · rw [hes]
      exact hmove acts a _ u.pushed u.view es v.view hf hsu hP hm
  exact (hall acts s h).2

theorem runs_sound {acts : List (Act E Time)} {s : Sys (ThreeLists E) E Time}
    (h : runs (Sys.step S) (Sys.create .nil) acts = some s) : Sound S s.machine :=
  (Sys.view_ind (P := fun _ _ _ => True) trivial (fun _ _ _ _ _ _ _ _ _ _ _ => trivial) h).1

/-! ## steps that are not frozen -/

theorem Sys.unfrozen_cases {s s' : Sys (ThreeLists E) E Time} (h : s.unfrozen S = some s') :
    ∃ x, Tick S s.machine false s.control x ∧ s' = s.apply x := by
  obtain ⟨x, hx, rfl⟩ := Sys.step_tick h
  exact ⟨x, tick_cases hx, rfl⟩

theorem Tick.pushed {m : ListMachine E Time} {frozen : Bool} {c : Control E Time}
    {x : Effect (ThreeLists E) E Time} (h : Tick S m frozen c x) : x.pushed = [] := by
  cases h <;> rfl

theorem Sys.unfrozen_pushed {s s' : Sys (ThreeLists E) E Time} (h : s.unfrozen S = some s') :
    s'.pushed = s.pushed := by
  obtain ⟨x, hx, rfl⟩ := Sys.unfrozen_cases h
  rw [Sys.apply, hx.pushed, List.append_nil]

theorem Sys.unfrozen_sound {s s' : Sys (ThreeLists E) E Time} (hs : Sound S s.machine)
    (h : s.unfrozen S = some s') : Sound S s'.machine :=
  Sys.step_sound hs h

end

end ForkNS
