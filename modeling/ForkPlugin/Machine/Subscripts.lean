import ForkPlugin.Machine.Calls

/-!
# The subscripts of the tables of keys

`forkActive`, `fork_keycode` and `fork_repeatable` are arrays of `MAX_KEYCODE` cells.  For each
function of the machine the subscripts that it uses are listed here, in the order of the source; an
operand that `&&` skips uses none.  The next step of a call uses those of `Sys.subscripts`.

* `Subscript`              a table and the subscript;
* `…Subscripts`            what a function of `machine.h` uses;
* `HeadsIn`                the events that the next transition can read are in range;
* `tick_subscripts_in`     then so are all the subscripts that it uses.
-/

namespace ForkNS

inductive KeyTable where
  | forkActive
  | forkKeycode
  | forkRepeatable
deriving DecidableEq, Repr

abbrev Subscript := KeyTable × Keycode

variable {Q E Time : Type}

namespace Machine
open TriqueueOps

section
variable [TriqueueOps Q E] [Zero Time] (S : Setup E Time)

def activateForkRewindSubscripts (m : Machine Q Time) : List Subscript :=
  if middleEmpty m.tq then []
  else
    match peekMiddle m.tq with
    | none => []
    | some pevent =>
      let originalKey := S.env.detailOf pevent
      [(.forkActive, originalKey), (.forkKeycode, originalKey)]

end

section
variable [TriqueueOps Q E] [LinearOrder Time] [Add Time] [Zero Time] [NatCast Time]
  (S : Setup E Time)

omit [TriqueueOps Q E] [LinearOrder Time] [Add Time] [Zero Time] [NatCast Time] in
/-- `forkable_p`, then `key_forked`; or `forkActive[key] != no_key` -/
def applyEventToNormalSubscripts (pevent : E) : List Subscript :=
  let key := S.env.detailOf pevent
  (.forkKeycode, key) ::
    if forkableP S key && S.env.pressP pevent && !S.env.ignoreEvent pevent then
      [(.forkActive, key)]
    else if S.env.releaseP pevent then [(.forkActive, key)]
    else []

def applyEventToSuspectSubscripts (m : Machine Q Time) (pevent : E) : List Subscript :=
  let key := S.env.detailOf pevent
  if S.env.releaseP pevent then []
  else if key = m.suspect then
    (.forkRepeatable, key) ::
      if S.config.forkRepeatable key then [(.forkActive, m.suspect)] else []
  else []

def transitionByKeySubscripts (m : Machine Q Time) (pevent : E) : List Subscript :=
  let key := S.env.detailOf pevent
  (.forkActive, key) ::
    if m.keyForked key && S.env.pressP pevent && key != m.forkActive key then
      m.moveToSecond.activateForkRewindSubscripts S
    else if m.state = .normal then applyEventToNormalSubscripts S pevent
    else if S.env.timeOf pevent ≥ m.mDecisionTime then m.activateForkRewindSubscripts S
    else if !S.env.pressP pevent && !S.env.releaseP pevent then []
    else if m.state = .suspect then m.applyEventToSuspectSubscripts S pevent
    -- apply_event_to_verify_state uses none
    else []

def transitionByTimeSubscripts (m : Machine Q Time) (currentTime : Time) : List Subscript :=
  if m.state = .normal then []
  else if currentTime ≥ m.mDecisionTime then m.activateForkRewindSubscripts S
  else []

def transitionByForceSubscripts (m : Machine Q Time) : List Subscript :=
  if m.state = .normal then []
  else if !middleEmpty m.tq then m.activateForkRewindSubscripts S
  else []

def forceOrBreakSubscripts (forceAlso : Bool) (m : Machine Q Time) : List Subscript :=
  if forceAlso ∧ m.state ≠ .normal then m.transitionByForceSubscripts S else []

def automatonBodySubscripts (forceAlso : Bool) (m : Machine Q Time) : List Subscript :=
  if !thirdEmpty m.tq then
    match peekThird m.tq with
    | none => []
    | some event => m.transitionByKeySubscripts S event
  else if m.state ≠ .normal ∧ m.mCurrentTime ≠ 0 then
    let (m', decided) := m.transitionByTime S m.mCurrentTime
    m.transitionByTimeSubscripts S m.mCurrentTime ++
      if decided then [] else forceOrBreakSubscripts S forceAlso m'
  else forceOrBreakSubscripts S forceAlso m

end

end Machine

open TriqueueOps Machine

section
variable [TriqueueOps Q E] [LinearOrder Time] [Add Time] [Zero Time] [NatCast Time]
  (S : Setup E Time)

/-- the first block of a call; `accept_event` looks whether a press is forked -/
def enterSubscripts : Call E Time → List Subscript
  | .acceptEvent pevent =>
    let key := S.env.detailOf pevent
    if key > S.maxKeycode then []
    else if S.env.pressP pevent then [(.forkActive, key)]
    else []
  | _ => []

def tickSubscripts (m : Machine Q Time) (frozen : Bool) : Control E Time → List Subscript
  | .automatonLoop forceAlso => if frozen then [] else m.automatonBodySubscripts S forceAlso
  | _ => []

/-- what a step uses, when it is made -/
def Sys.subscripts (s : Sys Q E Time) : Act E Time → List Subscript
  | .call c =>
    match s.control with
    | .idle => enterSubscripts S c
    | _ => []
  | .tick frozen => tickSubscripts S s.machine frozen s.control

end

/-! ## what a step can read -/

section
variable [TriqueueOps Q E] {S : Setup E Time} {P : Keycode → Prop} {q : Q}

def MiddleIn (S : Setup E Time) (P : Keycode → Prop) (q : Q) : Prop :=
  ∀ e, middleEmpty q = false → peekMiddle q = some e → P (S.env.detailOf e)

/-- the keycodes of the events that a transition reads: the heads of the input and the internal
part, also after the first was moved to the second -/
structure HeadsIn (S : Setup E Time) (P : Keycode → Prop) (q : Q) : Prop where
  third : ∀ e, thirdEmpty q = false → peekThird q = some e → P (S.env.detailOf e)
  middle : MiddleIn S P q
  moved : MiddleIn S P (TriqueueOps.moveToSecond q)

theorem activate_subscripts_in {m : Machine Q Time} (h : MiddleIn S P m.tq) :
    ∀ x ∈ m.activateForkRewindSubscripts S, P x.2 := by
  unfold activateForkRewindSubscripts
  cases hm : middleEmpty m.tq with
  | true => simp
  | false =>
    cases hp : peekMiddle m.tq with
    | none => simp
    | some e =>
      have he := h e hm hp
      simpa using he

variable [LinearOrder Time] [Add Time] [Zero Time] [NatCast Time] {m : Machine Q Time}

omit [TriqueueOps Q E] [LinearOrder Time] [Add Time] [Zero Time] [NatCast Time] in
theorem normal_subscripts_in {e : E} (he : P (S.env.detailOf e)) :
    ∀ x ∈ applyEventToNormalSubscripts S e, P x.2 := by
  intro x hx
  simp only [applyEventToNormalSubscripts] at hx
  split_ifs at hx <;> simp only [List.mem_cons, List.not_mem_nil, or_false] at hx
  · rcases hx with rfl | rfl <;> exact he
  · rcases hx with rfl | rfl <;> exact he
  · rw [hx]
    exact he

omit [TriqueueOps Q E] [LinearOrder Time] [Add Time] [Zero Time] [NatCast Time] in
theorem suspect_subscripts_in {e : E} (he : P (S.env.detailOf e)) :
    ∀ x ∈ m.applyEventToSuspectSubscripts S e, P x.2 := by
  intro x hx
  simp only [applyEventToSuspectSubscripts] at hx
  split_ifs at hx with hr hk hc
  · cases hx
  · -- the suspect is the key of the event
    rw [← hk] at hx
    simp only [List.mem_cons, List.not_mem_nil, or_false] at hx
    rcases hx with rfl | rfl <;> exact he
  · rw [List.mem_singleton.mp hx]
    exact he
  · cases hx

omit [Add Time] [Zero Time] [NatCast Time] in
theorem key_subscripts_in (h : HeadsIn S P m.tq) {e : E} (he : P (S.env.detailOf e)) :
    ∀ x ∈ m.transitionByKeySubscripts S e, P x.2 := by
  intro x hx
  simp only [transitionByKeySubscripts] at hx
  rcases List.mem_cons.mp hx with rfl | hx
  · exact he
  split_ifs at hx
  · exact activate_subscripts_in (m := m.moveToSecond) (m.moveToSecond_tq ▸ h.moved) x hx
  · exact normal_subscripts_in he x hx
  · exact activate_subscripts_in h.middle x hx
  · cases hx
  · exact suspect_subscripts_in he x hx
  · cases hx

omit [Add Time] [Zero Time] [NatCast Time] in
theorem time_subscripts_in (h : MiddleIn S P m.tq) (t : Time) :
    ∀ x ∈ m.transitionByTimeSubscripts S t, P x.2 := by
  intro x hx
  simp only [transitionByTimeSubscripts] at hx
  split_ifs at hx with hs ht
  · cases hx
  · exact activate_subscripts_in h x hx
  · cases hx

omit [LinearOrder Time] [Add Time] [Zero Time] [NatCast Time] in
theorem force_subscripts_in (h : MiddleIn S P m.tq) (f : Bool) :
    ∀ x ∈ m.forceOrBreakSubscripts S f, P x.2 := by
  intro x hx
  simp only [forceOrBreakSubscripts, transitionByForceSubscripts] at hx
  split_ifs at hx
  · cases hx
  · exact activate_subscripts_in h x hx
  · cases hx
  · cases hx

omit [Add Time] [NatCast Time] in
/-- a timer that decides nothing leaves the queue -/
theorem transitionByTime_tq {t : Time} (h : (m.transitionByTime S t).2 = false) :
    (m.transitionByTime S t).1.tq = m.tq := by
  simp only [transitionByTime] at h ⊢
  split_ifs at h ⊢
  · rfl
  · rfl

omit [Add Time] [NatCast Time] in
theorem body_subscripts_in (h : HeadsIn S P m.tq) (f : Bool) :
    ∀ x ∈ m.automatonBodySubscripts S f, P x.2 := by
  intro x hx
  simp only [automatonBodySubscripts] at hx
  cases hi : thirdEmpty m.tq with
  | false =>
    cases hp : peekThird m.tq with
    | none => simp [hi, hp] at hx
    | some e =>
      simp only [hi, hp] at hx
      exact key_subscripts_in h (h.third e hi hp) x hx
  | true =>
    simp only [hi, Bool.not_true, Bool.false_eq_true, if_false] at hx
    split_ifs at hx with hc hdecided
    · rw [List.append_nil] at hx
      exact time_subscripts_in h.middle _ x hx
    · rw [Bool.not_eq_true] at hdecided
      rcases List.mem_append.mp hx with hx | hx
      · exact time_subscripts_in h.middle _ x hx
      · refine force_subscripts_in ?_ f x hx
        rw [transitionByTime_tq hdecided]
        exact h.middle
    · exact force_subscripts_in h.middle f x hx

omit [Add Time] [NatCast Time] in
theorem tick_subscripts_in (h : HeadsIn S P m.tq) (frozen : Bool) (c : Control E Time) :
    ∀ x ∈ tickSubscripts S m frozen c, P x.2 := by
  intro x hx
  cases c with
  | automatonLoop f =>
    simp only [tickSubscripts] at hx
    split_ifs at hx
    · cases hx
    · exact body_subscripts_in h f x hx
  | _ => cases hx

end

end ForkNS
