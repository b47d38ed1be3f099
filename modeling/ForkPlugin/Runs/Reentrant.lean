import ForkPlugin.Runs.Conserve

/-!
# The environment calls back

There is one thread.  From inside `relay_event` and `push_time` the environment may call the
machine again, and so may those calls; there, and while no call runs, it may freeze and thaw its
output.

* `Frame`      one call that has not returned; `callback` says that it waits for the environment;
* `Reentrant`  the machine and the stack of its calls, the innermost first; the trace says with
               each observation whether the output was frozen then;
* `Nested`     only the innermost call may have an event in hand, and then the output is thawed;
* `reentrant_order`   so events are relayed once and in order, none while the output is frozen.
-/

namespace ForkNS

open Runs Machine

variable {E Time : Type}

structure Frame (E Time : Type) where
  control : Control E Time
  callback : Bool

structure Reentrant (E Time : Type) where
  machine : Machine (Triqueue E) Time
  stack : List (Frame E Time)
  frozen : Bool
  pushed : List E
  trace : List (Bool × Obs E Time)

inductive ReentrantAct (E Time : Type) where
  | call (c : Call E Time)       -- the environment calls the machine
  | tick                         -- the innermost call goes on
  | freeze (frozen : Bool)       -- the environment freezes or thaws its output
  | resume                       -- the environment returns to the innermost call
deriving DecidableEq

namespace Reentrant

def create [Zero Time] (c : ℕ) : Reentrant E Time :=
  ⟨Machine.create (Triqueue.create c), [], false, [], []⟩

/-- no call runs, or the innermost one waits for the environment -/
def waits (s : Reentrant E Time) : Bool :=
  match s.stack with
  | [] => true
  | frame :: _ => frame.callback

/-- a call that has come to its end leaves the stack -/
def onStack (control : Control E Time) (callback : Bool) (rest : List (Frame E Time)) :
    List (Frame E Time) :=
  match control, callback with
  | .idle, false => rest
  | _, _ => ⟨control, callback⟩ :: rest

def apply (s : Reentrant E Time) (x : Effect (Triqueue E) E Time) (callback : Bool)
    (rest : List (Frame E Time)) : Reentrant E Time where
  machine := x.machine
  stack := onStack x.control callback rest
  frozen := s.frozen
  pushed := s.pushed ++ x.pushed
  trace := s.trace ++ x.seen.map (s.frozen, ·)

variable [LinearOrder Time] [Add Time] [Zero Time] [NatCast Time] (S : Setup E Time)

def step (s : Reentrant E Time) : ReentrantAct E Time → Option (Reentrant E Time)
  | .call c => if s.waits then some (s.apply (enter S s.machine c) false s.stack) else none
  | .freeze frozen => if s.waits then some { s with frozen := frozen } else none
  | .tick =>
    match s.stack with
    | ⟨control, false⟩ :: rest =>
      (ForkNS.tick S s.machine s.frozen control).map (s.apply · control.outside rest)
    | _ => none
  | .resume =>
    match s.stack with
    | ⟨control, true⟩ :: rest => some { s with stack := onStack control false rest }
    | _ => none

/-- after the step the ring holds no more than `c` -/
def Fits (c : ℕ) (s : Reentrant E Time) (a : ReentrantAct E Time) : Prop :=
  ∀ t ∈ s.step S a, t.machine.tq.buffer.contentsSize ≤ c

instance (c : ℕ) (s : Reentrant E Time) (a : ReentrantAct E Time) : Decidable (s.Fits S c a) :=
  inferInstanceAs (Decidable (∀ t ∈ s.step S a, _))

/-- what was relayed, in the order in which the calls of `relay_event` began -/
def relays (s : Reentrant E Time) : List E := relayed (s.trace.map Prod.snd)

/-! ## the stack of calls -/

/-- what the innermost call has in hand -/
def topHand (stack : List (Frame E Time)) : List E :=
  stack.head?.elim [] fun frame => frame.control.inHand

/-- these calls wait for the environment, with nothing in hand -/
def Waiting (stack : List (Frame E Time)) : Prop :=
  ∀ frame ∈ stack, frame.callback = true ∧ frame.control.inHand = []

omit [LinearOrder Time] [Add Time] [Zero Time] [NatCast Time] in
theorem Waiting.topHand {stack : List (Frame E Time)} (h : Waiting stack) : topHand stack = [] := by
  cases stack with
  | nil => rfl
  | cons frame rest => exact (h frame List.mem_cons_self).2

/-- all calls but the innermost wait -/
structure Nested (stack : List (Frame E Time)) : Prop where
  below : Waiting stack.tail
  top : ∀ frame ∈ stack.head?, frame.callback = true → frame.control.inHand = []

omit [LinearOrder Time] [Add Time] [Zero Time] [NatCast Time] in
/-- where the innermost call waits as well, all do -/
theorem Nested.waiting {s : Reentrant E Time} (h : Nested s.stack) (hw : s.waits = true) :
    Waiting s.stack := by
  unfold waits at hw
  obtain ⟨hbelow, htop⟩ := h
  generalize s.stack = stack at hw hbelow htop ⊢
  cases stack with
  | nil => exact fun frame hf => absurd hf List.not_mem_nil
  | cons frame rest =>
    intro fr hfr
    rcases List.mem_cons.mp hfr with rfl | hfr
    · exact ⟨hw, htop fr rfl hw⟩
    · exact hbelow fr hfr

omit [LinearOrder Time] [Add Time] [Zero Time] [NatCast Time] in
/-- one more call, or one that has come to its end -/
theorem Waiting.onStack {rest : List (Frame E Time)} (h : Waiting rest) {control : Control E Time}
    {callback : Bool} (hc : callback = true → control.inHand = []) :
    Nested (onStack control callback rest) ∧
      Reentrant.topHand (onStack control callback rest) = control.inHand := by
  by_cases hend : control = .idle ∧ callback = false
  · obtain ⟨rfl, rfl⟩ := hend
    refine ⟨⟨fun frame hf => h frame (List.mem_of_mem_tail hf), fun frame hf _ => ?_⟩, h.topHand⟩
    exact (h frame (List.mem_of_mem_head? hf)).2
  · have hstack : Reentrant.onStack control callback rest = ⟨control, callback⟩ :: rest := by
      unfold Reentrant.onStack
      split
      · exact absurd ⟨rfl, rfl⟩ hend
      · rfl
    rw [hstack]
    refine ⟨⟨h, fun frame hf hcb => ?_⟩, rfl⟩
    cases hf
    exact hc hcb

/-! ## steps -/

/-- the innermost call alone may have an event in hand, and then the output is thawed -/
structure InTurn (s : Reentrant E Time) (taken : List E) : Prop where
  nested : Nested s.stack
  hand : taken = s.relays ++ topHand s.stack
  thawed : topHand s.stack ≠ [] → s.frozen = false
  unfrozen : ∀ b e, (b, .relayEvent e) ∈ s.trace → b = false

variable {S}

omit [LinearOrder Time] [Add Time] [Zero Time] [NatCast Time] in
theorem relays_apply (s : Reentrant E Time) (x : Effect (Triqueue E) E Time) (callback : Bool)
    (rest : List (Frame E Time)) :
    (s.apply x callback rest).relays = s.relays ++ relayed x.seen := by
  have hsnd : (x.seen.map (s.frozen, ·)).map Prod.snd = x.seen := by
    rw [List.map_map]
    exact List.map_id _
  rw [relays, apply, List.map_append, relayed_append, hsnd]
  rfl

omit [LinearOrder Time] [Add Time] [Zero Time] [NatCast Time] in
/-- the innermost call goes on, and the others wait -/
theorem InTurn.apply {s : Reentrant E Time} {taken new : List E} (h : s.InTurn taken)
    {rest : List (Frame E Time)} (hwait : Waiting rest) {x : Effect (Triqueue E) E Time}
    {callback : Bool} (hcb : callback = true → x.control.inHand = [])
    (hhand : relayed x.seen ++ x.control.inHand = topHand s.stack ++ new)
    (hthawed : x.control.inHand ≠ [] → s.frozen = false)
    (hrelay : ∀ e, .relayEvent e ∈ x.seen → s.frozen = false) :
    (s.apply x callback rest).InTurn (taken ++ new) := by
  obtain ⟨hnested, htop⟩ := hwait.onStack hcb
  refine ⟨hnested, ?_, fun hne => ?_, fun b e hmem => ?_⟩
  · show _ = _ ++ topHand (onStack _ _ _)
    rw [relays_apply, htop, h.hand, List.append_assoc, List.append_assoc, hhand]
  · exact hthawed fun hnil => hne (htop.trans hnil)
  · rcases List.mem_append.mp hmem with hmem | hmem
    · exact h.unfrozen b e hmem
    · obtain ⟨o, ho, heq⟩ := List.mem_map.mp hmem
      cases heq
      exact hrelay e ho

omit [Add Time] [NatCast Time] in
theorem InTurn.call {s : Reentrant E Time} {taken : List E} (h : s.InTurn taken)
    (hw : s.waits = true) (c : Call E Time) :
    (s.apply (enter S s.machine c) false s.stack).InTurn taken := by
  have hwait := h.nested.waiting hw
  obtain ⟨hseen, hin⟩ := enter_quiet (S := S) (m := s.machine) c
  have hx : relayed (enter S s.machine c).seen ++ (enter S s.machine c).control.inHand
      = topHand s.stack ++ [] := by
    rw [hseen, hin, hwait.topHand]
  have hcb : false = true → (enter S s.machine c).control.inHand = [] := fun _ => hin
  have happly := h.apply hwait hcb hx (fun hne => absurd hin hne) fun e he => ?_
  · rwa [List.append_nil] at happly
  · have hmem : e ∈ relayed (enter S s.machine c).seen := List.mem_filterMap.mpr ⟨_, he, rfl⟩
    rw [hseen] at hmem
    cases hmem

theorem InTurn.tick {s : Reentrant E Time} {taken : List E} (h : s.InTurn taken)
    {control : Control E Time} {rest : List (Frame E Time)}
    (hstack : s.stack = ⟨control, false⟩ :: rest) {x : Effect (Triqueue E) E Time}
    (hx : tick S s.machine s.frozen control = some x) :
    (s.apply x control.outside rest).InTurn (taken ++ control.taken x.control) := by
  have hbelow := h.nested.below
  have hthawed := h.thawed
  have htop : topHand s.stack = control.inHand := by
    rw [hstack]
    rfl
  rw [htop] at hthawed
  rw [hstack] at hbelow
  refine h.apply hbelow (tick_outside hx) (by rw [htop]; exact tick_hands hx) (fun hne => ?_)
    fun e he => ?_
  · -- it was taken just now
    refine (tick_takes hx fun hnil => ?_).2.1
    have hhands := tick_hands hx
    rw [hnil, List.append_nil] at hhands
    by_cases hin : control.inHand = []
    · rw [hin] at hhands
      exact hne (List.append_eq_nil_iff.mp hhands).2
    · cases control with
      | relayEvent f e => exact hne (tick_outside hx rfl)
      | _ => exact hin rfl
  · refine hthawed ?_
    rw [tick_relays hx he]
    exact List.cons_ne_nil _ _

omit [LinearOrder Time] [Add Time] [Zero Time] [NatCast Time] in
theorem InTurn.freeze {s : Reentrant E Time} {taken : List E} (h : s.InTurn taken)
    (hw : s.waits = true) (frozen : Bool) :
    ({ s with frozen := frozen } : Reentrant E Time).InTurn taken :=
  ⟨h.nested, h.hand, fun hne => absurd (h.nested.waiting hw).topHand hne, h.unfrozen⟩

omit [LinearOrder Time] [Add Time] [Zero Time] [NatCast Time] in
theorem InTurn.resume {s : Reentrant E Time} {taken : List E} (h : s.InTurn taken)
    {control : Control E Time} {rest : List (Frame E Time)}
    (hstack : s.stack = ⟨control, true⟩ :: rest) :
    ({ s with stack := onStack control false rest } : Reentrant E Time).InTurn taken := by
  have hwait := h.nested.waiting (by rw [waits, hstack])
  have htop := hwait.topHand
  rw [hstack] at hwait
  have hrest : Waiting rest := fun frame hf => hwait frame (List.mem_cons_of_mem _ hf)
  have hin : control.inHand = [] := (hwait _ List.mem_cons_self).2
  have hcb : false = true → control.inHand = [] := fun _ => hin
  obtain ⟨hnested, htop'⟩ := hrest.onStack hcb
  refine ⟨hnested, ?_, fun hne => absurd (htop'.trans hin) hne, h.unfrozen⟩
  rw [h.hand, htop]
  show _ = s.relays ++ topHand (onStack control false rest)
  rw [htop', hin]

/-! ## runs -/

variable {c : ℕ}

theorem step_ledger (hE : S.env.RewritesCode) {s t : Reentrant E Time} {a : ReentrantAct E Time}
    {taken : List E} (hl : SameLedger S c s.pushed taken s.machine)
    (hturn : s.InTurn taken) (hfit : s.Fits S c a) (h : s.step S a = some t) :
    ∃ taken', SameLedger S c t.pushed taken' t.machine ∧
      t.InTurn taken' := by
  have hsize := hfit t h
  cases a with
  | call b =>
    simp only [step] at h
    split_ifs at h with hw
    cases h
    exact ⟨taken, hl.enter hE hsize, hturn.call hw b⟩
  | freeze frozen =>
    simp only [step] at h
    split_ifs at h with hw
    cases h
    exact ⟨taken, hl, hturn.freeze hw frozen⟩
  | tick =>
    simp only [step] at h
    split at h
    · next control rest hstack =>
      obtain ⟨x, hx, rfl⟩ := Option.map_eq_some_iff.mp h
      exact ⟨_, hl.tick hE hx, hturn.tick hstack hx⟩
    · cases h
  | resume =>
    simp only [step] at h
    split at h
    · next control rest hstack =>
      cases h
      exact ⟨taken, hl, hturn.resume hstack⟩
    · cases h

end Reentrant

variable [LinearOrder Time] [Add Time] [Zero Time] [NatCast Time] {S : Setup E Time}

/-- **Callbacks are harmless.**  The calls of `relay_event` begin in the order in which the events
were pushed, one for each, and none while the output is frozen; the internal part is empty exactly
when the state is normal, also when no call is running any more. -/
theorem reentrant_order (hE : S.env.RewritesCode) {c : ℕ} (hc : 2 ≤ c)
    {acts : List (ReentrantAct E Time)}
    (hfits : EachStep (Reentrant.step S) (Reentrant.create c) (Reentrant.Fits S c) acts)
    {s : Reentrant E Time} (h : runs (Reentrant.step S) (Reentrant.create c) acts = some s) :
    List.Forall₂ (SameButCode S.env) (s.pushed.take s.relays.length) s.relays ∧
      (∀ frozen e, (frozen, .relayEvent e) ∈ s.trace → frozen = false) ∧
      (TriqueueOps.middleEmpty s.machine.tq = true ↔ s.machine.state = .normal) := by
  have hrun := runs_each (R := fun _ (s : Reentrant E Time) => ∃ taken,
    SameLedger S c s.pushed taken s.machine ∧ s.InTurn taken)
    ?_ ?_ hfits h
  · obtain ⟨taken, hl, hturn⟩ := hrun
    rw [hturn.hand] at hl
    exact ⟨hl.relays, hturn.unfrozen, hl.normal_iff.symm⟩
  · refine ⟨[], .create hc, ⟨?_, ?_⟩, rfl, ?_, ?_⟩
    · exact fun frame hf => absurd hf List.not_mem_nil
    · exact fun frame hf => absurd hf (by simp [Reentrant.create])
    · exact fun hne => absurd rfl hne
    · exact fun b e hmem => absurd hmem List.not_mem_nil
  · rintro _ u a v - ⟨taken, hl, hturn⟩ hfit hstep
    exact Reentrant.step_ledger hE hl hturn hfit hstep

/-- From inside the first `relay_event` the environment freezes its output, brings the release,
thaws and brings a time; that call relays the release. -/
def calledBack : List (ReentrantAct TestEvent Nat) :=
  let ticks (n : ℕ) : List (ReentrantAct TestEvent Nat) := List.replicate n .tick
  .call (.acceptEvent (down 20 100)) :: ticks 5 ++
    .freeze true :: .call (.acceptEvent (up 20 110)) :: ticks 5 ++
    .freeze false :: .call (.acceptTime 120) :: ticks 5 ++
    .resume :: ticks 3 ++ [.resume, .tick] ++
    .resume :: ticks 3 ++ [.resume, .tick]

theorem reentrant_order_back : ∃ s,
    runs (Reentrant.step testSetup) (Reentrant.create 2) calledBack = some s ∧
    s.stack.isEmpty ∧ s.pushed = [down 20 100, up 20 110] ∧ s.relays = [down 20 100, up 20 110] ∧
    List.Forall₂ (SameButCode testEnvironment) (s.pushed.take s.relays.length) s.relays ∧
    (∀ frozen e, (frozen, .relayEvent e) ∈ s.trace → frozen = false) ∧
    (TriqueueOps.middleEmpty s.machine.tq = true ↔ s.machine.state = .normal) := by
  have hs := Option.eq_some_of_isSome
    (o := runs (Reentrant.step testSetup) (Reentrant.create 2) calledBack) (by decide)
  have hfits : EachStep (Reentrant.step testSetup) (Reentrant.create 2)
      (Reentrant.Fits testSetup 2) calledBack := by decide
  have horder := reentrant_order testEnvironment_lawful.toRewritesCode (le_refl 2) hfits hs
  refine ⟨_, hs, ?_, ?_, ?_, horder⟩
  · decide
  · decide
  · decide

end ForkNS
