import ForkPlugin.Runs.Conserve
import Mathlib.Algebra.BigOperators.Group.Finset.Basic
import Mathlib.Algebra.Order.Group.Multiset
import Mathlib.Tactic.Abel

/-!
# Several threads call one machine

Each locked part of a call and each call of the environment is one step; the loop of
`run_automaton` takes several, but its thread holds `mLock` until it has left it.  The output is
not frozen.

* `Threads`          the machine, where each thread is, and who holds `mLock`;
* `Threads.step`     a step that needs the lock waits until no other thread holds it;
* `Accounts`         what was relayed, and what the threads have in hand, was taken from the queue;
* `Alone`            no event is taken while another thread has one in hand;
* `InTurn`           then at most one thread has one, and that is the next to be relayed;
* `threads_order`    every event is relayed at most once, and if threads are alone, in the order in
                     which the events were pushed;
* `threads_overtake` otherwise one thread can overtake another.
-/

namespace ForkNS

open Runs Machine

variable {ι E Time : Type} [DecidableEq ι]

/-- the lock is held between the steps -/
def Control.inside : Control E Time → Bool
  | .automatonLoop _ | .relock => true
  | _ => false

structure Threads (ι E Time : Type) where
  machine : Machine (Triqueue E) Time
  control : ι → Control E Time
  mLock : Option ι
  pushed : List E
  trace : List (Obs E Time)

inductive ThreadAct (ι E Time : Type) where
  | call (i : ι) (c : Call E Time)
  | tick (i : ι)
deriving DecidableEq

namespace Threads

/-- no call is running -/
def create [Zero Time] (c : ℕ) : Threads ι E Time :=
  ⟨Machine.create (Triqueue.create c), fun _ => .idle, none, [], []⟩

/-- the thread `i` need not wait for another -/
def free (s : Threads ι E Time) (i : ι) : Bool :=
  (s.control i).outside || s.mLock == none || s.mLock == some i

/-- a step of the thread `i`; it takes the lock, gives it back, or has no need of it -/
def apply (s : Threads ι E Time) (i : ι) (x : Effect (Triqueue E) E Time) : Threads ι E Time where
  machine := x.machine
  control := Function.update s.control i x.control
  mLock :=
    if x.control.inside then some i else if (s.control i).outside then s.mLock else none
  pushed := s.pushed ++ x.pushed
  trace := s.trace ++ x.seen

theorem apply_self (s : Threads ι E Time) (i : ι) (x : Effect (Triqueue E) E Time) :
    (s.apply i x).control i = x.control := Function.update_self _ _ _

theorem apply_other {s : Threads ι E Time} {i j : ι} {x : Effect (Triqueue E) E Time}
    (h : j ≠ i) : (s.apply i x).control j = s.control j := Function.update_of_ne h _ _

variable [LinearOrder Time] [Add Time] [Zero Time] [NatCast Time] (S : Setup E Time)

def step (s : Threads ι E Time) : ThreadAct ι E Time → Option (Threads ι E Time)
  | .call i c =>
    match s.control i with
    | .idle => if s.free i then some (s.apply i (enter S s.machine c)) else none
    | _ => none
  | .tick i =>
    if s.free i then (ForkNS.tick S s.machine false (s.control i)).map (s.apply i) else none

variable {S}

theorem step_call {s t : Threads ι E Time} {i : ι} {c : Call E Time}
    (h : s.step S (.call i c) = some t) :
    s.control i = .idle ∧ t = s.apply i (enter S s.machine c) := by
  cases hc : s.control i with
  | idle =>
    simp only [step, hc] at h
    split_ifs at h
    exact ⟨rfl, (Option.some.inj h).symm⟩
  | _ => simp [step, hc] at h

theorem step_tick {s t : Threads ι E Time} {i : ι} (h : s.step S (.tick i) = some t) :
    ∃ x, ForkNS.tick S s.machine false (s.control i) = some x ∧ t = s.apply i x := by
  simp only [step] at h
  split_ifs at h
  obtain ⟨x, hx, rfl⟩ := Option.map_eq_some_iff.mp h
  exact ⟨x, hx, rfl⟩

/-- after the step the ring holds no more than `c` -/
def Fits (S : Setup E Time) (c : ℕ) (s : Threads ι E Time) (a : ThreadAct ι E Time) : Prop :=
  ∀ t ∈ s.step S a, t.machine.tq.buffer.contentsSize ≤ c

/-- no event is taken while another thread has one that it has not relayed -/
def Alone (s : Threads ι E Time) : ThreadAct ι E Time → Prop
  | .call .. => True
  | .tick i => (∃ f, s.control i = .flushLoop f) → TriqueueOps.canPop s.machine.tq = true →
      ∀ j, j ≠ i → (s.control j).inHand = []

instance (c : ℕ) (s : Threads ι E Time) (a : ThreadAct ι E Time) :
    Decidable (s.Fits S c a) :=
  inferInstanceAs (Decidable (∀ t ∈ s.step S a, _))

instance [DecidableEq E] [DecidableEq Time] [Fintype ι] (s : Threads ι E Time) :
    (a : ThreadAct ι E Time) → Decidable (s.Alone a)
  | .call .. => inferInstanceAs (Decidable True)
  | .tick _ => inferInstanceAs (Decidable (_ → _ → _))

/-! ## every event is relayed at most once -/

/-- what was taken was relayed, or is in the hands of the threads -/
def Accounts [Fintype ι] (s : Threads ι E Time) (taken : List E) : Prop :=
  (relayed s.trace : Multiset E) + ∑ i, ((s.control i).inHand : Multiset E) = taken

omit [LinearOrder Time] [Add Time] [Zero Time] [NatCast Time] in
/-- a step of one thread -/
theorem Accounts.apply [Fintype ι] {s : Threads ι E Time} {taken : List E} (h : s.Accounts taken)
    {i : ι} {x : Effect (Triqueue E) E Time} {new : List E}
    (hx : relayed x.seen ++ x.control.inHand = (s.control i).inHand ++ new) :
    (s.apply i x).Accounts (taken ++ new) := by
  have hothers : ∀ j ∈ Finset.univ.erase i,
      (((s.apply i x).control j).inHand : Multiset E) = (s.control j).inHand := fun j hj => by
    rw [apply_other (Finset.ne_of_mem_erase hj)]
  have hx' : (relayed x.seen : Multiset E) + x.control.inHand = (s.control i).inHand + new := by
    rw [Multiset.coe_add, Multiset.coe_add, hx]
  unfold Accounts at h ⊢
  rw [← Finset.add_sum_erase _ _ (Finset.mem_univ i)] at h ⊢
  rw [Finset.sum_congr rfl hothers, apply_self, ← Multiset.coe_add, ← h]
  show ((relayed (s.trace ++ x.seen) : List E) : Multiset E) + _ = _
  rw [relayed_append, ← Multiset.coe_add]
  generalize ∑ j ∈ Finset.univ.erase i, ((s.control j).inHand : Multiset E) = rest
  calc (relayed s.trace : Multiset E) + relayed x.seen + (x.control.inHand + rest)
      = relayed s.trace + ((relayed x.seen + x.control.inHand) + rest) := by abel
    _ = relayed s.trace + ((s.control i).inHand + rest) + new := by
        rw [hx']
        abel

/-! ## in order, where threads are alone -/

/-- at most one thread has an event in hand, and that was taken last -/
def InTurn (s : Threads ι E Time) (taken : List E) : Prop :=
  ∃ o : Option ι, taken = relayed s.trace ++ (o.elim [] fun i => (s.control i).inHand) ∧
    ∀ j, o ≠ some j → (s.control j).inHand = []

omit [LinearOrder Time] [Add Time] [Zero Time] [NatCast Time] in
theorem InTurn.apply {s : Threads ι E Time} {taken : List E} (h : s.InTurn taken) {i : ι}
    {x : Effect (Triqueue E) E Time} {new : List E}
    (hx : relayed x.seen ++ x.control.inHand = (s.control i).inHand ++ new)
    (halone : new ≠ [] → ∀ j, j ≠ i → (s.control j).inHand = []) :
    (s.apply i x).InTurn (taken ++ new) := by
  obtain ⟨o, htaken, hothers⟩ := h
  have htrace : relayed (s.apply i x).trace = relayed s.trace ++ relayed x.seen :=
    relayed_append _ _
  by_cases ho : o = some i
  · -- the thread that has an event goes on
    subst ho
    refine ⟨some i, ?_, fun j hj => ?_⟩
    · rw [htrace, htaken]
      simp only [Option.elim_some, apply_self, List.append_assoc, hx]
    · have hji : j ≠ i := fun h => hj (by rw [h])
      rw [apply_other hji]
      exact hothers j hj
  rw [hothers i ho, List.nil_append] at hx
  by_cases hnew : new = []
  · -- nothing is taken
    subst hnew
    obtain ⟨hseen, hin⟩ := List.append_eq_nil_iff.mp hx
    refine ⟨o, ?_, fun j hj => ?_⟩
    · rw [htrace, hseen, List.append_nil, List.append_nil, htaken]
      cases o with
      | none => rfl
      | some k =>
        have hki : k ≠ i := fun h => ho (by rw [h])
        simp only [Option.elim_some, apply_other hki]
    · by_cases hji : j = i
      · rw [hji, apply_self]
        exact hin
      · rw [apply_other hji]
        exact hothers j hj
  · -- no other thread has one
    have hempty := halone hnew
    refine ⟨some i, ?_, fun j hj => ?_⟩
    · have hnone : (o.elim [] fun i => (s.control i).inHand) = [] := by
        cases o with
        | none => rfl
        | some k => exact hempty k fun h => ho (by rw [h])
      rw [htrace, htaken, hnone]
      simp only [Option.elim_some, apply_self, List.append_nil, List.append_assoc, hx]
    · have hji : j ≠ i := fun h => hj (by rw [h])
      rw [apply_other hji]
      exact hempty j hji

/-! ## runs -/

variable [Fintype ι] {c : ℕ}

/-- every step keeps the ledger and the accounts, and in turn if it is alone -/
theorem step_ledger (hE : S.env.RewritesCode) {s t : Threads ι E Time} {a : ThreadAct ι E Time}
    {taken : List E} (hl : SameLedger S c s.pushed taken s.machine)
    (ha : s.Accounts taken) (hfit : s.Fits S c a) (h : s.step S a = some t) :
    ∃ taken', SameLedger S c t.pushed taken' t.machine ∧
      t.Accounts taken' ∧ (s.Alone a → s.InTurn taken → t.InTurn taken') := by
  have hsize := hfit t h
  cases a with
  | call i b =>
    obtain ⟨hidle, rfl⟩ := step_call h
    obtain ⟨hseen, hin⟩ := enter_quiet (S := S) (m := s.machine) b
    have hx : relayed (enter S s.machine b).seen ++ (enter S s.machine b).control.inHand
        = (s.control i).inHand ++ [] := by
      rw [hseen, hin, hidle]
      rfl
    have hacc := ha.apply hx
    rw [List.append_nil] at hacc
    refine ⟨taken, hl.enter hE hsize, hacc, fun _ hturn => ?_⟩
    have hturn' := hturn.apply hx fun hne => absurd rfl hne
    rwa [List.append_nil] at hturn'
  | tick i =>
    obtain ⟨x, hx, rfl⟩ := step_tick h
    have hhands := tick_hands hx
    refine ⟨_, hl.tick hE hx, ha.apply hhands, fun halone hturn => ?_⟩
    refine hturn.apply hhands fun hne => ?_
    obtain ⟨hflush, -, hpop⟩ := tick_takes hx hne
    exact halone hflush hpop

theorem run_ledger (hE : S.env.RewritesCode) (hc : 2 ≤ c) {acts : List (ThreadAct ι E Time)}
    (hfits : EachStep (step S) (create c) (Fits S c) acts) {s : Threads ι E Time}
    (h : runs (step S) (create c) acts = some s) :
    ∃ taken, SameLedger S c s.pushed taken s.machine ∧
      s.Accounts taken ∧
      (EachStep (step S) (create c) (fun u a => u.Alone a) acts → s.InTurn taken) := by
  refine runs_each (R := fun acts (s : Threads ι E Time) => ∃ taken,
    SameLedger S c s.pushed taken s.machine ∧
      s.Accounts taken ∧
      (EachStep (step S) (create c) (fun u a => u.Alone a) acts → s.InTurn taken))
    ?_ ?_ hfits h
  · refine ⟨[], .create hc, ?_, fun _ => ?_⟩
    · simp [Accounts, create, Control.inHand, relayed]
    · exact ⟨none, rfl, fun _ _ => rfl⟩
  · rintro acts u a v hu ⟨taken, hl, ha, hturn⟩ hfit hstep
    obtain ⟨taken', hl', ha', hturn'⟩ := step_ledger hE hl ha hfit hstep
    exact ⟨taken', hl', ha', fun halone => hturn' (halone.last hu) (hturn halone.left)⟩

end Threads

variable [LinearOrder Time] [Add Time] [Zero Time] [NatCast Time] {S : Setup E Time}

/-- **Concurrent callers relay every event at most once**, and in the order in which the events
were pushed if no thread takes one while another has one in hand. -/
theorem threads_order [Fintype ι] (hE : S.env.RewritesCode) {c : ℕ} (hc : 2 ≤ c)
    {acts : List (ThreadAct ι E Time)}
    (hfits : EachStep (Threads.step S) (Threads.create c) (Threads.Fits S c) acts)
    {s : Threads ι E Time} (h : runs (Threads.step S) (Threads.create c) acts = some s) :
    (∃ taken, List.Forall₂ (SameButCode S.env) (s.pushed.take taken.length) taken ∧
      (relayed s.trace).Subperm taken) ∧
    (EachStep (Threads.step S) (Threads.create c) (fun u a => u.Alone a) acts →
      List.Forall₂ (SameButCode S.env) (s.pushed.take (relayed s.trace).length)
        (relayed s.trace)) := by
  obtain ⟨taken, hl, ha, hturn⟩ := Threads.run_ledger hE hc hfits h
  refine ⟨⟨taken, hl.order, ?_⟩, fun halone => ?_⟩
  · rw [← Multiset.coe_le, ← show _ = _ from ha]
    exact Multiset.le_add_right _ _
  · obtain ⟨o, htaken, -⟩ := hturn halone
    rw [htaken] at hl
    exact hl.relays

/-- each of two threads brings an event; the first has taken its own before the second begins, and
relays it after so many steps -/
def twoThreads (before after : ℕ) : List (ThreadAct Bool TestEvent Nat) :=
  .call false (.acceptEvent (down 20 100)) :: List.replicate before (.tick false) ++
    .call true (.acceptEvent (up 20 110)) :: List.replicate 5 (.tick true) ++
    List.replicate after (.tick false)

abbrev idleThreads : Threads Bool TestEvent Nat := Threads.create 2

theorem threads_order_two : ∃ s,
    runs (Threads.step testSetup) idleThreads (twoThreads 5 0) = some s ∧
    relayed s.trace = [down 20 100, up 20 110] ∧
    (∃ taken, List.Forall₂ (SameButCode testEnvironment) (s.pushed.take taken.length) taken ∧
      (relayed s.trace).Subperm taken) ∧
    List.Forall₂ (SameButCode testEnvironment) (s.pushed.take (relayed s.trace).length)
      (relayed s.trace) := by
  have hs := Option.eq_some_of_isSome
    (o := runs (Threads.step testSetup) idleThreads (twoThreads 5 0)) (by decide)
  obtain ⟨honce, horder⟩ := threads_order testEnvironment_lawful.toRewritesCode (le_refl 2)
    (by decide) hs
  exact ⟨_, hs, by decide, honce, horder (by decide)⟩

/-- The first thread has popped the press, but not relayed it, when the second pops the release and
relays it. -/
theorem threads_overtake : ∃ s,
    runs (Threads.step testSetup) idleThreads (twoThreads 4 1) = some s ∧
    EachStep (Threads.step testSetup) idleThreads (Threads.Fits testSetup 2) (twoThreads 4 1) ∧
    s.pushed = [down 20 100, up 20 110] ∧ relayed s.trace = [up 20 110, down 20 100] ∧
    ¬List.Forall₂ (SameButCode testEnvironment) (s.pushed.take (relayed s.trace).length)
      (relayed s.trace) := by
  have hs := Option.eq_some_of_isSome
    (o := runs (Threads.step testSetup) idleThreads (twoThreads 4 1)) (by decide)
  refine ⟨_, hs, by decide, by decide, by decide, fun h => ?_⟩
  rw [show relayed _ = [up 20 110, down 20 100] by decide,
    show List.take _ _ = [down 20 100, up 20 110] by decide] at h
  exact absurd (List.forall₂_cons.mp h).1.timeOf (by decide)

end ForkNS
