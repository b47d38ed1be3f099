import ForkPlugin.Machine.Flow
import ForkPlugin.Machine.Ring
import ForkPlugin.Machine.Sends

/-!
# What every host can rely on

One caller, several threads, a caller whose callbacks call again: each host of the machine runs
its locked parts in some order.  The machine does not know the order; it keeps a ledger.

* `Control.outside` the next step calls the environment;
* `Control.taken`   the event that a step takes out of the queue;
* `Books`           over three lists: what was pushed is what was taken, in that order, then the
                    output part, then the events in line; a property of the pairs (pushed, left)
                    holds;
* `Ledger`          the same of a machine over a ring of capacity `c`;
* `Ledger.enter`, `Ledger.tick`   every locked part keeps the ledger, as long as the ring has room.
-/

namespace ForkNS

open Machine

variable {E Time : Type}

/-- the next step is a call of the environment, which is not locked -/
def Control.outside : Control E Time → Bool
  | .relayEvent .. | .pushTime .. => true
  | _ => false

/-- what a step from one control to another takes out of the queue -/
def Control.taken : Control E Time → Control E Time → List E
  | .flushLoop _, .relayEvent _ pevent => [pevent]
  | _, _ => []

theorem taken_of_inHand {c c' : Control E Time} (h : c'.inHand = []) : c.taken c' = [] := by
  cases c' with
  | relayEvent => cases h
  | _ => cases c <;> rfl

theorem taken_afterAutomaton (c : Control E Time) (f : Bool) : c.taken (afterAutomaton f) = [] :=
  taken_of_inHand (inHand_afterAutomaton f)

theorem hands_afterAutomaton (c : Control E Time) (f : Bool) :
    (afterAutomaton f : Control E Time).inHand = c.taken (afterAutomaton f) := by
  rw [inHand_afterAutomaton, taken_afterAutomaton]

variable [LinearOrder Time] [Add Time] [Zero Time] [NatCast Time] {S : Setup E Time}

/-! ## what passes through the hands of a call -/

section
variable {Q : Type} [TriqueueOps Q E] {m : Machine Q Time}

omit [Add Time] [NatCast Time] in
theorem enter_quiet (a : Call E Time) :
    relayed (enter S m a).seen = [] ∧ (enter S m a).control.inHand = [] := by
  cases a with
  | acceptEvent e =>
    simp only [enter, acceptEvent]
    split_ifs <;> exact ⟨rfl, rfl⟩
  | acceptTime now =>
    simp only [enter, acceptTime]
    split_ifs <;> exact ⟨rfl, rfl⟩
  | acceptConfirmation => exact ⟨rfl, rfl⟩

variable {frozen : Bool} {c : Control E Time} {x : Effect Q E Time}

theorem tick_pushed (h : tick S m frozen c = some x) : x.pushed = [] := by
  cases tick_flow h <;> rfl

/-- what is relayed was in hand, and what is taken is in hand -/
theorem tick_hands (h : tick S m frozen c = some x) :
    relayed x.seen ++ x.control.inHand = c.inHand ++ c.taken x.control := by
  cases tick_flow h with
  | endNone f => exact hands_afterAutomaton (.flushEnd f) f
  | endFrozen f => exact hands_afterAutomaton (.flushEnd f) f
  | pushTime frozen f now => exact hands_afterAutomaton (.pushTime f now) f
  | _ => rfl

theorem tick_relays (h : tick S m frozen c = some x) {e : E} (he : .relayEvent e ∈ x.seen) :
    c.inHand = [e] := by
  cases tick_flow h with
  | relay frozen f e' =>
    cases List.mem_singleton.mp he
    rfl
  | _ => simp at he

theorem tick_outside (h : tick S m frozen c = some x) (hc : c.outside = true) :
    x.control.inHand = [] := by
  cases tick_flow h with
  | relay => rfl
  | pushTime frozen f => exact inHand_afterAutomaton f
  | _ => cases hc

/-- an event is taken from the output part, and when the output is not frozen -/
theorem tick_takes (h : tick S m frozen c = some x) (ht : c.taken x.control ≠ []) :
    (∃ f, c = .flushLoop f) ∧ frozen = false ∧ TriqueueOps.canPop m.tq = true := by
  cases tick_flow h with
  | pop f e m' hp =>
    refine ⟨⟨f, rfl⟩, rfl, ?_⟩
    by_contra hc
    rw [popEventIfPresent, if_neg hc] at hp
    cases hp
  | endNone f => exact absurd (taken_afterAutomaton _ f) ht
  | endFrozen f => exact absurd (taken_afterAutomaton _ f) ht
  | pushTime frozen f => exact absurd (taken_afterAutomaton _ f) ht
  | _ => exact absurd rfl ht

end

/-- a further step of a call only adds what it takes to what was taken before -/
theorem tick_taken {m : ListMachine E Time} (hm : Sound S m) {frozen : Bool} {c : Control E Time}
    {x : Effect (ThreeLists E) E Time} (h : Tick S m frozen c x) (a : Act E Time)
    (l : List E) : Move S a c.forcing (m.framed l [] m.mCurrentTime) []
      (x.machine.framed (l ++ c.taken x.control) [] x.machine.mCurrentTime) := by
  obtain ⟨-, hmove⟩ := tick_move hm h a l
  -- where nothing is in hand, before or after
  have hempty : c.inHand = [] → relayed x.seen = [] → x.control.inHand = [] →
      Move S a c.forcing (m.framed l [] m.mCurrentTime) []
        (x.machine.framed (l ++ c.taken x.control) [] x.machine.mCurrentTime) := by
    intro hc hr hx
    rw [hc, hr, hx] at hmove
    rw [taken_of_inHand hx]
    simpa using hmove
  cases h with
  | pop f e out ho => simpa [Control.taken, Control.inHand] using hmove
  | relay frozen f e =>
    rw [taken_of_inHand rfl, List.append_nil]
    exact .still
  | body f =>
    refine hempty rfl rfl ?_
    dsimp only
    split_ifs <;> rfl
  | endNone f => exact hempty rfl rfl (inHand_afterAutomaton f)
  | endFrozen f => exact hempty rfl rfl (inHand_afterAutomaton f)
  | pushTime frozen f now => exact hempty rfl rfl (inHand_afterAutomaton f)
  | _ => exact hempty rfl rfl rfl

/-! ## over three lists -/

/-- the pushed events are those that left and those in line; those that left were taken, or are
still in the output part -/
structure Books (S : Setup E Time) (P : List (E × E) → (Keycode → Keycode) → Prop)
    (pushed taken : List E) (l : ListMachine E Time) : Prop where
  sound : Sound S l
  pairs : ∃ pairs : List (E × E), pushed = pairs.map Prod.fst ++ l.line ∧
    taken ++ l.tq.out = pairs.map Prod.snd ∧ P pairs l.forkActive

variable {P : List (E × E) → (Keycode → Keycode) → Prop} {pushed taken : List E}

/-- one move, where the event that it may send keeps `P` -/
theorem Books.move {l l' : ListMachine E Time} (h : Books S P pushed taken l)
    (hP : ∀ pairs e r, P pairs l.forkActive → l.line = e :: l'.line →
      Sends S l.forkActive e r l'.forkActive → P (pairs ++ [(e, r)]) l'.forkActive)
    {a : Act E Time} {f : Bool} {es taken' : List E}
    (hmove : Move S a f (l.framed taken [] l.mCurrentTime) es
      (l'.framed taken' [] l'.mCurrentTime)) : Books S P (pushed ++ es) taken' l' := by
  obtain ⟨hs, pairs, hpush, hleft, hp⟩ := h
  have hsound : Sound S (l.framed taken [] l.mCurrentTime) :=
    ⟨hs.coherent, hs.headOpen, hs.bugs⟩
  have hsound' := hmove.sound hsound
  have hline : ∀ (m : ListMachine E Time) (t : List E) (c : Time),
      (m.framed t [] c).line = m.line := fun m t c => by
    simp [line, framed]
  refine ⟨⟨hsound'.coherent, hsound'.headOpen, hsound'.bugs⟩, ?_⟩
  rcases hmove.sends hsound with ⟨hl, ho, hf⟩ | ⟨rfl, e, r, hl, ho, hsend⟩
  · rw [hline, hline] at hl
    exact ⟨pairs, by rw [hpush, hl, List.append_assoc], ho.trans hleft, hf ▸ hp⟩
  · rw [hline, hline] at hl
    refine ⟨pairs ++ [(e, r)], ?_, ?_, hP pairs e r hp hl hsend⟩
    · rw [hpush, hl]
      simp
    · exact ho.trans (by simp [framed, ← hleft])

theorem Books.tick {l : ListMachine E Time} (h : Books S P pushed taken l) {frozen : Bool}
    {k : Control E Time} {x : Effect (ThreeLists E) E Time}
    (hx : ForkNS.tick S l frozen k = some x)
    (hP : ∀ pairs e r, P pairs l.forkActive → l.line = e :: x.machine.line →
      Sends S l.forkActive e r x.machine.forkActive → P (pairs ++ [(e, r)]) x.machine.forkActive) :
    Books S P pushed (taken ++ k.taken x.control) x.machine := by
  rw [← List.append_nil pushed]
  exact h.move hP (tick_taken h.sound (tick_cases hx) (.tick frozen) taken)

/-! ## over the ring -/

/-- the books of a machine over a ring of capacity `c` -/
def Ledger (S : Setup E Time) (c : ℕ) (P : List (E × E) → (Keycode → Keycode) → Prop)
    (pushed taken : List E) (m : Machine (Triqueue E) Time) : Prop :=
  ∃ l, Stands c m l ∧ Books S P pushed taken l

variable {c : ℕ} {m : Machine (Triqueue E) Time}

theorem Ledger.create (hc : 2 ≤ c) (h0 : P [] fun _ => noKey) :
    Ledger S c P [] [] (Machine.create (Triqueue.create c)) :=
  ⟨_, (create_alike hc).stands, create_sound, [], rfl, rfl, h0⟩

section
variable (h : Ledger S c P pushed taken m)
include h

theorem Ledger.normal_iff : m.state = .normal ↔ TriqueueOps.middleEmpty m.tq = true := by
  obtain ⟨l, hst, hb⟩ := h
  have hm : TriqueueOps.middleEmpty m.tq = TriqueueOps.middleEmpty l.tq :=
    Triqueue.middleEmpty_eq hst.rep
  rw [hst.state, hm, hb.sound.coherent.normal_iff]
  simp [TriqueueOps.middleEmpty]

variable (hP : ∀ pairs fa e r fa', P pairs fa → Sends S fa e r fa' → P (pairs ++ [(e, r)]) fa')
include hP

theorem Ledger.enter {a : Call E Time}
    (hfit : (enter S m a).machine.tq.buffer.contentsSize ≤ c) :
    Ledger S c P (pushed ++ (enter S m a).pushed) taken (enter S m a).machine := by
  obtain ⟨l, hst, hb⟩ := h
  have halike := enter_alike (S := S) hst (hst.room hfit)
  obtain ⟨-, hin, hmove⟩ := enter_move (S := S) l a taken
  refine ⟨_, halike.stands, ?_⟩
  rw [halike.pushed]
  exact hb.move (fun pairs e r hp _ => hP pairs _ e r _ hp) hmove

theorem Ledger.tick {frozen : Bool} {k : Control E Time} {x : Effect (Triqueue E) E Time}
    (hx : tick S m frozen k = some x) :
    Ledger S c P pushed (taken ++ k.taken x.control) x.machine := by
  obtain ⟨l, hst, hb⟩ := h
  obtain ⟨y, hy, halike⟩ := hst.tick hx
  refine ⟨_, halike.stands, ?_⟩
  rw [halike.control]
  exact hb.tick hy fun pairs e r hp _ => hP pairs _ e r _ hp

end

end ForkNS
