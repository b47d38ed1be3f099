import ForkPlugin.Machine.Ledger
import ForkPlugin.Machine.TestEvents

/-!
# Nothing is lost, doubled or reordered

* `SameButCode`        two events of the same kind and time;
* `SameLedger.order`   what any host took from the queue are the first pushed events;
* `queue_conserves`    after every run of a machine that never holds more than its capacity, what
                       was relayed, what is in hand, and the three parts of the queue are the
                       pushed events, in that order.
-/

namespace ForkNS

open Runs

variable {E Time : Type}

/-- the sent event differs from the pushed one at most in its keycode -/
structure SameButCode (env : Environment E Time) (pushed sent : E) : Prop where
  pressP : env.pressP sent = env.pressP pushed
  releaseP : env.releaseP sent = env.releaseP pushed
  timeOf : env.timeOf sent = env.timeOf pushed

theorem SameButCode.refl (env : Environment E Time) (e : E) : SameButCode env e e := ⟨rfl, rfl, rfl⟩

theorem Environment.RewritesCode.same {env : Environment E Time} (hE : env.RewritesCode) (e : E)
    (c : Keycode) : SameButCode env e (env.rewriteEvent e c) :=
  ⟨hE.pressP e c, hE.releaseP e c, hE.timeOf e c⟩

theorem Sends.same {S : Setup E Time} (hE : S.env.RewritesCode) {fa fa' : Keycode → Keycode}
    {e r : E} (h : Sends S fa e r fa') : SameButCode S.env e r := by
  cases h with
  | fork => exact hE.same e _
  | selfFork => exact .refl _ e
  | unfork => exact hE.same e _
  | plain => exact .refl _ e

/-- every pushed event left as one of its kind and time -/
def SamePairs (env : Environment E Time) (pairs : List (E × E)) : Prop :=
  ∀ p ∈ pairs, SameButCode env p.1 p.2

theorem SamePairs.snoc {S : Setup E Time} (hE : S.env.RewritesCode) {pairs : List (E × E)}
    {fa fa' : Keycode → Keycode} {e r : E} (h : SamePairs S.env pairs)
    (hs : Sends S fa e r fa') : SamePairs S.env (pairs ++ [(e, r)]) := by
  intro p hmem
  rcases List.mem_append.mp hmem with hmem | hmem
  · exact h p hmem
  · rw [List.mem_singleton.mp hmem]
    exact hs.same hE

theorem SamePairs.forall₂ {env : Environment E Time} {pairs : List (E × E)}
    (h : SamePairs env pairs) :
    List.Forall₂ (SameButCode env) (pairs.map Prod.fst) (pairs.map Prod.snd) := by
  rw [List.forall₂_map_left_iff, List.forall₂_map_right_iff]
  exact List.forall₂_same.mpr h

variable [LinearOrder Time] [Add Time] [Zero Time] [NatCast Time] {S : Setup E Time}

/-- the ledger of a machine, where events keep their kind and time -/
abbrev SameLedger (S : Setup E Time) (c : ℕ) : List E → List E → Machine (Triqueue E) Time → Prop :=
  Ledger S c fun pairs _ => SamePairs S.env pairs

section
variable {c : ℕ} {pushed taken : List E} {m : Machine (Triqueue E) Time}

theorem SameLedger.create (hc : 2 ≤ c) :
    SameLedger S c [] [] (Machine.create (Triqueue.create c)) :=
  Ledger.create hc fun _ hp => absurd hp List.not_mem_nil

theorem SameLedger.enter (hE : S.env.RewritesCode) (h : SameLedger S c pushed taken m)
    {a : Call E Time} (hfit : (enter S m a).machine.tq.buffer.contentsSize ≤ c) :
    SameLedger S c (pushed ++ (enter S m a).pushed) taken (enter S m a).machine :=
  Ledger.enter h (fun _ _ _ _ _ hpairs => hpairs.snoc hE) hfit

theorem SameLedger.tick (hE : S.env.RewritesCode) (h : SameLedger S c pushed taken m)
    {frozen : Bool} {k : Control E Time} {x : Effect (Triqueue E) E Time}
    (hx : tick S m frozen k = some x) :
    SameLedger S c (pushed ++ x.pushed) (taken ++ k.taken x.control) x.machine := by
  rw [tick_pushed hx, List.append_nil]
  exact Ledger.tick h (fun _ _ _ _ _ hpairs => hpairs.snoc hE) hx

/-- what was taken are the first pushed events, in that order -/
theorem SameLedger.order (h : SameLedger S c pushed taken m) :
    List.Forall₂ (SameButCode S.env) (pushed.take taken.length) taken := by
  obtain ⟨l, -, -, pairs, rfl, ht, hsame⟩ := h
  have hall := hsame.forall₂
  rw [← ht] at hall
  have hle : taken.length ≤ (pairs.map Prod.fst).length := by
    rw [hall.length_eq, List.length_append]
    exact Nat.le_add_right _ _
  rw [List.take_append_of_le_length hle]
  exact List.forall₂_take_append _ _ _ hall

/-- and so are those of them that were relayed, if these come first -/
theorem SameLedger.relays {relays rest : List E} (h : SameLedger S c pushed (relays ++ rest) m) :
    List.Forall₂ (SameButCode S.env) (pushed.take relays.length) relays := by
  have hfirst := List.forall₂_take_append _ _ _ h.order
  rwa [List.take_take, min_eq_left (by simp)] at hfirst

end

/-- over three lists, of any length -/
theorem lists_conserve (hE : S.env.RewritesCode) {acts : List (Act E Time)}
    {s : Sys (ThreeLists E) E Time} (h : runs (Sys.step S) (Sys.create .nil) acts = some s) :
    ∃ sent : List E,
      s.pushed = sent ++ s.machine.tq.mid ++ s.machine.tq.inp ∧
      List.Forall₂ (SameButCode S.env) sent
        (relayed s.trace ++ s.control.inHand ++ s.machine.tq.out) := by
  obtain ⟨pairs, hp, hh, hs⟩ := Sys.sends_ind (P := fun pairs _ => SamePairs S.env pairs)
    (fun _ hp => absurd hp List.not_mem_nil) (fun _ _ _ _ _ hpairs => hpairs.snoc hE) h
  refine ⟨pairs.map Prod.fst, hp, ?_⟩
  show List.Forall₂ _ _ s.handed
  rw [hh]
  exact hs.forall₂

/-- **Queue-to-output conservation.**  The events relayed so far, the one in hand and the output
part are, one for one and in order, the first pushed events with at most another keycode; the
internal and the input part are the other pushed events, unmodified. -/
theorem queue_conserves (hE : S.env.RewritesCode) {c : ℕ} (hc : 2 ≤ c)
    {acts : List (Act E Time)} (hw : WithinCapacity S c acts) {s : Sys (Triqueue E) E Time}
    (h : runs (Sys.step S) (Sys.create (Triqueue.create c)) acts = some s) :
    ∃ l : ThreeLists E, Triqueue.Rep c s.machine.tq l ∧ ∃ sent : List E,
      s.pushed = sent ++ l.mid ++ l.inp ∧
      List.Forall₂ (SameButCode S.env) sent (relayed s.trace ++ s.control.inHand ++ l.out) := by
  obtain ⟨t, ht, halike⟩ := ring_run hc hw h
  obtain ⟨sent, hp, hsame⟩ := lists_conserve hE ht
  refine ⟨t.machine.tq, halike.stands.rep, sent, halike.pushed.trans hp, ?_⟩
  rwa [halike.trace, halike.control]

/-- key 3 is forked by its timer, and a key is typed under it; the second timer is stopped just
before it pushes the time -/
def typedUnderFork : List (Act TestEvent Nat) :=
  during (.acceptEvent (down 3 100)) 7 ++ during (.acceptEvent (down 20 110)) 7 ++
    during (.acceptTime 300) 4

theorem queue_conserves_fork : ∃ s,
    runs (Sys.step testSetup) (Sys.create (Triqueue.create 2)) typedUnderFork = some s ∧
    s.machine.tq = ⟨⟨[some (down 20 110), some (down 13 100)], 2, 1, 0, 2⟩, 2, 2⟩ ∧
    ∃ l : ThreeLists TestEvent, Triqueue.Rep 2 s.machine.tq l ∧ ∃ sent : List TestEvent,
      s.pushed = sent ++ l.mid ++ l.inp ∧
      List.Forall₂ (SameButCode testEnvironment) sent
        (relayed s.trace ++ s.control.inHand ++ l.out) := by
  have hs := Option.eq_some_of_isSome
    (o := runs (Sys.step testSetup) (Sys.create (Triqueue.create 2)) typedUnderFork) (by decide)
  exact ⟨_, hs, by decide, queue_conserves testEnvironment_lawful.toRewritesCode (le_refl 2)
    (by decide) hs⟩

end ForkNS
