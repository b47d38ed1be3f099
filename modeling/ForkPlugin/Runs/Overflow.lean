import ForkPlugin.Queue.Full
import ForkPlugin.Runs.Conserve

/-!
# A queue that is asked to hold too much

* `full_queue_rejects`   the ring rejects cleanly exactly when no `push` finds it full, and then a
                         machine relays a first part of what it accepted, in order;
* `push_when_full`       a third item in a ring of two: the first one is read again.
-/

namespace ForkNS

open Runs

variable {E Time : Type} [LinearOrder Time] [Add Time] [Zero Time] [NatCast Time]

/-- **A full queue rejects cleanly exactly when it is never asked to.**  For every sequence of
operations on a ring of capacity `c`: it behaves like three lists that add nothing beyond `c` items
if and only if no `push` finds `c` items; what it yields then are the pushed items, each once and
in order.  A machine with room for every event that arrives relays, in order and with at most
another keycode, a first part of the events it accepted. -/
theorem full_queue_rejects {S : Setup E Time} (hE : S.env.RewritesCode) {c : ℕ} (hc : 2 ≤ c) :
    (∀ ops : List (Op E), opsCalled c ThreeLists.nil ops →
      (Triqueue.Rejects c (Triqueue.create c) ThreeLists.nil ops ↔
        Triqueue.NeverFull c (Triqueue.create c) ops) ∧
      (Triqueue.NeverFull c (Triqueue.create c) ops → (∀ op ∈ ops, ¬op.writes) →
        ∃ l : ThreeLists E, Triqueue.Rep c (execAll (Triqueue.create c) ops).2 l ∧
          yields (Triqueue.create c) ops ++ l.all = ops.flatMap Op.pushed)) ∧
    ∀ (acts : List (Act E Time)) (s : Sys (Triqueue E) E Time),
      runs (Sys.step S) (Sys.create (Triqueue.create c)) acts = some s →
      (∀ u e, Arrives S c acts u e → u.machine.tq.buffer.size < c) →
      ∃ sent rest : List E, s.pushed = sent ++ rest ∧
        List.Forall₂ (SameButCode S.env) sent (relayed s.trace) := by
  have hrep : Triqueue.Rep c (Triqueue.create c : Triqueue E) ThreeLists.nil :=
    Triqueue.rep_create c hc
  refine ⟨fun ops hcalled => ⟨Triqueue.rejects_iff ops hrep hcalled, ?_⟩, ?_⟩
  · intro hfull hwrites
    exact Triqueue.yields_pushes ops hrep hcalled hwrites hfull
  · intro acts s h hroom
    obtain ⟨t, ht, halike⟩ := ring_run hc (within_of_room hc hroom) h
    obtain ⟨sent, hp, hsame⟩ := lists_conserve hE ht
    -- what was relayed comes before what is in hand and the output part
    rw [List.append_assoc, ← halike.trace] at hsame
    refine ⟨_, sent.drop (relayed s.trace).length ++ t.machine.tq.mid ++ t.machine.tq.inp, ?_,
      List.forall₂_take_append _ _ _ hsame⟩
    rw [halike.pushed, hp, ← List.append_assoc, ← List.append_assoc, List.take_append_drop]

theorem full_queue_rejects_typed : ∃ s,
    runs (Sys.step testSetup) (Sys.create (Triqueue.create 2))
      (during (.acceptEvent (down 20 100)) 8) = some s ∧
    relayed s.trace = [down 20 100] ∧
    (∃ sent rest : List TestEvent, s.pushed = sent ++ rest ∧
      List.Forall₂ (SameButCode testEnvironment) sent (relayed s.trace)) ∧
    Triqueue.Rejects 2 (Triqueue.create 2) ThreeLists.nil
      [.push (down 20 100), .push (up 20 110), .moveToSecond, .moveToFirst, .pop] := by
  have hs := Option.eq_some_of_isSome
    (o := runs (Sys.step testSetup) (Sys.create (Triqueue.create 2))
      (during (.acceptEvent (down 20 100)) 8)) (by decide)
  obtain ⟨hqueue, hruns⟩ := full_queue_rejects (S := testSetup)
    testEnvironment_lawful.toRewritesCode (le_refl 2)
  refine ⟨_, hs, by decide, hruns _ _ hs ?_, (hqueue _ ?_).1.mpr ?_⟩
  · rintro u e ⟨pre, post, heq, hu⟩
    rcases pre with - | ⟨a, pre⟩
    · cases hu
      decide
    · -- there is no other event
      have hmem : (.call (.acceptEvent e) : Act TestEvent Nat)
          ∈ List.replicate 8 (.tick false) := by
        have htail := congrArg List.tail heq
        simp only [during, List.tail_cons, List.cons_append] at htail
        rw [htail]
        exact List.mem_append_right _ List.mem_cons_self
      cases List.eq_of_mem_replicate hmem
  · exact ⟨trivial, trivial, trivial, trivial, rfl, trivial⟩
  · refine ⟨fun x _ => by decide, fun x _ => by decide, ?_⟩
    exact ⟨(fun _ h => by cases h), (fun _ h => by cases h), (fun _ h => by cases h), trivial⟩

def overfull : List (Op Nat) := [.push 5, .push 6, .push 7, .moveToSecond, .moveToSecond]

/-- The third item is counted but not stored: after two moves the input part still has an item,
and that is the first one. -/
theorem push_when_full :
    ¬Triqueue.Rejects 2 (Triqueue.create 2 : Triqueue Nat) ThreeLists.nil overfull ∧
      (execAll (Triqueue.create 2 : Triqueue Nat) overfull).2.buffer.size = 3 ∧
      (execAll (Triqueue.create 2 : Triqueue Nat) overfull).2.thirdEmpty = false ∧
      (execAll (Triqueue.create 2 : Triqueue Nat) overfull).2.peekThird = some 5 := by
  refine ⟨fun h => ?_, by decide, by decide, by decide⟩
  obtain ⟨-, -, -, -, -, -, hrep⟩ := h
  exact absurd hrep.rep.holds.size (by decide)

end ForkNS
