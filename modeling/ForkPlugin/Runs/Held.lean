import ForkPlugin.Machine.Ring
import ForkPlugin.Machine.View
import ForkPlugin.Machine.TestEvents

/-!
# Forks that no deadline decides

Two branches fork the head of the internal part without a look at the time: a forced confirmation,
and a press of a key that is forked already.

* `ForcesFork`         the next step of the loop is a forced one;
* `force_forks_held`   it forks the press of a key that was not released since;
* `Undecided`          what a step that decides nothing leaves as it was;
* `repeat_decides`     a press of a forked key decides the suspect, whichever it is.
-/

namespace ForkNS

open Runs Machine

variable {E Time : Type} [LinearOrder Time] [Add Time] [Zero Time] [NatCast Time]
  {S : Setup E Time} {c : ℕ} {acts : List (Act E Time)} {s : Sys (Triqueue E) E Time}

/-! ## forced confirmations -/

/-- `accept_confirmation` is at the head of the loop, no event waits to be read, the timer decides
nothing, and a key is suspected -/
def ForcesFork {Q : Type} [TriqueueOps Q E] (s : Sys Q E Time) : Prop :=
  s.control = .automatonLoop true ∧ TriqueueOps.thirdEmpty s.machine.tq = true ∧
    ¬s.machine.TimerDue ∧ s.machine.state ≠ .normal

/-- **A forced confirmation forks keys that are still held.**  The head of the internal part is the
press of the suspect, and no release of it is behind it in the queue. -/
theorem force_forks_held (hc : 2 ≤ c) (hw : WithinCapacity S c acts)
    (h : runs (Sys.step S) (Sys.create (Triqueue.create c)) acts = some s) (hf : ForcesFork s) :
    s.step S (.tick false) = some (s.apply
        { machine := s.machine.activateForkRewind S
          control := .automatonLoop true
          seen := [.outputFrozen false] }) ∧
      ∃ head, s.machine.tq.peekMiddle = some head ∧ S.env.pressP head = true ∧
        S.env.detailOf head = s.machine.suspect ∧
        ∀ i e, s.machine.tq.endOutput < i → i < s.machine.tq.buffer.size →
          s.machine.tq.buffer.atUnchecked i = some e → S.env.releaseP e = true →
          S.env.detailOf e ≠ s.machine.suspect := by
  obtain ⟨hcontrol, hi, hd, hs⟩ := hf
  obtain ⟨t, ht, halike⟩ := ring_run hc hw h
  have hsound : Sound S t.machine := runs_sound ht
  have hrep := halike.stands.rep
  obtain ⟨head, rest, hmid, hpress, -, -, hsuspect⟩ := hsound.head (halike.stands.state ▸ hs)
  rw [← halike.stands.suspect] at hsuspect
  have hne : t.machine.tq.mid ≠ [] := by simp [hmid]
  have hmiddle : TriqueueOps.middleEmpty s.machine.tq = false := by
    rw [show TriqueueOps.middleEmpty s.machine.tq = _ from Triqueue.middleEmpty_eq hrep, hmid]
    rfl
  refine ⟨?_, head, ?_, hpress, hsuspect.symm, ?_⟩
  · have hbody := automatonBody_force (S := S) hi hd ⟨rfl, hs⟩
    have hforce : s.machine.transitionByForce S = s.machine.activateForkRewind S := by
      rw [transitionByForce, if_neg hs, hmiddle]
      rfl
    rw [hforce] at hbody
    simp only [Sys.step, hcontrol, tick, hbody]
    rfl
  · rw [Triqueue.peekMiddle_eq hrep hne, hmid]
    rfl
  · intro i e hlt hsize he hr
    have hinp : t.machine.tq.inp = [] := by
      rw [show TriqueueOps.thirdEmpty s.machine.tq = _ from Triqueue.thirdEmpty_eq hrep] at hi
      exact List.isEmpty_iff.mp hi
    have hmem := (Triqueue.mem_behind hrep hmid).mp ⟨i, hlt, hsize, he⟩
    rw [hinp, List.append_nil] at hmem
    rw [hsuspect]
    exact hsound.not_released hmid e hmem hr

def movedMouse : List (Act TestEvent Nat) :=
  during (.acceptEvent (down 3 100)) 7 ++ during (.acceptEvent (down 20 110)) 7 ++
    during (.acceptEvent (up 20 120)) 7 ++ during .acceptConfirmation 1

theorem force_forks_held_mouse : ∃ s,
    runs (Sys.step testSetup) (Sys.create (Triqueue.create 3)) movedMouse = some s ∧
    s.machine.suspect = 3 ∧ s.machine.tq.buffer.atUnchecked 2 = some (up 20 120) ∧
    s.step testSetup (.tick false) = some (s.apply
        { machine := s.machine.activateForkRewind testSetup
          control := .automatonLoop true
          seen := [.outputFrozen false] }) ∧
      ∃ head, s.machine.tq.peekMiddle = some head ∧ testSetup.env.pressP head = true ∧
        testSetup.env.detailOf head = s.machine.suspect ∧
        ∀ i e, s.machine.tq.endOutput < i → i < s.machine.tq.buffer.size →
          s.machine.tq.buffer.atUnchecked i = some e → testSetup.env.releaseP e = true →
          testSetup.env.detailOf e ≠ s.machine.suspect := by
  have hs := Option.eq_some_of_isSome
    (o := runs (Sys.step testSetup) (Sys.create (Triqueue.create 3)) movedMouse) (by decide)
  refine ⟨_, hs, by decide, by decide, force_forks_held (by decide) (by decide) hs ?_⟩
  refine ⟨by decide, by decide, ?_, by decide⟩
  rintro ⟨-, hclock, -⟩
  exact absurd hclock (by decide)

/-! ## repeats of a forked key -/

/-- nothing is decided: the state, the suspect, its deadline and its `forkActive` are as they were,
and its press is still the head of the internal part -/
structure Undecided (m m' : Machine (Triqueue E) Time) : Prop where
  state : m'.state = m.state
  suspect : m'.suspect = m.suspect
  deadline : m'.mDecisionTime = m.mDecisionTime
  forkActive : m'.forkActive m.suspect = m.forkActive m.suspect
  internal : m'.tq.middleEmpty = false ∧
    ∃ head, m.tq.peekMiddle = some head ∧ m'.tq.peekMiddle = some head

structure RepeatsForked (S : Setup E Time) (m : Machine (Triqueue E) Time) (e : E) : Prop where
  suspected : m.state ≠ .normal
  next : m.tq.thirdEmpty = false ∧ m.tq.peekThird = some e
  press : S.env.pressP e = true
  forked : m.keyForked (S.env.detailOf e) = true
  other : S.env.detailOf e ≠ m.suspect
  early : S.env.timeOf e < m.mDecisionTime

theorem RepeatsForked.branch {m : Machine (Triqueue E) Time} {e : E} (hrep : RepeatsForked S m e) :
    m.transitionByKey S e = m.moveToSecond.activateForkRewind S := by
  have hk := (forkedPress_iff (S := S) (m := m)).mpr ⟨hrep.press, hrep.forked⟩
  rw [transitionByKey, if_pos hk]

theorem RepeatsForked.decides {m : Machine (Triqueue E) Time} {e : E}
    (hrep : RepeatsForked S m e) : ¬Undecided m (m.transitionByKey S e) := by
  intro hund
  obtain ⟨hmiddle, head, hpeek, -⟩ := hund.internal
  have hstate := hund.state
  rw [hrep.branch, activateForkRewind] at hmiddle hstate
  cases hempty : TriqueueOps.middleEmpty m.moveToSecond.tq with
  | true =>
    -- nothing is in the internal part
    rw [hempty, if_pos rfl, check_tq] at hmiddle
    exact absurd (hempty.symm.trans hmiddle) (by decide)
  | false =>
    have hhead : TriqueueOps.peekMiddle m.moveToSecond.tq = some head := by
      rw [moveToSecond_tq]
      exact (Triqueue.peekMiddle_moveToSecond m.tq).trans hpeek
    simp only [hempty, hhead, Bool.false_eq_true, if_false] at hstate
    exact hrep.suspected hstate.symm

/-- **A press of a forked key decides the suspect.**  It is never left undecided: within the
capacity it is forked. -/
theorem repeat_decides (hc : 2 ≤ c)
    (h : runs (Sys.step S) (Sys.create (Triqueue.create c)) acts = some s) {e : E}
    (hrep : RepeatsForked S s.machine e) :
    ¬Undecided s.machine (s.machine.transitionByKey S e) ∧
      (WithinCapacity S c acts → (s.machine.transitionByKey S e).state = .normal ∧
        (s.machine.transitionByKey S e).forkActive s.machine.suspect
          = S.config.forkKeycode s.machine.suspect) := by
  refine ⟨hrep.decides, fun hw => ?_⟩
  obtain ⟨t, ht, halike⟩ := ring_run hc hw h
  have hstands := halike.stands
  have hsound : Sound S t.machine := runs_sound ht
  have hs : t.machine.state ≠ .normal := hstands.state ▸ hrep.suspected
  obtain ⟨rest, hi⟩ := Triqueue.inp_of_peek hstands.rep hrep.next.1 hrep.next.2
  obtain ⟨head, tail, hmid, -, -, -, hsuspect⟩ := hsound.head hs
  have hverdict : t.machine.verdict S e = .forkHead := by
    have hforked := hrep.forked
    rw [keyForked, hstands.forkActive] at hforked
    have hk := (forkedPress_iff (S := S) (m := t.machine)).mpr ⟨hrep.press, hforked⟩
    rw [verdict, if_pos hk, if_neg hs]
  have hkey : t.machine.transitionByKey S e = t.machine.forkHead S := by
    rw [transitionByKey_eq hsound.coherent.normal_iff hi, hverdict, enact]
  have hafter := hstands.transitionByKey (S := S) e (by simp [hi])
  rw [hkey, forkHead_cons S hmid] at hafter
  refine ⟨hafter.state, ?_⟩
  rw [hafter.forkActive, hstands.suspect, hsuspect]
  exact Function.update_self _ _ _

def repeatedBehind : List (Act TestEvent Nat) :=
  during (.acceptEvent (down 1 100)) 7 ++ during (.acceptEvent (down 3 150)) 7 ++
    during (.acceptEvent (down 1 200)) 7 ++ during (.acceptTime 1100) 3

theorem repeat_decides_behind : ∃ s,
    runs (Sys.step testSetup) (Sys.create (Triqueue.create 3)) repeatedBehind = some s ∧
    s.machine.suspect = 3 ∧
    ¬Undecided s.machine (s.machine.transitionByKey testSetup (down 1 200)) ∧
      (WithinCapacity testSetup 3 repeatedBehind →
        (s.machine.transitionByKey testSetup (down 1 200)).state = .normal ∧
        (s.machine.transitionByKey testSetup (down 1 200)).forkActive s.machine.suspect
          = testSetup.config.forkKeycode s.machine.suspect) := by
  have hs := Option.eq_some_of_isSome
    (o := runs (Sys.step testSetup) (Sys.create (Triqueue.create 3)) repeatedBehind) (by decide)
  exact ⟨_, hs, by decide, repeat_decides (by decide) hs
    ⟨by decide, by decide, by decide, by decide, by decide, by decide⟩⟩

/-- Key 3 is forked at 200 ms, before its deadline 350, because key 1 repeats. -/
theorem repeat_forks_other : ∃ s,
    runs (Sys.step testSetup) (Sys.create (Triqueue.create 3)) repeatedBehind = some s ∧
    WithinCapacity testSetup 3 repeatedBehind ∧
    s.machine.state = .suspect ∧ s.machine.suspect = 3 ∧ s.machine.mDecisionTime = 350 ∧
    s.machine.tq.peekThird = some (down 1 200) ∧ s.machine.forkActive 1 = 11 ∧
    s.machine.forkActive 3 = 0 ∧
    ¬Undecided s.machine (s.machine.transitionByKey testSetup (down 1 200)) ∧
    (s.machine.transitionByKey testSetup (down 1 200)).forkActive 3 = 13 := by
  have hs := Option.eq_some_of_isSome
    (o := runs (Sys.step testSetup) (Sys.create (Triqueue.create 3)) repeatedBehind) (by decide)
  refine ⟨_, hs, by decide, by decide, by decide, by decide, by decide, by decide, by decide,
    fun hund => ?_, by decide⟩
  exact absurd hund.state (by decide)

end ForkNS
