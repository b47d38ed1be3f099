import ForkPlugin.Machine.Ring
import ForkPlugin.Machine.Subscripts
import ForkPlugin.Ports.WinEvent
import ForkPlugin.Runs.Keystroke

/-!
# The subscripts of the tables stay below `MAX_KEYCODE`

`accept_event` turns away the keycodes above `MAX_KEYCODE`.  If `MAX_KEYCODE` itself never comes,
every subscript of the tables is in range.

* `CircularBuffer.Cells`   what holds of every cell of the array;
* `TargetsBelow`       forks and rewritten events are in range; needed where the ring overflows;
* `InRange`            then the cells of the queue and `forkActive` are in range in every run;
* `heads_in_of_rep`    the heads of a queue that stands for three lists are in these lists;
* `subscripts_below`   every subscript that a step of a run uses is in range;
* `maxKeycode_passes`  a packet that the driver receives has the keycode 512.
-/

namespace ForkNS

/-! ## cells -/

namespace CircularBuffer
variable {α : Type} {P : α → Prop} {b : CircularBuffer α}

/-- what is constructed in the array satisfies `P` -/
def Cells (P : α → Prop) (b : CircularBuffer α) : Prop := ∀ x, some x ∈ b.array → P x

theorem cells_create (c : ℕ) : Cells P (create c : CircularBuffer α) := by
  intro x hx
  cases List.eq_of_mem_replicate hx

theorem Cells.cell (h : Cells P b) {i : ℕ} {x : α} (hx : b.cell i = some x) : P x :=
  h x (List.mem_of_getElem? (Option.join_eq_some_iff.mp hx))

theorem Cells.write (h : Cells P b) (i : ℕ) {x : α} (hx : P x) : Cells P (b.write i x) := by
  intro y hy
  rcases List.mem_or_eq_of_mem_set hy with hy | hy
  · exact h y hy
  · cases hy
    exact hx

theorem Cells.pushBack (h : Cells P b) {x : α} (hx : P x) : Cells P (b.pushBack false x) := by
  simp only [CircularBuffer.pushBack, Bool.false_eq_true, if_false]
  split_ifs
  · exact h
  · exact h.write _ hx

theorem Cells.incrementHead (h : Cells P b) : Cells P b.incrementHead := h

end CircularBuffer

open Runs Machine

variable {E Time : Type} {S : Setup E Time} {c : ℕ}

namespace Machine
variable {P : E → Prop} {m : Machine (Triqueue E) Time}

theorem cells_check (h : m.tq.buffer.Cells P) (b : Bool) (bug : Bug) :
    (m.check b bug).tq.buffer.Cells P := by
  rw [check_tq]
  exact h

theorem cells_moveToFirst (h : m.tq.buffer.Cells P) : m.moveToFirst.tq.buffer.Cells P := by
  show (Triqueue.moveToFirst _).buffer.Cells _
  unfold Triqueue.moveToFirst
  split_ifs <;> exact cells_check h _ _

theorem cells_moveToSecond (h : m.tq.buffer.Cells P) : m.moveToSecond.tq.buffer.Cells P := by
  show (Triqueue.moveToSecond _).buffer.Cells _
  unfold Triqueue.moveToSecond
  split_ifs <;> exact cells_check h _ _

theorem cells_pop (h : m.tq.buffer.Cells P) : m.pop.tq.buffer.Cells P :=
  (cells_check h _ _).incrementHead

end Machine

/-! ## what the machine holds -/

/-- the event has a keycode that the tables have -/
def KeyBelow (S : Setup E Time) (e : E) : Prop := S.env.detailOf e < S.maxKeycode

/-- a fork of a key in range is in range, and so is an event rewritten to it -/
structure TargetsBelow (S : Setup E Time) : Prop where
  fork : ∀ key < S.maxKeycode, S.config.forkKeycode key < S.maxKeycode
  rewritten : ∀ e code, KeyBelow S e → code < S.maxKeycode → KeyBelow S (S.env.rewriteEvent e code)

/-- what the machine holds is in range -/
structure InRange (S : Setup E Time) (m : Machine (Triqueue E) Time) : Prop where
  cells : m.tq.buffer.Cells (KeyBelow S)
  forks : ∀ key < S.maxKeycode, m.forkActive key < S.maxKeycode

namespace InRange
variable {m : Machine (Triqueue E) Time} {e : E}

/-- the heads are read from cells -/
theorem headsIn (h : InRange S m) : HeadsIn S (· < S.maxKeycode) m.tq := by
  refine ⟨fun e _ he => h.cells.cell he, fun e _ he => h.cells.cell he, fun e _ he => ?_⟩
  refine CircularBuffer.Cells.cell (P := KeyBelow S) ?_ he
  show (m.tq.moveToSecond).buffer.Cells (KeyBelow S)
  unfold Triqueue.moveToSecond
  split_ifs <;> exact h.cells

/-! ### the queue -/

theorem check (h : InRange S m) (b : Bool) (bug : Bug) : InRange S (m.check b bug) := by
  unfold Machine.check
  split_ifs
  · exact h
  · exact ⟨h.cells, h.forks⟩

theorem moveToFirst (h : InRange S m) : InRange S m.moveToFirst :=
  ⟨cells_moveToFirst h.cells, (h.check _ _).forks⟩

theorem moveToSecond (h : InRange S m) : InRange S m.moveToSecond :=
  ⟨cells_moveToSecond h.cells, (h.check _ _).forks⟩

theorem push (h : InRange S m) (he : KeyBelow S e) :
    InRange S { m with tq := TriqueueOps.push m.tq e } :=
  ⟨h.cells.pushBack he, h.forks⟩

theorem pop (h : InRange S m) : InRange S m.pop := ⟨cells_pop h.cells, (h.check _ _).forks⟩

theorem setForkActive (h : InRange S m) (key : Keycode) {code : Keycode}
    (hcode : code < S.maxKeycode) : InRange S (m.setForkActive key code) := by
  refine ⟨h.cells, fun k hk => ?_⟩
  show Function.update m.forkActive key code k < S.maxKeycode
  by_cases hkey : k = key
  · rw [hkey, Function.update_self]
    exact hcode
  · rw [Function.update_of_ne hkey]
    exact h.forks k hk

variable [Zero Time]

theorem rewindMachine (h : InRange S m) : InRange S m.rewindMachine := ⟨h.cells, h.forks⟩

theorem doConfirmNonForkBy (h : InRange S m) : InRange S m.doConfirmNonForkBy :=
  (h.check _ _).moveToFirst.rewindMachine

/-! ### transitions -/

theorem activateForkRewind (hT : TargetsBelow S) (h : InRange S m) :
    InRange S (m.activateForkRewind S) := by
  unfold Machine.activateForkRewind
  cases hm : TriqueueOps.middleEmpty m.tq with
  | true => exact h.check false .emptyQueue
  | false =>
    cases hp : TriqueueOps.peekMiddle m.tq with
    | none => exact h
    | some e =>
      have he : KeyBelow S e := h.headsIn.middle e hm hp
      have hcode := hT.fork _ he
      have hset := h.setForkActive (S.env.detailOf e) hcode
      have hwrite : InRange S
          { m.setForkActive (S.env.detailOf e) (S.config.forkKeycode (S.env.detailOf e)) with
            tq := TriqueueOps.writeMiddle m.tq
              (S.env.rewriteEvent e ((m.setForkActive (S.env.detailOf e)
                (S.config.forkKeycode (S.env.detailOf e))).forkActive (S.env.detailOf e))) } := by
        refine ⟨hset.cells.write _ (hT.rewritten e _ he ?_), hset.forks⟩
        exact hset.forks _ he
      exact hwrite.moveToFirst.rewindMachine

/-- the event is the head of the input part -/
theorem respond [LinearOrder Time] [Add Time] [NatCast Time] (hT : TargetsBelow S)
    (h : InRange S m) (he : KeyBelow S e) {v : Verdict} (hg : m.guard S e v) :
    InRange S (m.respond S e v) := by
  cases v with
  | refork => exact h.moveToSecond.activateForkRewind hT
  | startSuspect =>
    exact moveToSecond (m := { m with
      state := .suspect
      suspect := S.env.detailOf e
      suspectTime := S.env.timeOf e
      mDecisionTime := S.env.timeOf e + S.config.verificationIntervalOf (S.env.detailOf e) noKey })
      ⟨h.cells, h.forks⟩
  | autoRepeat => exact h.moveToSecond.moveToFirst
  | selfFork => exact ((h.setForkActive _ he).check _ _).moveToSecond.moveToFirst
  | unfork =>
    have hpos : noKey < S.maxKeycode := lt_of_le_of_lt (Nat.zero_le _) he
    have hnote : InRange S (m.noteForkRelease S e) := by
      unfold noteForkRelease recordLastReleaseEvent
      split_ifs <;> exact ⟨h.cells, h.forks⟩
    have hwrite : InRange S { m.noteForkRelease S e with
        tq := TriqueueOps.writeThird (m.noteForkRelease S e).tq
          (S.env.rewriteEvent e ((m.noteForkRelease S e).forkActive (S.env.detailOf e))) } :=
      ⟨hnote.cells.write _ (hT.rewritten e _ he (hnote.forks _ he)), hnote.forks⟩
    exact (hwrite.setForkActive _ hpos).moveToSecond.moveToFirst
  | pass =>
    have hnote : InRange S (m.noteRelease S e) := by
      unfold noteRelease recordLastReleaseEvent
      split_ifs <;> exact ⟨h.cells, h.forks⟩
    exact hnote.moveToSecond.moveToFirst
  | forkHead =>
    simp only [Machine.respond]
    split_ifs
    · exact h.moveToSecond.activateForkRewind hT
    · exact h.activateForkRewind hT
  | confirmHead => exact h.doConfirmNonForkBy
  | repeatHead =>
    -- the suspect is the key of the event
    have hs : m.suspect < S.maxKeycode := hg.2.2.2.1 ▸ he
    exact (h.setForkActive _ hs).doConfirmNonForkBy
  | discard => exact h
  | verify =>
    exact moveToSecond (m := { m with
      state := .verify
      verificatorTime := S.env.timeOf e
      verificatorKeycode := S.env.detailOf e
      mDecisionTime := min m.mDecisionTime (S.config.verifierDecisionTime m.suspect m.suspectTime
        (S.env.detailOf e) (S.env.timeOf e)) }) ⟨h.cells, h.forks⟩
  | unverify =>
    exact moveToSecond (m := { m with state := .suspect, verificatorKeycode := noKey })
      ⟨h.cells, h.forks⟩
  | wait => exact h.moveToSecond

theorem automatonBody [LinearOrder Time] [Add Time] [NatCast Time] (hT : TargetsBelow S)
    (h : InRange S m) {f again : Bool} {m' : Machine (Triqueue E) Time}
    (hb : m.automatonBody S f = (m', again)) : InRange S m' := by
  cases automatonBody_iteration hb with
  | unread | done => exact h
  | event e hi hp => exact h.respond hT (h.headsIn.third e hi hp) (guard_verdict S m e)
  | time => exact h.activateForkRewind hT
  | force =>
    unfold transitionByForce
    split_ifs
    · exact h
    · exact h.activateForkRewind hT
    · exact h.check false .forceEmpty

variable [LinearOrder Time] [Add Time] [NatCast Time]

/-! ### runs -/

theorem keeps (hT : TargetsBelow S) :
    Keeps S (fun e => S.env.detailOf e ≠ S.maxKeycode) (InRange S) where
  clock _ _ h := ⟨h.cells, h.forks⟩
  push _ _ h he hle := h.push (lt_of_le_of_ne hle he)
  pop _ h _ := h.pop
  body _ _ _ _ h hb := h.automatonBody hT hb

/-- no event with the keycode `MAX_KEYCODE` comes -/
theorem run (hT : TargetsBelow S) {acts : List (Act E Time)} {s : Sys (Triqueue E) E Time}
    (hkeys : ∀ e ∈ offered acts, S.env.detailOf e ≠ S.maxKeycode)
    (h : runs (Sys.step S) (Sys.create (Triqueue.create c)) acts = some s) :
    InRange S s.machine := by
  refine (keeps hT).run ?_ hkeys h
  exact ⟨CircularBuffer.cells_create c, fun key hkey => lt_of_le_of_lt (Nat.zero_le _) hkey⟩

end InRange

/-! ## within the capacity -/

section
variable {P : Keycode → Prop}

theorem moveToSecond_line (l : ThreeLists E) :
    (TriqueueOps.moveToSecond l).mid ++ (TriqueueOps.moveToSecond l).inp = l.mid ++ l.inp := by
  rcases l with ⟨out, mid, - | ⟨e, inp⟩⟩ <;> simp [TriqueueOps.moveToSecond]

theorem middle_in_of_rep {q : Triqueue E} {l : ThreeLists E} (hrep : Triqueue.Rep c q l)
    (h : ∀ e ∈ l.mid ++ l.inp, P (S.env.detailOf e)) : MiddleIn S P q := by
  intro e hm he
  obtain ⟨mid, hmid⟩ := Triqueue.mid_of_peek hrep hm he
  exact h e (List.mem_append_left _ (hmid ▸ List.mem_cons_self))

theorem heads_in_of_rep {q : Triqueue E} {l : ThreeLists E} (hrep : Triqueue.Rep c q l)
    (h : ∀ e ∈ l.mid ++ l.inp, P (S.env.detailOf e)) : HeadsIn S P q where
  third e hi he := by
    obtain ⟨inp, hinp⟩ := Triqueue.inp_of_peek hrep hi he
    exact h e (List.mem_append_right _ (hinp ▸ List.mem_cons_self))
  middle := middle_in_of_rep hrep h
  moved := by
    refine middle_in_of_rep (Triqueue.rep_moveToSecond hrep) ?_
    rw [moveToSecond_line]
    exact h

end

variable [LinearOrder Time] [Add Time] [Zero Time] [NatCast Time]

/-- what was pushed was not turned away -/
theorem pushed_below {acts : List (Act E Time)} {t : Sys (ThreeLists E) E Time}
    (hkeys : ∀ e ∈ offered acts, S.env.detailOf e ≠ S.maxKeycode)
    (h : runs (Sys.step S) (Sys.create .nil) acts = some t) : ∀ e ∈ t.pushed, KeyBelow S e := by
  induction acts using List.reverseRecOn generalizing t with
  | nil =>
    cases h
    intro e he
    cases he
  | append_singleton acts a ih =>
    obtain ⟨u, hu, hstep⟩ := runs_snoc_some.mp h
    rw [offered_append] at hkeys
    have hind := ih (fun e he => hkeys e (List.mem_append_left _ he)) hu
    rcases step_pushed hstep with ⟨-, hp⟩ | ⟨e, rfl, hp⟩
    · rw [hp]
      exact hind
    · rw [hp]
      intro e' he'
      rcases List.mem_append.mp he' with he' | he'
      · exact hind e' he'
      · split_ifs at he' with hcase
        · cases he'
        · obtain rfl := List.mem_singleton.mp he'
          have hle := not_lt.mp (not_or.mp hcase).1
          exact lt_of_le_of_ne hle (hkeys e' (List.mem_append_right _ (List.mem_singleton_self e')))

/-- the heads of the queue in a run -/
theorem run_heads_in (hc : 2 ≤ c) {acts : List (Act E Time)} {s : Sys (Triqueue E) E Time}
    (hroom : WithinCapacity S c acts ∨ TargetsBelow S)
    (hkeys : ∀ e ∈ offered acts, S.env.detailOf e ≠ S.maxKeycode)
    (h : runs (Sys.step S) (Sys.create (Triqueue.create c)) acts = some s) :
    HeadsIn S (· < S.maxKeycode) s.machine.tq := by
  rcases hroom with hw | hT
  · obtain ⟨t, ht, halike⟩ := ring_run hc hw h
    obtain ⟨sent, hsent⟩ := Sys.pushed_line ht
    refine heads_in_of_rep halike.stands.rep fun e he => ?_
    refine pushed_below hkeys ht e ?_
    rw [hsent]
    exact List.mem_append_right _ he
  · exact (InRange.run hT hkeys h).headsIn

/-- **Every subscript is in range** in a run to which no event with the keycode `MAX_KEYCODE` comes.
Where the ring overflows, the forks have to be in range too. -/
theorem subscripts_below (hc : 2 ≤ c) {acts : List (Act E Time)}
    (hkeys : ∀ e ∈ offered acts, S.env.detailOf e ≠ S.maxKeycode)
    (hroom : WithinCapacity S c acts ∨ TargetsBelow S) :
    EachStep (Sys.step S) (Sys.create (Triqueue.create c))
      (fun u a => ∀ x ∈ u.subscripts S a, x.2 < S.maxKeycode) acts := by
  rintro pre a post u rfl hu
  rw [offered_append] at hkeys
  cases a with
  | tick frozen =>
    refine tick_subscripts_in (run_heads_in hc ?_ ?_ hu) frozen u.control
    · exact hroom.imp_left Within.left
    · exact fun e he => hkeys e (List.mem_append_left _ he)
  | call b =>
    intro x hx
    cases b with
    | acceptEvent e =>
      simp only [Sys.subscripts, enterSubscripts] at hx
      cases hcontrol : u.control with
      | idle =>
        rw [hcontrol] at hx
        simp only at hx
        split_ifs at hx with hmax hp
        · cases hx
        · rw [List.mem_singleton.mp hx]
          refine lt_of_le_of_ne (not_lt.mp hmax) (hkeys e (List.mem_append_right _ ?_))
          exact List.mem_cons_self
        · cases hx
      | _ =>
        rw [hcontrol] at hx
        cases hx
    | _ =>
      simp only [Sys.subscripts, enterSubscripts] at hx
      split at hx <;> cases hx

/-- the machine of the driver, with no forks -/
abbrev driverSetup : Setup ExtendedEvent ℤ :=
  winSetup ⟨fun _ => 0, fun _ => false, none, 80, true⟩

/-- a press that is read and relayed -/
def readPacket (event : KeyboardInputData) : List (Act ExtendedEvent ℤ) :=
  .call (.acceptEvent (winEventToExtended event 10)) :: List.replicate 8 (.tick false)

theorem subscripts_below_alt :
    EachStep (Sys.step driverSetup) (Sys.create (Triqueue.create 2))
      (fun u a => ∀ x ∈ u.subscripts driverSetup a, x.2 < driverSetup.maxKeycode)
      (readPacket rightAlt) :=
  subscripts_below (by decide) (by decide) (.inl (by decide))

/-- a packet with the prefix E1 and no make code -/
def prefixE1 (flags : UInt16) : KeyboardInputData := ⟨0, 0, keyE1 ||| flags, 0, 0⟩

/-- The keycode 512 passes the guard.  For a press it is a subscript at once, for a release when the
event is read. -/
theorem maxKeycode_passes :
    (Sys.create (Triqueue.create 2) : Sys (Triqueue ExtendedEvent) ExtendedEvent ℤ).subscripts
        driverSetup (.call (.acceptEvent (winEventToExtended (prefixE1 0) 10)))
      = [(.forkActive, 512)] ∧
    (∃ s, runs (Sys.step driverSetup) (Sys.create (Triqueue.create 2))
        ((readPacket (prefixE1 keyBreak)).take 2) = some s ∧
      s.subscripts driverSetup (.tick false)
        = [(.forkActive, 512), (.forkKeycode, 512), (.forkActive, 512)]) ∧
    ∀ flags ∈ [0, keyBreak],
      WithinCapacity driverSetup 2 (readPacket (prefixE1 flags)) ∧
      ¬EachStep (Sys.step driverSetup) (Sys.create (Triqueue.create 2))
        (fun u a => ∀ x ∈ u.subscripts driverSetup a, x.2 < driverSetup.maxKeycode)
        (readPacket (prefixE1 flags)) := by
  have hs := Option.eq_some_of_isSome (o := runs (Sys.step driverSetup)
    (Sys.create (Triqueue.create 2)) ((readPacket (prefixE1 keyBreak)).take 2)) (by decide)
  refine ⟨by decide, ⟨_, hs, by decide⟩, ?_⟩
  intro flags hflags
  simp only [List.mem_cons, List.not_mem_nil, or_false] at hflags
  rcases hflags with rfl | rfl
  · exact ⟨by decide, by decide⟩
  · exact ⟨by decide, by decide⟩

end ForkNS
