import ForkPlugin.Machine.Ledger

/-!
# The order of events, whatever the configuration

A host may change the configuration between any two steps.  That can spoil the decisions, but not
the order: all the machine relies on here is that it is normal just when nothing is internal.

* `Rewritten`      an event, or what `rewrite_event` makes of it;
* `Advances`       the events keep their place in line, or the oldest leaves, perhaps rewritten;
* `body_advances`  so does every iteration of the loop, under any configuration;
* `Orderly`        what was pushed is what was taken, then the output part, then the line;
* `InOrder`        the same of a machine over a ring of capacity `c`, kept by every locked part;
* `Sys.Delivers`   and of what its one caller relayed;
* `Sys.Drains`     whose output is never frozen, so that a call leaves the internal part at most.
-/

namespace ForkNS

open Machine

variable {E Time : Type}

/-- the sent event is the pushed one, or the pushed one with another code -/
def Rewritten (env : Environment E Time) (pushed sent : E) : Prop :=
  sent = pushed ∨ ∃ code, sent = env.rewriteEvent pushed code

/-- one iteration: the line stays, or its head leaves -/
structure Advances (env : Environment E Time) (l l' : ListMachine E Time) : Prop where
  normal_iff : l'.state = .normal ↔ l'.tq.mid = []
  line : l'.line = l.line ∧ l'.tq.out = l.tq.out ∨
    ∃ e r, l.line = e :: l'.line ∧ l'.tq.out = l.tq.out ++ [r] ∧ Rewritten env e r

section
variable {env : Environment E Time} {l l' : ListMachine E Time} {e r : E} {rest : List E}

theorem Advances.refl (hn : l.state = .normal ↔ l.tq.mid = []) : Advances env l l :=
  ⟨hn, .inl ⟨rfl, rfl⟩⟩

/-- with nothing internal the event leaves at once -/
theorem advances_pass (hmid : l.tq.mid = []) (hi : l.tq.inp = e :: rest)
    (hq : l'.tq = ⟨l.tq.out ++ [r], l.tq.mid, l.tq.inp.tail⟩) (hs : l'.state = .normal)
    (hr : Rewritten env e r) : Advances env l l' := by
  refine ⟨?_, .inr ⟨e, r, ?_, by rw [hq], hr⟩⟩
  · simp [hs, hq, hmid]
  · simp [line, hmid, hi, hq]

/-- the event becomes internal -/
theorem advances_keep (hi : l.tq.inp = e :: rest)
    (hq : l'.tq = ⟨l.tq.out, l.tq.mid ++ [e], l.tq.inp.tail⟩) (hs : l'.state ≠ .normal) :
    Advances env l l' := by
  refine ⟨?_, .inl ⟨?_, by rw [hq]⟩⟩
  · simp [hs, hq]
  · simp [line, hi, hq]

/-- the head of the internal part leaves, the others are to be read again -/
theorem advances_settle [Zero Time] {h : E} {t : List E} (hmid : l.tq.mid = h :: t)
    (hq : l'.tq = ⟨l.tq.out ++ [r], [], l.tq.mid.tail ++ l.tq.inp⟩) (hs : l'.state = .normal)
    (hr : Rewritten env h r) : Advances env l l' := by
  refine ⟨?_, .inr ⟨h, r, ?_, by rw [hq], hr⟩⟩
  · simp [hs, hq]
  · simp [line, hmid, hq]

end

section
variable [LinearOrder Time] [Add Time] [Zero Time] [NatCast Time] {S : Setup E Time}
  {l : ListMachine E Time}

omit [LinearOrder Time] [Add Time] [NatCast Time] in
theorem forkHead_advances (hn : l.state = .normal ↔ l.tq.mid = []) (hs : l.state ≠ .normal) :
    Advances S.env l (l.forkHead S) := by
  obtain ⟨h, t, hmid⟩ := List.exists_cons_of_ne_nil fun hmid => hs (hn.mpr hmid)
  rw [forkHead_cons S hmid]
  exact advances_settle hmid rfl rfl (.inr ⟨_, rfl⟩)

omit [LinearOrder Time] [Add Time] [NatCast Time] in
theorem confirmHead_advances (hn : l.state = .normal ↔ l.tq.mid = []) (hs : l.state ≠ .normal) :
    Advances S.env l l.confirmHead := by
  obtain ⟨h, t, hmid⟩ := List.exists_cons_of_ne_nil fun hmid => hs (hn.mpr hmid)
  rw [confirmHead_cons hmid]
  exact advances_settle hmid rfl rfl (.inl rfl)

theorem enact_advances {e : E} {rest : List E} (hn : l.state = .normal ↔ l.tq.mid = [])
    (hi : l.tq.inp = e :: rest) : Advances S.env l (l.enact S e (l.verdict S e)) := by
  have hg := guard_verdict S l e
  generalize l.verdict S e = v at hg ⊢
  cases v with
  | refork => exact advances_pass (hn.mp hg.1) hi rfl rfl (.inr ⟨_, rfl⟩)
  | startSuspect => exact advances_keep hi rfl (by simp [enact, startSuspect, Machine.keep])
  | autoRepeat => exact advances_pass (hn.mp hg.1) hi rfl hg.1 (.inl rfl)
  | selfFork => exact advances_pass (hn.mp hg.1) hi rfl hg.1 (.inl rfl)
  | unfork =>
    obtain ⟨k, t, hk⟩ := recordForkRelease_eq S l e
    rw [enact, hk]
    exact advances_pass (hn.mp hg.1) hi rfl hg.1 (.inr ⟨_, rfl⟩)
  | pass =>
    obtain ⟨k, t, hk⟩ := recordRelease_eq S l e
    rw [enact, hk]
    exact advances_pass (hn.mp hg.1) hi rfl hg.1 (.inl rfl)
  | forkHead => exact forkHead_advances hn hg.1
  | confirmHead => exact confirmHead_advances hn hg.1
  | repeatHead =>
    have hs : l.state ≠ .normal := by rw [hg.1]; decide
    have h := confirmHead_advances (S := S) (l := l.setForkActive l.suspect l.suspect) hn hs
    exact ⟨h.normal_iff, h.line⟩
  | discard => exact .refl hn
  | verify => exact advances_keep hi rfl (by simp [enact, startVerify, Machine.keep])
  | unverify => exact advances_keep hi rfl (by simp [enact, Machine.keep])
  | wait => exact advances_keep hi rfl hg.1

/-- **Every iteration keeps the order**, under any configuration. -/
theorem body_advances {l' : ListMachine E Time} {f again : Bool}
    (hn : l.state = .normal ↔ l.tq.mid = []) (hb : l.automatonBody S f = (l', again)) :
    Advances S.env l l' := by
  have hmid : l.state ≠ .normal → l.tq.mid ≠ [] := fun hs h => hs (hn.mpr h)
  cases automatonBody_iteration hb with
  | unread => exact .refl hn
  | event e hi hp =>
    obtain ⟨rest, hrest⟩ := List.head?_eq_some_iff.mp hp
    rw [respond_enact hn hrest (guard_verdict S l e)]
    exact enact_advances hn hrest
  | time hi hd =>
    rw [activateForkRewind_eq S (hmid hd.1)]
    exact forkHead_advances hn hd.1
  | force hi hd hf hs =>
    rw [transitionByForce_eq hs (hmid hs)]
    exact forkHead_advances hn hs
  | done => exact .refl hn

end

/-! ## the ledger -/

structure Orderly (env : Environment E Time) (pushed taken : List E) (l : ListMachine E Time) :
    Prop where
  normal_iff : l.state = .normal ↔ l.tq.mid = []
  sent : ∃ sent, pushed = sent ++ l.line ∧
    List.Forall₂ (Rewritten env) sent (taken ++ l.tq.out)

section
variable {env : Environment E Time} {pushed taken : List E} {l l' : ListMachine E Time}

theorem Orderly.create [Zero Time] : Orderly env [] [] (Machine.create .nil : ListMachine E Time) :=
  ⟨iff_of_true rfl rfl, [], rfl, .nil⟩

theorem Orderly.advance (h : Orderly env pushed taken l) (ha : Advances env l l') :
    Orderly env pushed taken l' := by
  obtain ⟨sent, hp, hsent⟩ := h.sent
  refine ⟨ha.normal_iff, ?_⟩
  rcases ha.line with ⟨hl, ho⟩ | ⟨e, r, hl, ho, hr⟩
  · exact ⟨sent, by rw [hl, hp], by rw [ho]; exact hsent⟩
  · refine ⟨sent ++ [e], by rw [hp, hl]; simp, ?_⟩
    rw [ho, ← List.append_assoc]
    exact List.rel_append hsent (.cons hr .nil)

/-- the clock does not matter -/
theorem Orderly.clock (h : Orderly env pushed taken l) (now : Time) :
    Orderly env pushed taken { l with mCurrentTime := now } := ⟨h.normal_iff, h.sent⟩

theorem Orderly.push (h : Orderly env pushed taken l) (e : E) :
    Orderly env (pushed ++ [e]) taken { l with tq := TriqueueOps.push l.tq e } := by
  obtain ⟨sent, hp, hsent⟩ := h.sent
  refine ⟨h.normal_iff, sent, ?_, hsent⟩
  rw [hp, List.append_assoc, line, line, List.append_assoc]
  rfl

/-- the head of the output part is taken -/
theorem Orderly.take (h : Orderly env pushed taken l) {e : E} {out : List E}
    (ho : l.tq.out = e :: out) :
    Orderly env pushed (taken ++ [e]) { l with tq := ⟨out, l.tq.mid, l.tq.inp⟩ } := by
  obtain ⟨sent, hp, hsent⟩ := h.sent
  refine ⟨h.normal_iff, sent, hp, ?_⟩
  rw [ho] at hsent
  rwa [List.append_assoc, List.singleton_append]

end

section
variable [LinearOrder Time] [Add Time] [Zero Time] [NatCast Time] {S : Setup E Time}
  {pushed taken : List E} {l : ListMachine E Time}

omit [Add Time] [NatCast Time] in
theorem Orderly.enter (h : Orderly S.env pushed taken l) (a : Call E Time) :
    Orderly S.env (pushed ++ (enter S l a).pushed) taken (enter S l a).machine := by
  have hnone : ∀ m : ListMachine E Time, Orderly S.env pushed taken m →
      Orderly S.env (pushed ++ []) taken m := fun m hm => by rwa [List.append_nil]
  cases a with
  | acceptEvent e =>
    simp only [ForkNS.enter, acceptEvent]
    split_ifs
    · exact hnone _ (h.clock 0)
    · exact hnone _ (h.clock 0)
    · exact (h.clock 0).push e
  | acceptTime now =>
    simp only [ForkNS.enter, acceptTime]
    split_ifs
    · exact hnone _ h
    · exact hnone _ (h.clock now)
  | acceptConfirmation => exact hnone _ h

theorem Orderly.tick (h : Orderly S.env pushed taken l) {frozen : Bool} {k : Control E Time}
    {x : Effect (ThreeLists E) E Time} (hx : ForkNS.tick S l frozen k = some x) :
    Orderly S.env pushed (taken ++ k.taken x.control) x.machine := by
  have hnone : ∀ {m : ListMachine E Time} {c c' : Control E Time}, Orderly S.env pushed taken m →
      c'.inHand = [] → Orderly S.env pushed (taken ++ c.taken c') m := fun hm hc => by
    rwa [taken_of_inHand hc, List.append_nil]
  cases tick_flow hx with
  | again f l' hb => exact hnone (h.advance (body_advances h.normal_iff hb)) rfl
  | done f l' hb => exact hnone (h.advance (body_advances h.normal_iff hb)) rfl
  | pop f e m' hp =>
    rcases ho : l.tq.out with - | ⟨e', out⟩
    · rw [popEventIfPresent_nil ho] at hp
      cases hp
    · rw [popEventIfPresent_eq ho] at hp
      cases hp
      exact h.take ho
  | popNone f m' hp =>
    rcases ho : l.tq.out with - | ⟨e', out⟩
    · rw [popEventIfPresent_nil ho] at hp
      cases hp
      exact hnone h rfl
    · rw [popEventIfPresent_eq ho] at hp
      cases hp
  | endTime f now m' hp =>
    obtain ⟨c, -, hclock⟩ := pushTimeToNext_eq S l
    rw [hp] at hclock
    rw [show m' = _ from hclock]
    exact hnone (h.clock c) rfl
  | endNone f m' hp =>
    obtain ⟨c, -, hclock⟩ := pushTimeToNext_eq S l
    rw [hp] at hclock
    rw [show m' = _ from hclock]
    exact hnone (h.clock c) (inHand_afterAutomaton f)
  | endFrozen f => exact hnone h (inHand_afterAutomaton f)
  | pushTime _ f => exact hnone h (inHand_afterAutomaton f)
  | _ => exact hnone h rfl

end

/-! ## over the ring -/

/-- the ledger of a machine over a ring of capacity `c` -/
def InOrder (env : Environment E Time) (c : ℕ) (pushed taken : List E)
    (m : Machine (Triqueue E) Time) : Prop :=
  ∃ l, Stands c m l ∧ Orderly env pushed taken l

section
variable [LinearOrder Time] [Add Time] [Zero Time] [NatCast Time] {S : Setup E Time} {c : ℕ}
  {pushed taken : List E} {m : Machine (Triqueue E) Time}

omit [LinearOrder Time] [Add Time] [NatCast Time] in
theorem InOrder.create {env : Environment E Time} (hc : 2 ≤ c) :
    InOrder env c [] [] (Machine.create (Triqueue.create c)) :=
  ⟨_, (create_alike hc).stands, .create⟩

omit [Add Time] [NatCast Time] in
/-- the first block of a call, when the ring holds what it pushes -/
theorem InOrder.enter (h : InOrder S.env c pushed taken m) {a : Call E Time}
    (hfit : (enter S m a).machine.tq.buffer.contentsSize ≤ c) :
    InOrder S.env c (pushed ++ (enter S m a).pushed) taken (enter S m a).machine := by
  obtain ⟨l, hst, hl⟩ := h
  have halike := enter_alike (S := S) hst (hst.room hfit)
  refine ⟨_, halike.stands, ?_⟩
  rw [halike.pushed]
  exact hl.enter a

/-- a further step of a call -/
theorem InOrder.tick (h : InOrder S.env c pushed taken m) {frozen : Bool} {k : Control E Time}
    {x : Effect (Triqueue E) E Time} (hx : ForkNS.tick S m frozen k = some x) :
    InOrder S.env c pushed (taken ++ k.taken x.control) x.machine := by
  obtain ⟨l, hst, hl⟩ := h
  obtain ⟨y, hy, halike⟩ := hst.tick hx
  refine ⟨_, halike.stands, ?_⟩
  rw [halike.control]
  exact hl.tick hy

/-! ## one caller -/

/-- what one caller relayed, and has in hand, was taken in order -/
def Sys.Delivers (env : Environment E Time) (c : ℕ) (s : Sys (Triqueue E) E Time) : Prop :=
  InOrder env c s.pushed (relayed s.trace ++ s.control.inHand) s.machine

omit [LinearOrder Time] [Add Time] [NatCast Time] in
theorem Sys.Delivers.create {env : Environment E Time} (hc : 2 ≤ c) :
    Sys.Delivers env c (Sys.create (Triqueue.create c)) :=
  InOrder.create hc

omit [Add Time] [NatCast Time] in
/-- a call that enters takes nothing -/
theorem Sys.taken_enter {s : Sys (Triqueue E) E Time} (hidle : s.control = .idle)
    (a : Call E Time) :
    relayed (s.apply (ForkNS.enter S s.machine a)).trace
        ++ (s.apply (ForkNS.enter S s.machine a)).control.inHand
      = relayed s.trace ++ s.control.inHand := by
  obtain ⟨hseen, hin⟩ := enter_quiet (S := S) (m := s.machine) a
  rw [Sys.apply, relayed_append, hseen, hin, hidle]
  simp [Control.inHand]

/-- what a further step takes -/
theorem Sys.taken_tick {s : Sys (Triqueue E) E Time} {frozen : Bool}
    {x : Effect (Triqueue E) E Time} (hx : ForkNS.tick S s.machine frozen s.control = some x) :
    relayed (s.apply x).trace ++ (s.apply x).control.inHand
      = relayed s.trace ++ s.control.inHand ++ s.control.taken x.control := by
  rw [Sys.apply, relayed_append, List.append_assoc, List.append_assoc, tick_hands hx]

omit [Add Time] [NatCast Time] in
theorem Sys.Delivers.enter {s : Sys (Triqueue E) E Time} (h : s.Delivers S.env c)
    (hidle : s.control = .idle) {a : Call E Time}
    (hfit : (ForkNS.enter S s.machine a).machine.tq.buffer.contentsSize ≤ c) :
    (s.apply (ForkNS.enter S s.machine a)).Delivers S.env c := by
  rw [Delivers, taken_enter hidle]
  exact InOrder.enter h hfit

theorem Sys.Delivers.tick {s s' : Sys (Triqueue E) E Time} (h : s.Delivers S.env c)
    {frozen : Bool} (hs : s.step S (.tick frozen) = some s') : s'.Delivers S.env c := by
  obtain ⟨x, hx, rfl⟩ := Sys.step_tick hs
  have hpushed : (s.apply x).pushed = s.pushed := by
    rw [Sys.apply, tick_pushed hx, List.append_nil]
  rw [Delivers, hpushed, taken_tick hx]
  exact InOrder.tick h hx

omit [LinearOrder Time] [Add Time] [Zero Time] [NatCast Time] in
/-- the events in the order in which they were pushed, with what was made of them -/
theorem Sys.Delivers.order {env : Environment E Time} {s : Sys (Triqueue E) E Time}
    (h : s.Delivers env c) : ∃ l : ThreeLists E, Triqueue.Rep c s.machine.tq l ∧
      ∃ sent, s.pushed = sent ++ l.mid ++ l.inp ∧
        List.Forall₂ (Rewritten env) sent (relayed s.trace ++ s.control.inHand ++ l.out) := by
  obtain ⟨l, hst, hl⟩ := h
  obtain ⟨sent, hp, hsent⟩ := hl.sent
  exact ⟨l.tq, hst.rep, sent, by rw [hp, line, List.append_assoc], hsent⟩

end

/-! ## an output that is never frozen -/

/-- the loop is not left yet -/
def Control.reads : Control E Time → Bool
  | .runAutomaton _ | .automatonLoop _ => true
  | _ => false

/-- the output part is not flushed yet -/
def Control.sends : Control E Time → Bool
  | .runAutomaton _ | .automatonLoop _ | .flushLoop _ | .relayEvent _ _ => true
  | _ => false

/-- what is left behind -/
structure Drained (k : Control E Time) (l : ListMachine E Time) : Prop where
  read : k.reads = false → l.tq.inp = []
  sent : k.sends = false → l.tq.out = []

section
variable [LinearOrder Time] [Add Time] [Zero Time] [NatCast Time] {S : Setup E Time} {c : ℕ}
  {l : ListMachine E Time} {k : Control E Time}

omit [LinearOrder Time] [Add Time] [Zero Time] [NatCast Time] in
theorem drained_reads (hr : k.reads = true) : Drained k l := by
  have hs : k.sends = true := by cases k <;> first | rfl | cases hr
  refine ⟨fun h => ?_, fun h => ?_⟩
  · rw [hr] at h
    cases h
  · rw [hs] at h
    cases h

omit [Add Time] [NatCast Time] in
theorem Drained.enter (h : Drained .idle l) (a : Call E Time) :
    Drained (enter S l a).control (enter S l a).machine := by
  cases a with
  | acceptEvent e =>
    simp only [ForkNS.enter, acceptEvent]
    split_ifs
    · exact ⟨h.read, h.sent⟩
    · exact drained_reads rfl
    · exact drained_reads rfl
  | acceptTime now =>
    simp only [ForkNS.enter, acceptTime]
    split_ifs
    · exact ⟨h.read, h.sent⟩
    · exact drained_reads rfl
  | acceptConfirmation => exact drained_reads rfl

omit [LinearOrder Time] [Add Time] [Zero Time] [NatCast Time] in
/-- a step that only goes on -/
theorem Drained.go (h : Drained k l) {k' : Control E Time} (hr : k.reads = false)
    (hs : k'.sends = false → k.sends = false) : Drained k' l :=
  ⟨fun _ => h.read hr, fun hk => h.sent (hs hk)⟩

theorem Drained.tick (h : Drained k l) {x : Effect (ThreeLists E) E Time}
    (hx : ForkNS.tick S l false k = some x) : Drained x.control x.machine := by
  cases tick_flow hx with
  | runAutomaton => exact drained_reads rfl
  | again => exact drained_reads rfl
  | done f l' hb =>
    cases automatonBody_iteration hb with
    | done hi => exact ⟨fun _ => List.isEmpty_iff.mp hi, fun hs => by cases hs⟩
  | pop f e m' hp =>
    have hinp := h.read rfl
    rcases ho : l.tq.out with - | ⟨e', out⟩
    · rw [popEventIfPresent_nil ho] at hp
      cases hp
    · rw [popEventIfPresent_eq ho] at hp
      cases hp
      exact ⟨fun _ => hinp, fun hs => by cases hs⟩
  | popNone f m' hp =>
    rcases ho : l.tq.out with - | ⟨e', out⟩
    · rw [popEventIfPresent_nil ho] at hp
      cases hp
      exact ⟨fun _ => h.read rfl, fun _ => ho⟩
    · rw [popEventIfPresent_eq ho] at hp
      cases hp
  | relay => exact h.go rfl fun hs => by cases hs
  | endTime f now m' hp =>
    obtain ⟨c, -, hclock⟩ := pushTimeToNext_eq S l
    rw [hp] at hclock
    rw [show m' = _ from hclock]
    exact ⟨fun _ => h.read rfl, fun _ => h.sent rfl⟩
  | endNone f m' hp =>
    obtain ⟨c, -, hclock⟩ := pushTimeToNext_eq S l
    rw [hp] at hclock
    rw [show m' = _ from hclock]
    exact ⟨fun _ => h.read rfl, fun _ => h.sent rfl⟩
  | pushTime _ f => exact h.go rfl fun _ => rfl
  | nextDecisionTime => exact h.go rfl fun _ => rfl
  | relock => exact h.go rfl fun _ => rfl

/-- the ledger of one caller, whose output is never frozen -/
def Sys.Drains (env : Environment E Time) (c : ℕ) (s : Sys (Triqueue E) E Time) : Prop :=
  ∃ l, Stands c s.machine l ∧
    Orderly env s.pushed (relayed s.trace ++ s.control.inHand) l ∧ Drained s.control l

omit [LinearOrder Time] [Add Time] [NatCast Time] in
theorem Sys.Drains.create {env : Environment E Time} (hc : 2 ≤ c) :
    Sys.Drains env c (Sys.create (Triqueue.create c)) :=
  ⟨_, (create_alike hc).stands, .create, ⟨fun _ => rfl, fun _ => rfl⟩⟩

omit [Add Time] [NatCast Time] in
theorem Sys.Drains.enter {s : Sys (Triqueue E) E Time} (h : s.Drains S.env c)
    (hidle : s.control = .idle) {a : Call E Time}
    (hfit : (ForkNS.enter S s.machine a).machine.tq.buffer.contentsSize ≤ c) :
    (s.apply (ForkNS.enter S s.machine a)).Drains S.env c := by
  obtain ⟨l, hst, hl, hd⟩ := h
  have halike := enter_alike (S := S) hst (hst.room hfit)
  refine ⟨_, halike.stands, ?_, ?_⟩
  · rw [taken_enter hidle, Sys.apply, halike.pushed]
    exact hl.enter a
  · rw [hidle] at hd
    rw [Sys.apply, halike.control]
    exact hd.enter a

theorem Sys.Drains.tick {s s' : Sys (Triqueue E) E Time} (h : s.Drains S.env c)
    (hs : s.step S (.tick false) = some s') : s'.Drains S.env c := by
  obtain ⟨x, hx, rfl⟩ := Sys.step_tick hs
  obtain ⟨l, hst, hl, hd⟩ := h
  obtain ⟨y, hy, halike⟩ := hst.tick hx
  refine ⟨_, halike.stands, ?_, ?_⟩
  · have hpushed : (s.apply x).pushed = s.pushed := by
      rw [Sys.apply, tick_pushed hx, List.append_nil]
    rw [hpushed, taken_tick hx, halike.control]
    exact hl.tick hy
  · rw [Sys.apply, halike.control]
    exact hd.tick hy

omit [LinearOrder Time] [Add Time] [Zero Time] [NatCast Time] in
/-- between two calls only the internal part holds events, and it does just where a key is
suspected -/
theorem Sys.Drains.order {env : Environment E Time} {s : Sys (Triqueue E) E Time}
    (h : s.Drains env c) (hidle : s.control = .idle) : ∃ mid : List E,
      Triqueue.Rep c s.machine.tq ⟨[], mid, []⟩ ∧ (s.machine.state = .normal ↔ mid = []) ∧
      ∃ sent, s.pushed = sent ++ mid ∧ List.Forall₂ (Rewritten env) sent (relayed s.trace) := by
  obtain ⟨l, hst, hl, hd⟩ := h
  rw [hidle] at hd hl
  have hinp := hd.read rfl
  have hout := hd.sent rfl
  have htq : l.tq = ⟨[], l.tq.mid, []⟩ := by
    rcases hq : l.tq with ⟨out, mid, inp⟩
    rw [hq] at hinp hout
    rw [show inp = [] from hinp, show out = [] from hout]
  obtain ⟨sent, hp, hsent⟩ := hl.sent
  refine ⟨l.tq.mid, htq ▸ hst.rep, hst.state ▸ hl.normal_iff, sent, ?_, ?_⟩
  · rw [hp, line, hinp, List.append_nil]
  · simpa [hout, Control.inHand] using hsent

end

end ForkNS
