import ForkPlugin.Machine.Streams
import ForkPlugin.Machine.View

/-!
# What leaves the machine, and as what

Every move either leaves the events where they are in line, or sends the oldest undecided one.
`Sends S fa e r fa'` says as what: `e` leaves as `r`, and `forkActive` turns from `fa` into `fa'`.

* `Sends`         the four ways to leave;
* `Sends.down`    a key with `forkActive` set was pressed and not released by what left;
* `Move.sends`    every move of a sound view is of one of these two kinds.
-/

namespace ForkNS

variable {E Time : Type}

/-- the ways an event leaves -/
inductive Sends (S : Setup E Time) (fa : Keycode → Keycode) (e : E) :
    E → (Keycode → Keycode) → Prop
  | fork (hp : S.env.pressP e) (hk : S.config.forkKeycode (S.env.detailOf e) ≠ noKey ∨
        fa (S.env.detailOf e) ≠ S.env.detailOf e ∧ fa (S.env.detailOf e) ≠ noKey) :
      Sends S fa e (S.env.rewriteEvent e (S.config.forkKeycode (S.env.detailOf e)))
        (Function.update fa (S.env.detailOf e) (S.config.forkKeycode (S.env.detailOf e)))
  | selfFork (hp : S.env.pressP e) :
      Sends S fa e e (Function.update fa (S.env.detailOf e) (S.env.detailOf e))
  | unfork (hr : S.env.releaseP e) (hf : fa (S.env.detailOf e) ≠ noKey) :
      Sends S fa e (S.env.rewriteEvent e (fa (S.env.detailOf e)))
        (Function.update fa (S.env.detailOf e) noKey)
  | plain (hp : S.env.pressP e → fa (S.env.detailOf e) = S.env.detailOf e ∨
        fa (S.env.detailOf e) = noKey)
      (hr : S.env.releaseP e → S.env.pressP e ∨ fa (S.env.detailOf e) = noKey) :
      Sends S fa e e fa

/-- a key with `forkActive` set was pressed by what left, and not released since -/
theorem Sends.down {S : Setup E Time} {fa fa' : Keycode → Keycode} {e r : E} {sent : List E}
    (hs : Sends S fa e r fa') (h : ∀ k, fa k ≠ noKey → isDown S.env sent k = true) :
    ∀ k, fa' k ≠ noKey → isDown S.env (sent ++ [e]) k = true := by
  intro k hk
  by_cases he : k = S.env.detailOf e
  · subst he
    cases hs with
    | fork hp => exact isDown_press hp
    | selfFork hp => exact isDown_press hp
    | unfork => exact absurd (Function.update_self _ _ _) hk
    | plain hp hr =>
      rw [isDown_snoc, if_pos rfl]
      split_ifs with hp' hr'
      · rfl
      · exact absurd ((hr hr').resolve_left hp') hk
      · exact h _ hk
  · rw [isDown_other (Ne.symm he)]
    refine h k fun hfa => hk ?_
    cases hs with
    | plain => exact hfa
    | _ => rwa [Function.update_of_ne he]

namespace Machine
variable {S : Setup E Time}

def line (m : ListMachine E Time) : List E := m.tq.mid ++ m.tq.inp

def Stays (m : ListMachine E Time) (es : List E) (m' : ListMachine E Time) : Prop :=
  m'.line = m.line ++ es ∧ m'.tq.out = m.tq.out ∧ m'.forkActive = m.forkActive

def SendsFirst (S : Setup E Time) (m m' : ListMachine E Time) : Prop :=
  ∃ e r, m.line = e :: m'.line ∧ m'.tq.out = m.tq.out ++ [r] ∧
    Sends S m.forkActive e r m'.forkActive

theorem passAs_sends {m m' : ListMachine E Time} {e r : E} {rest : List E}
    (hmid : m.tq.mid = []) (hi : m.tq.inp = e :: rest)
    (hq : m'.tq = ⟨m.tq.out ++ [r], m.tq.mid, m.tq.inp.tail⟩)
    (hs : Sends S m.forkActive e r m'.forkActive) : SendsFirst S m m' := by
  refine ⟨e, r, ?_, ?_, hs⟩
  · simp [line, hmid, hi, hq]
  · rw [hq]

theorem settleAs_sends {m m' : ListMachine E Time} {h r : E} {t : List E}
    (hmid : m.tq.mid = h :: t) (hq : m'.tq = ⟨m.tq.out ++ [r], [], m.tq.mid.tail ++ m.tq.inp⟩)
    (hs : Sends S m.forkActive h r m'.forkActive) : SendsFirst S m m' := by
  refine ⟨h, r, ?_, ?_, hs⟩
  · simp [line, hmid, hq]
  · rw [hq]

theorem keep_stays {m m' : ListMachine E Time} {e : E} {rest : List E}
    (hi : m.tq.inp = e :: rest) (hq : m'.tq = ⟨m.tq.out, m.tq.mid ++ [e], m.tq.inp.tail⟩)
    (hf : m'.forkActive = m.forkActive) : Stays m [] m' ∧ m'.tq.inp = rest := by
  refine ⟨⟨?_, by rw [hq], hf⟩, by rw [hq, hi, List.tail_cons]⟩
  simp [line, hi, hq]

variable [LinearOrder Time] [Add Time] [Zero Time] [NatCast Time]

theorem forkHead_sends {m : ListMachine E Time} (hm : Sound S m) (hs : m.state ≠ .normal) :
    SendsFirst S m (m.forkHead S) := by
  obtain ⟨h, t, hmid, hp, hf, -, -⟩ := hm.head hs
  rw [forkHead_cons S hmid]
  refine settleAs_sends hmid rfl (.fork hp (.inl ?_))
  simpa [forkableP] using hf

theorem confirmHead_sends {m : ListMachine E Time} (hm : Sound S m) (hs : m.state ≠ .normal) :
    SendsFirst S m m.confirmHead := by
  obtain ⟨h, t, hmid, hp, -, ha, -⟩ := hm.head hs
  rw [confirmHead_cons hmid]
  exact settleAs_sends hmid rfl (.plain (fun _ => .inr ha) fun _ => .inl hp)

theorem repeatHead_sends {m : ListMachine E Time} (hm : Sound S m) (hs : m.state ≠ .normal) :
    SendsFirst S m (m.setForkActive m.suspect m.suspect).confirmHead := by
  obtain ⟨h, t, hmid, hp, -, -, hsu⟩ := hm.head hs
  rw [confirmHead_cons (m := m.setForkActive _ _) hmid, hsu]
  exact settleAs_sends hmid rfl (.selfFork hp)

/-- One event is kept in line, or it is not moved at all, or the oldest one leaves. -/
theorem enact_sends {m : ListMachine E Time} {e : E} {rest : List E} (hm : Sound S m)
    (hi : m.tq.inp = e :: rest) :
    (Stays m [] (m.enact S e (m.verdict S e)) ∧
      (m.enact S e (m.verdict S e)).tq.inp = rest) ∨
    (m.verdict S e = .discard ∧ m.enact S e (m.verdict S e) = m) ∨
    SendsFirst S m (m.enact S e (m.verdict S e)) := by
  have hg := guard_verdict S m e
  have hn := hm.coherent.normal_iff
  generalize m.verdict S e = v at hg ⊢
  cases v with
  | refork =>
    obtain ⟨hs, hp, hk⟩ := hg
    refine .inr (.inr (passAs_sends (hn.mp hs) hi rfl (.fork hp (.inr ?_))))
    simpa [keyForked] using hk
  | startSuspect => exact .inl (keep_stays hi rfl rfl)
  | autoRepeat =>
    obtain ⟨hs, hp, -, -, ha⟩ := hg
    exact .inr (.inr (passAs_sends (hn.mp hs) hi rfl (.plain (fun _ => .inl ha) fun _ => .inl hp)))
  | selfFork =>
    obtain ⟨hs, hp, -⟩ := hg
    exact .inr (.inr (passAs_sends (hn.mp hs) hi rfl (.selfFork hp)))
  | unfork =>
    obtain ⟨hs, hr, hf⟩ := hg
    obtain ⟨k, t, hk⟩ := recordForkRelease_eq S m e
    rw [enact, hk]
    exact .inr (.inr (passAs_sends (hn.mp hs) hi rfl (.unfork hr hf)))
  | pass =>
    obtain ⟨hs, hp, hr, -⟩ := hg
    obtain ⟨k, t, hk⟩ := recordRelease_eq S m e
    rw [enact, hk]
    exact .inr (.inr (passAs_sends (hn.mp hs) hi rfl
      (.plain (fun h => keyForked_false.mp (hp h)) fun h => .inr (hr h))))
  | forkHead => exact .inr (.inr (forkHead_sends hm hg.1))
  | confirmHead => exact .inr (.inr (confirmHead_sends hm hg.1))
  | repeatHead => exact .inr (.inr (repeatHead_sends hm (by rw [hg.1]; decide)))
  | discard => exact .inr (.inl ⟨rfl, rfl⟩)
  | verify => exact .inl (keep_stays hi rfl rfl)
  | unverify => exact .inl (keep_stays hi rfl rfl)
  | wait => exact .inl (keep_stays hi rfl rfl)

end Machine

open Machine

variable [Zero Time] [LinearOrder Time] [Add Time] [NatCast Time] {S : Setup E Time}

/-- **Every move keeps all events in line, or sends the oldest.** -/
theorem Move.sends {a : Act E Time} {f : Bool} {m m' : ListMachine E Time} {es : List E}
    (hm : Sound S m) (h : Move S a f m es m') :
    Stays m es m' ∨ es = [] ∧ SendsFirst S m m' := by
  cases h with
  | still => exact .inl ⟨(List.append_nil _).symm, rfl, rfl⟩
  | clock c => exact .inl ⟨(List.append_nil _).symm, rfl, rfl⟩
  | push e => exact .inl ⟨(List.append_assoc _ _ _).symm, rfl, rfl⟩
  | key e rest hi =>
    rcases enact_sends hm hi with ⟨h, -⟩ | ⟨-, h⟩ | h
    · exact .inl h
    · rw [h]
      exact .inl ⟨(List.append_nil _).symm, rfl, rfl⟩
    · exact .inr ⟨rfl, h⟩
  | time hi hs => exact .inr ⟨rfl, forkHead_sends hm hs⟩
  | force hf hi hs => exact .inr ⟨rfl, forkHead_sends hm hs⟩

open Runs

/-- **Run rule for what left.**  After every run the pushed events are those that left and, in
line, those that did not; and a property of the pairs (pushed, sent) and of `forkActive` holds if
it holds at the start and every way to leave keeps it. -/
theorem Sys.sends_ind {P : List (E × E) → (Keycode → Keycode) → Prop} (h0 : P [] fun _ => noKey)
    (hP : ∀ pairs fa e r fa', P pairs fa → Sends S fa e r fa' → P (pairs ++ [(e, r)]) fa')
    {acts : List (Act E Time)} {s : Sys (ThreeLists E) E Time}
    (h : runs (Sys.step S) (Sys.create .nil) acts = some s) :
    ∃ pairs : List (E × E),
      s.pushed = pairs.map Prod.fst ++ s.machine.tq.mid ++ s.machine.tq.inp ∧
      s.handed = pairs.map Prod.snd ∧ P pairs s.machine.forkActive := by
  have hv := (Sys.view_ind (S := S) (P := fun _ es m => ∃ pairs : List (E × E),
      es = pairs.map Prod.fst ++ m.line ∧ m.tq.out = pairs.map Prod.snd ∧ P pairs m.forkActive)
    ⟨[], rfl, rfl, h0⟩ ?_ h).2
  · obtain ⟨pairs, hes, hout, hp⟩ := hv
    refine ⟨pairs, ?_, hout, hp⟩
    rw [hes, line, Sys.view_mid, Sys.view_inp, List.append_assoc]
  rintro acts a f m es m' es' - hm ⟨pairs, hes, hout, hp⟩ hmove
  rcases hmove.sends hm with ⟨hl, ho, hf⟩ | ⟨rfl, e, r, hl, ho, hs⟩
  · exact ⟨pairs, by rw [hes, hl, List.append_assoc], by rw [ho, hout], hf ▸ hp⟩
  · refine ⟨pairs ++ [(e, r)], ?_, ?_, hP pairs _ e r _ hp hs⟩
    · rw [hes, hl]
      simp
    · rw [ho, hout]
      simp

theorem Sys.pushed_line {acts : List (Act E Time)} {s : Sys (ThreeLists E) E Time}
    (h : runs (Sys.step S) (Sys.create .nil) acts = some s) :
    ∃ sent, s.pushed = sent ++ s.machine.line := by
  obtain ⟨pairs, hp, -⟩ := Sys.sends_ind (S := S) (P := fun _ _ => True) trivial
    (fun _ _ _ _ _ _ _ => trivial) h
  exact ⟨pairs.map Prod.fst, by rw [hp, line, List.append_assoc]⟩

end ForkNS
