import ForkPlugin.Machine.Configure
import ForkPlugin.Machine.Ledger
import ForkPlugin.Machine.Respond
import ForkPlugin.Runs.Agree

/-!
# Keys are reconfigured between calls

`configure_key` may come whenever no call is running.  It writes tables that are read again later:
the fork of a suspect is looked up when it is decided, and not when it becomes suspect.

* `withForks`              another `fork_keycode` and `fork_repeatable`;
* `nextFork`               the key that the next iteration of the loop forks, if it forks one;
* `tick_withForks`         about a suspect, a step reads the `fork_keycode` of that key alone;
* `Tracked`                the books over tables that change: every press has a code to release;
* `Reconfigured`           a machine with its caller and its settings;
* `reconfigured_agree`     where no key is forked to code 0, press and release agree, and no event
                           loses its keycode;
* `reconfigured_suspect`   a suspect whose fork is taken away leaves with keycode 0.
-/

namespace ForkNS

open Runs Machine

variable {E Time : Type}

/-! ## the tables that change -/

def ForkConfiguration.withForks (config : ForkConfiguration Time) (F : Keycode → Keycode)
    (R : Keycode → Bool) : ForkConfiguration Time :=
  { config with forkKeycode := F, forkRepeatable := R }

def Setup.withForks (S : Setup E Time) (F : Keycode → Keycode) (R : Keycode → Bool) :
    Setup E Time :=
  { S with config := S.config.withForks F R }

/-- every key may fork -/
def Setup.allForks (S : Setup E Time) : Setup E Time :=
  S.withForks (fun _ => 1) fun _ => false

/-- the setup with the settings of the moment -/
def Setup.configured (S : Setup E Time) (settings : Settings Time) : Setup E Time :=
  { S with config := settings.config }

/-- a request about a key writes these tables only -/
theorem configureKey_withForks (port : Port Time) (s : Settings Time)
    (type : ForkConfigurationType) (key : Keycode) (value : Int) (set : Bool) :
    ∃ F R, (s.configureKey port type key value set).settings.config = s.config.withForks F R := by
  cases type with
  | keyFork => cases set <;> exact ⟨_, _, rfl⟩
  | keyForkRepeat => cases set <;> exact ⟨_, _, rfl⟩
  | _ => exact ⟨_, _, rfl⟩

/-- the table with a code in every place -/
def filled (F : Keycode → Keycode) : Keycode → Keycode := fun k => if F k = noKey then 1 else F k

theorem filled_ne (F : Keycode → Keycode) (k : Keycode) : filled F k ≠ noKey := by
  unfold filled
  split_ifs with h
  · decide
  · exact h

theorem filled_eq {F : Keycode → Keycode} {k : Keycode} (h : F k ≠ noKey) : F k = filled F k :=
  (if_neg h).symm

variable [LinearOrder Time] [Add Time] [Zero Time] [NatCast Time] {S : Setup E Time}

section
variable {Q : Type} [TriqueueOps Q E]

instance (m : Machine Q Time) : Decidable m.TimerDue := inferInstanceAs (Decidable (_ ∧ _ ∧ _))

/-- the key that the next iteration of the loop forks -/
def Machine.nextFork (S : Setup E Time) (m : Machine Q Time) (forceAlso : Bool) : Option Keycode :=
  if TriqueueOps.thirdEmpty m.tq then
    if m.TimerDue ∨ forceAlso = true ∧ m.state ≠ .normal then some m.suspect else none
  else
    (TriqueueOps.peekThird m.tq).bind fun e =>
      match m.verdict S e with
      | .refork => some (S.env.detailOf e)
      | .forkHead => some m.suspect
      | _ => none

end

section
variable {l : ListMachine E Time} {f : Bool}

omit [NatCast Time] in
theorem nextFork_nil (hi : l.tq.inp = []) : l.nextFork S f =
    if l.TimerDue ∨ f = true ∧ l.state ≠ .normal then some l.suspect else none := by
  simp [nextFork, TriqueueOps.thirdEmpty, hi]

omit [NatCast Time] in
theorem nextFork_cons {e : E} {rest : List E} (hi : l.tq.inp = e :: rest) : l.nextFork S f =
    match l.verdict S e with
    | .refork => some (S.env.detailOf e)
    | .forkHead => some l.suspect
    | _ => none := by
  simp [nextFork, TriqueueOps.thirdEmpty, TriqueueOps.peekThird, hi]

omit [NatCast Time] in
theorem Machine.Stands.nextFork {c : ℕ} {m : Machine (Triqueue E) Time} (h : Stands c m l) :
    m.nextFork S f = l.nextFork S f := by
  cases h with
  | mk _ q hq =>
    have ht : TriqueueOps.thirdEmpty q = TriqueueOps.thirdEmpty l.tq := Triqueue.thirdEmpty_eq hq
    rcases hi : l.tq.inp with - | ⟨e, rest⟩
    · rw [nextFork_nil hi]
      show (if TriqueueOps.thirdEmpty q = true then _ else _) = _
      rw [ht, if_pos (by simp [TriqueueOps.thirdEmpty, hi])]
      rfl
    · have hp : TriqueueOps.peekThird q = some e := by
        rw [show TriqueueOps.peekThird q = l.tq.inp.head? from
          Triqueue.peekThird_eq hq (by simp [hi]), hi]
        rfl
      rw [nextFork_cons hi]
      show (if TriqueueOps.thirdEmpty q = true then _ else (TriqueueOps.peekThird q).bind _) = _
      rw [ht, if_neg (by simp [TriqueueOps.thirdEmpty, hi]), hp]
      rfl

/-! ## what a step reads of them -/

variable {F G : Keycode → Keycode} {R R' : Keycode → Bool}

/-- the decision state does not depend on the tables, but for the suspect being forkable -/
theorem sound_withForks (hl : Sound (S.withForks G R') l)
    (hF : l.state ≠ .normal → F l.suspect ≠ noKey) : Sound (S.withForks F R) l := by
  refine ⟨hl.coherent, ?_, hl.bugs⟩
  by_cases hs : l.state = .normal
  · rw [HeadOpen, hl.coherent.normal_iff.mp hs]
    trivial
  · obtain ⟨h, t, hmid, -, -, -, hsu⟩ := hl.head hs
    obtain ⟨-, hrest⟩ := (headOpen_cons hmid).mp hl.headOpen
    refine (headOpen_cons hmid).mpr ⟨?_, hrest⟩
    rw [forkableP, bne_iff_ne]
    show F (S.env.detailOf h) ≠ noKey
    rw [← show l.suspect = S.env.detailOf h from hsu]
    exact hF hs

omit [Zero Time] [NatCast Time] in
theorem verdict_withForks (hs : l.state ≠ .normal) (e : E) :
    l.verdict (S.withForks F R) e = l.verdict (S.withForks G R) e := by
  simp only [verdict, if_neg hs]
  rfl

theorem enact_withForks {e : E} {v : Verdict} (hv : v ≠ .refork)
    (hfork : v = .forkHead → l.forkHead (S.withForks F R) = l.forkHead (S.withForks G R)) :
    l.enact (S.withForks F R) e v = l.enact (S.withForks G R) e v := by
  cases v with
  | refork => exact absurd rfl hv
  | forkHead => exact hfork rfl
  | _ => rfl

/-- an iteration about a suspect reads the fork of that key, where it forks it -/
theorem automatonBody_withForks (hl : Sound S.allForks l) (hs : l.state ≠ .normal)
    (hFG : ∀ k ∈ l.nextFork (S.withForks F R) f, F k = G k) :
    l.automatonBody (S.withForks F R) f = l.automatonBody (S.withForks G R) f := by
  obtain ⟨h, t, hmid, -, -, -, hsu⟩ := hl.head hs
  have hne : l.tq.mid ≠ [] := by simp [hmid]
  have hfork : F l.suspect = G l.suspect →
      l.forkHead (S.withForks F R) = l.forkHead (S.withForks G R) := fun heq => by
    rw [show l.suspect = S.env.detailOf h from hsu] at heq
    rw [forkHead_cons _ hmid, forkHead_cons _ hmid]
    show (l.setForkActive (S.env.detailOf h) (F (S.env.detailOf h))).settleAs
      (S.env.rewriteEvent h (F (S.env.detailOf h))) = _
    rw [heq]
    rfl
  rcases hi : l.tq.inp with - | ⟨e, rest⟩
  · have hte : TriqueueOps.thirdEmpty l.tq = true := by simp [TriqueueOps.thirdEmpty, hi]
    rw [nextFork_nil hi] at hFG
    by_cases hd : l.TimerDue
    · rw [automatonBody_time hte hd, automatonBody_time hte hd, activateForkRewind_eq _ hne,
        activateForkRewind_eq _ hne, hfork (hFG _ (by simp [hd]))]
    by_cases hf : f = true ∧ l.state ≠ .normal
    · rw [automatonBody_force hte hd hf, automatonBody_force hte hd hf,
        transitionByForce_eq hs hne, transitionByForce_eq hs hne, hfork (hFG _ (by simp [hf]))]
    · rw [automatonBody_done hte hd hf, automatonBody_done hte hd hf]
  · have hn := hl.coherent.normal_iff
    rw [nextFork_cons hi] at hFG
    rw [automatonBody_enact hn hi, automatonBody_enact hn hi,
      ← verdict_withForks (F := F) (G := G) hs]
    have hg := guard_verdict (S.withForks F R) l e
    generalize l.verdict (S.withForks F R) e = v at hFG hg ⊢
    rw [enact_withForks (G := G)]
    · rintro rfl
      exact hs hg.1
    · rintro rfl
      exact hfork (hFG _ rfl)

theorem tick_withForks (hl : Sound S.allForks l) {frozen : Bool} {k : Control E Time}
    (h : ∀ f, k = .automatonLoop f → frozen = false → l.state ≠ .normal ∧
      ∀ key ∈ l.nextFork (S.withForks F R) f, F key = G key) :
    tick (S.withForks F R) l frozen k = tick (S.withForks G R) l frozen k := by
  cases k with
  | automatonLoop f =>
    cases frozen with
    | true => rfl
    | false =>
      obtain ⟨hs, hFG⟩ := h f rfl rfl
      simp only [tick, automatonBody_withForks hl hs hFG]
  | _ => rfl

/-! ## the books -/

/-- a key that has a code keeps one -/
def KeepsCode (k c : Keycode) : Prop := k ≠ noKey → c ≠ noKey

omit [LinearOrder Time] [Add Time] [Zero Time] [NatCast Time] in
theorem TracksBy.sends_code (hE : S.env.Lawful) {pairs : List (E × E)}
    {fa fa' : Keycode → Keycode} {e r : E} (h : TracksBy S.env KeepsCode pairs fa)
    (hs : Sends S fa e r fa')
    (hfork : fa (S.env.detailOf e) ≠ S.env.detailOf e ∧ fa (S.env.detailOf e) ≠ noKey →
      S.env.pressP e → S.config.forkKeycode (S.env.detailOf e) ≠ noKey) :
    TracksBy S.env KeepsCode (pairs ++ [(e, r)]) fa' := by
  refine h.sends hE (fun k hk => hk) hs fun hk hp => ?_
  have hne : S.config.forkKeycode (S.env.detailOf e) ≠ noKey :=
    hk.elim id fun hf => hfork hf hp
  exact ⟨hne, fun _ => hne⟩

/-- the books of a machine whose tables change -/
def Tracked (S : Setup E Time) (pushed taken : List E) (l : ListMachine E Time) : Prop :=
  Books S.allForks (fun pairs fa => TracksBy S.env KeepsCode pairs fa) pushed taken l

variable {pushed taken : List E}

theorem Tracked.move (hE : S.env.Lawful) (h : Tracked S pushed taken l) {l' : ListMachine E Time}
    {a : Act E Time} {es taken' : List E}
    (hmove : Move S.allForks a false (l.framed taken [] l.mCurrentTime) es
      (l'.framed taken' [] l'.mCurrentTime)) : Tracked S (pushed ++ es) taken' l' :=
  Books.move h (fun _ _ _ hp _ hs => hp.sends_code (S := S.allForks) hE hs
    fun _ _ => Nat.one_ne_zero) hmove

/-- **A step keeps the books**, if the key that it forks has a code. -/
theorem Tracked.tick (hE : S.env.Lawful) (h : Tracked S pushed taken l) {frozen : Bool}
    {k : Control E Time} {x : Effect (ThreeLists E) E Time}
    (hx : tick (S.withForks F R) l frozen k = some x)
    (hfork : ∀ f, k = .automatonLoop f → frozen = false →
      ∀ key ∈ l.nextFork (S.withForks F R) f, F key ≠ noKey) :
    Tracked S pushed (taken ++ k.taken x.control) x.machine := by
  obtain ⟨hs, hpairs⟩ := h
  by_cases hloop : l.state = .normal ∧ frozen = false ∧ ∃ f, k = .automatonLoop f
  · -- nothing is suspected: the tables are read, and `refork` alone forks
    obtain ⟨hn, rfl, f, rfl⟩ := hloop
    have hs' : Sound (S.withForks F R) l := sound_withForks hs fun h => absurd hn h
    have hb : Books (S.withForks F R) (TracksBy S.env KeepsCode) pushed taken l := ⟨hs', hpairs⟩
    obtain ⟨hs'', hpairs'⟩ := hb.tick hx fun pairs e r hp hline hsend => by
      refine hp.sends_code (S := S.withForks F R) hE hsend fun hfa hpress => ?_
      have hi : l.tq.inp = e :: x.machine.line := by
        rwa [line, hs.coherent.normal_iff.mp hn] at hline
      refine hfork f rfl rfl _ ?_
      have hk : (l.keyForked (S.env.detailOf e) && S.env.pressP e
          && S.env.detailOf e != l.forkActive (S.env.detailOf e)) = true :=
        (forkedPress_iff (S := S)).mpr
          ⟨hpress, Bool.and_eq_true_iff.mpr ⟨bne_iff_ne.mpr hfa.1, bne_iff_ne.mpr hfa.2⟩⟩
      have hv : l.verdict (S.withForks F R) e = .refork := by
        rw [verdict]
        exact (if_pos hk).trans (if_pos hn)
      rw [nextFork_cons hi, hv]
      rfl
    exact ⟨sound_withForks hs'' fun _ => Nat.one_ne_zero, hpairs'⟩
  · -- otherwise the step is the same with a code in every place
    rw [tick_withForks (G := filled F) hs] at hx
    · have hb : Books (S.withForks (filled F) R) (TracksBy S.env KeepsCode) pushed taken l :=
        ⟨sound_withForks hs fun _ => filled_ne F _, hpairs⟩
      obtain ⟨hs'', hpairs'⟩ := hb.tick hx fun pairs e r hp _ hsend =>
        hp.sends_code (S := S.withForks (filled F) R) hE hsend fun _ _ => filled_ne F _
      exact ⟨sound_withForks hs'' fun _ => Nat.one_ne_zero, hpairs'⟩
    · rintro f rfl rfl
      exact ⟨fun hn => hloop ⟨hn, rfl, f, rfl⟩,
        fun key hkey => filled_eq (hfork f rfl rfl key hkey)⟩

end

/-! ## calls and requests -/

structure Reconfigured (E Time : Type) where
  sys : Sys (Triqueue E) E Time
  settings : Settings Time

inductive ReconfigureAct (E Time : Type) where
  | act (a : Act E Time)
  | configureKey (type : ForkConfigurationType) (key : Keycode) (value : Int) (set : Bool)
deriving DecidableEq

namespace Reconfigured

omit [LinearOrder Time] [Add Time] [NatCast Time] in
def create (settings : Settings Time) (c : ℕ) : Reconfigured E Time :=
  ⟨Sys.create (Triqueue.create c), settings⟩

variable (port : Port Time) (S : Setup E Time)

/-- requests come between the calls -/
def step (s : Reconfigured E Time) : ReconfigureAct E Time → Option (Reconfigured E Time)
  | .act a => (s.sys.step (S.configured s.settings) a).map fun sys => ⟨sys, s.settings⟩
  | .configureKey type key value set =>
    match s.sys.control with
    | .idle => some ⟨s.sys, (s.settings.configureKey port type key value set).settings⟩
    | _ => none

/-- after the step the ring holds no more than `c` -/
def Fits (c : ℕ) (s : Reconfigured E Time) (a : ReconfigureAct E Time) : Prop :=
  ∀ t ∈ s.step port S a, t.sys.machine.tq.buffer.contentsSize ≤ c

/-- no key is forked while its `fork_keycode` is `no_key` -/
def ForksToCode (s : Reconfigured E Time) (a : ReconfigureAct E Time) : Prop :=
  match a, s.sys.control with
  | .act (.tick false), .automatonLoop f =>
    ∀ key ∈ s.sys.machine.nextFork (S.configured s.settings) f,
      s.settings.config.forkKeycode key ≠ noKey
  | _, _ => True

instance (c : ℕ) (s : Reconfigured E Time) (a : ReconfigureAct E Time) :
    Decidable (s.Fits port S c a) :=
  inferInstanceAs (Decidable (∀ t ∈ s.step port S a, _))

instance (s : Reconfigured E Time) (a : ReconfigureAct E Time) :
    Decidable (s.ForksToCode S a) := by
  unfold ForksToCode
  split <;> infer_instance

variable {port S} {c : ℕ}

/-- what every step keeps -/
structure Inv (c : ℕ) (S : Setup E Time) (s : Reconfigured E Time) : Prop where
  tables : ∃ F R, s.settings.config = S.config.withForks F R
  books : ∃ l, Stands c s.sys.machine l ∧
    Tracked S s.sys.pushed (relayed s.sys.trace ++ s.sys.control.inHand) l

theorem Inv.create (hc : 2 ≤ c) {settings : Settings Time} :
    Inv c (S.configured settings) (create settings c : Reconfigured E Time) :=
  ⟨⟨_, _, rfl⟩, _, (create_alike hc).stands, create_sound, [], rfl, rfl, .create _ _⟩

omit [Add Time] [NatCast Time] in
/-- the first block of a call reads none of the tables -/
theorem enter_configured {Q : Type} [TriqueueOps Q E] (settings : Settings Time)
    (m : Machine Q Time) (b : Call E Time) :
    enter (S.configured settings) m b = enter S.allForks m b := by
  cases b <;> rfl

theorem Inv.call (hE : S.env.Lawful) {s : Reconfigured E Time} (h : Inv c S s) {b : Call E Time}
    (hidle : s.sys.control = .idle)
    (hfit : (enter S.allForks s.sys.machine b).machine.tq.buffer.contentsSize ≤ c) :
    Inv c S ⟨s.sys.apply (enter S.allForks s.sys.machine b), s.settings⟩ := by
  obtain ⟨htab, l, hst, hb⟩ := h
  have halike := enter_alike (S := S.allForks) hst (hst.room hfit)
  obtain ⟨hseen, hin⟩ := enter_quiet (S := S.allForks) (m := s.sys.machine) b
  obtain ⟨-, -, hmove⟩ := enter_move (S := S.allForks) l b
    (relayed s.sys.trace ++ s.sys.control.inHand)
  refine ⟨htab, _, halike.stands, ?_⟩
  have hb' := hb.move hE hmove
  rw [← halike.pushed] at hb'
  have htaken : relayed (s.sys.apply (enter S.allForks s.sys.machine b)).trace
      ++ (s.sys.apply (enter S.allForks s.sys.machine b)).control.inHand
      = relayed s.sys.trace ++ s.sys.control.inHand := by
    rw [Sys.apply, relayed_append, hseen, hin, hidle]
    simp [Control.inHand]
  rwa [← htaken] at hb'

theorem Inv.tick (hE : S.env.Lawful) {s : Reconfigured E Time} (h : Inv c S s) {frozen : Bool}
    (hcode : s.ForksToCode S (.act (.tick frozen))) {x : Effect (Triqueue E) E Time}
    (hx : ForkNS.tick (S.configured s.settings) s.sys.machine frozen s.sys.control = some x) :
    Inv c S ⟨s.sys.apply x, s.settings⟩ := by
  obtain ⟨⟨F, R, htab⟩, l, hst, hb⟩ := h
  have hS : S.configured s.settings = S.withForks F R := by
    rw [Setup.configured, htab]
    rfl
  obtain ⟨y, hy, halike⟩ := hst.tick hx
  rw [hS] at hy
  have hb' := hb.tick hE hy fun f hk hfrozen key hkey => by
    subst hfrozen
    simp only [ForksToCode, hk] at hcode
    rw [← hS, ← hst.nextFork] at hkey
    have hne := hcode key hkey
    rwa [htab] at hne
  refine ⟨⟨F, R, htab⟩, _, halike.stands, ?_⟩
  have hpushed : (s.sys.apply x).pushed = s.sys.pushed := by
    rw [Sys.apply, tick_pushed hx, List.append_nil]
  have htaken : relayed (s.sys.apply x).trace ++ (s.sys.apply x).control.inHand
      = relayed s.sys.trace ++ s.sys.control.inHand ++ s.sys.control.taken y.control := by
    rw [Sys.apply, relayed_append, List.append_assoc, List.append_assoc, tick_hands hx,
      halike.control]
  rw [hpushed, htaken]
  exact hb'

theorem Inv.step (hE : S.env.Lawful) {s t : Reconfigured E Time} (h : Inv c S s)
    {a : ReconfigureAct E Time} (hfit : s.Fits port S c a) (hcode : s.ForksToCode S a)
    (hstep : s.step port S a = some t) : Inv c S t := by
  have hsize := hfit t hstep
  cases a with
  | act a =>
    obtain ⟨sys, hsys, rfl⟩ := Option.map_eq_some_iff.mp hstep
    cases a with
    | call b =>
      obtain ⟨hidle, rfl⟩ := Sys.step_call hsys
      rw [enter_configured] at hsize ⊢
      exact h.call hE hidle hsize
    | tick frozen =>
      obtain ⟨x, hx, rfl⟩ := Sys.step_tick hsys
      exact h.tick hE hcode hx
  | configureKey type key value set =>
    simp only [Reconfigured.step] at hstep
    split at hstep
    · cases hstep
      obtain ⟨⟨F, R, htab⟩, hbooks⟩ := h
      obtain ⟨F', R', htab'⟩ := configureKey_withForks port s.settings type key value set
      exact ⟨⟨F', R', by rw [htab', htab]; rfl⟩, hbooks⟩
    · cases hstep

end Reconfigured

/-- **Press and release agree under reconfiguration**, and no event loses its keycode, where no key
is forked while it has no fork. -/
theorem reconfigured_agree (hE : S.env.Lawful) {c : ℕ} (hc : 2 ≤ c) {port : Port Time}
    {settings : Settings Time} {acts : List (ReconfigureAct E Time)}
    (hfits : EachStep (Reconfigured.step port S) (Reconfigured.create settings c)
      (Reconfigured.Fits port S c) acts)
    (hcode : EachStep (Reconfigured.step port S) (Reconfigured.create settings c)
      (Reconfigured.ForksToCode S) acts)
    {s : Reconfigured E Time}
    (h : runs (Reconfigured.step port S) (Reconfigured.create settings c) acts = some s) :
    (relayed s.sys.trace).length ≤ s.sys.pushed.length ∧
      AgreeBy S.env KeepsCode (s.sys.pushed.zip (relayed s.sys.trace)) := by
  have hinv : Reconfigured.Inv c (S.configured settings) s :=
    runs_each (R := fun _ u => Reconfigured.Inv c (S.configured settings) u) (.create hc)
      (fun _ u a v _ hu ⟨hfit, hcode⟩ hstep =>
        Reconfigured.Inv.step (S := S.configured settings) hE hu hfit hcode hstep)
      (hfits.and hcode) h
  obtain ⟨-, l, -, -, pairs, hpushed, hleft, htracks⟩ := hinv
  rw [List.append_assoc] at hleft
  refine ⟨?_, htracks.agree.relayed hpushed hleft⟩
  have hlen := congrArg List.length hleft
  rw [hpushed]
  simp only [List.length_append, List.length_map] at hlen ⊢
  omega

/-- a keycode has 8 bits -/
def eightBits : Port Nat := ⟨fun value => (value % 256).toNat, Int.toNat, Int.ofNat⟩

/-- the fork of key 3 is set to `value` -/
def setFork3 (value : Int) : ReconfigureAct TestEvent Nat := .configureKey .keyFork 3 value true

/-- key 3 is pressed and becomes suspect -/
def pressed3 : List (ReconfigureAct TestEvent Nat) :=
  (during (.acceptEvent (down 3 100)) 7).map .act

/-- its timer ends, and it is released later -/
def timedOut : List (ReconfigureAct TestEvent Nat) := (during (.acceptTime 300) 9).map .act

def released3 : List (ReconfigureAct TestEvent Nat) :=
  (during (.acceptEvent (up 3 310)) 8).map .act

abbrev idleSettings : Reconfigured TestEvent Nat :=
  .create ⟨testConfiguration, 0, 0, 10⟩ 2

/-- the fork is another when the suspect is decided, and another again when it is released -/
def reconfigured : List (ReconfigureAct TestEvent Nat) :=
  pressed3 ++ setFork3 14 :: timedOut ++ setFork3 0 :: released3

theorem reconfigured_agree_reset : ∃ s,
    runs (Reconfigured.step eightBits testSetup) idleSettings reconfigured = some s ∧
    relayed s.sys.trace = [down 14 100, up 14 310] ∧
    (relayed s.sys.trace).length ≤ s.sys.pushed.length ∧
    AgreeBy testEnvironment KeepsCode (s.sys.pushed.zip (relayed s.sys.trace)) := by
  have hs := Option.eq_some_of_isSome
    (o := runs (Reconfigured.step eightBits testSetup) idleSettings reconfigured) (by decide)
  exact ⟨_, hs, by decide, reconfigured_agree testEnvironment_lawful (le_refl 2) (by decide)
    (by decide) hs⟩

/-- The fork of the suspect is taken away: it leaves with keycode 0.  And a second release in a row
carries the key, not the code of the press. -/
theorem reconfigured_suspect :
    (∃ s, runs (Reconfigured.step eightBits testSetup) idleSettings
        (pressed3 ++ setFork3 0 :: timedOut) = some s ∧
      EachStep (Reconfigured.step eightBits testSetup) idleSettings
        (Reconfigured.Fits eightBits testSetup 2) (pressed3 ++ setFork3 0 :: timedOut) ∧
      s.sys.pushed = [down 3 100] ∧ relayed s.sys.trace = [down 0 100]) ∧
    ∃ s, runs (Reconfigured.step eightBits testSetup) idleSettings
        (releasedTwice.map .act) = some s ∧
      EachStep (Reconfigured.step eightBits testSetup) idleSettings
        (Reconfigured.Fits eightBits testSetup 2) (releasedTwice.map .act) ∧
      EachStep (Reconfigured.step eightBits testSetup) idleSettings
        (Reconfigured.ForksToCode testSetup) (releasedTwice.map .act) ∧
      ∃ pre e r post, s.sys.pushed.zip (relayed s.sys.trace) = pre ++ (e, r) :: post ∧
        testEnvironment.releaseP e = true ∧
        testEnvironment.detailOf r
          ≠ lastPressed testEnvironment pre (testEnvironment.detailOf e) := by
  have hs := Option.eq_some_of_isSome (o := runs (Reconfigured.step eightBits testSetup)
    idleSettings (pressed3 ++ setFork3 0 :: timedOut)) (by decide)
  have hs' := Option.eq_some_of_isSome (o := runs (Reconfigured.step eightBits testSetup)
    idleSettings (releasedTwice.map .act)) (by decide)
  refine ⟨⟨_, hs, by decide, by decide, by decide⟩, ⟨_, hs', by decide, by decide, ?_⟩⟩
  exact ⟨[(down 3 100, down 13 100), (up 3 310, up 13 310)], up 3 320, up 3 320, [],
    by decide, by decide, by decide⟩

end ForkNS
