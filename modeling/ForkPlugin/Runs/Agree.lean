import ForkPlugin.Machine.Ring
import ForkPlugin.Machine.Sends
import ForkPlugin.Machine.TestEvents

/-!
# Press and release agree

The pairs (pushed, relayed) of a run are read from left to right.

* `codeDown`              the code a release of a key has to carry: that of the last relayed press
                          of the key, or the key itself when it is not down;
* `AgreeBy`, `Agree`      every relayed release carries it, and every relayed event carries a code
                          that may stand for its key: the key or its fork;
* `TracksBy`              `forkActive` holds the codes of the keys that are down; every way to leave
                          keeps it so;
* `press_release_agree`   after every run the relayed events agree;
* `release_twice`         a second release in a row carries the key, not the code of the press.
-/

namespace ForkNS

open Runs

variable {E Time : Type}

def codeDown (env : Environment E Time) (pairs : List (E × E)) (k : Keycode) : Keycode :=
  pairs.foldl (fun c p =>
    if env.detailOf p.1 = k then
      if env.pressP p.1 then env.detailOf p.2 else if env.releaseP p.1 then k else c
    else c) k

/-- `Ok k c` says that the code `c` may stand for the key `k` -/
def AgreeBy (env : Environment E Time) (Ok : Keycode → Keycode → Prop)
    (pairs : List (E × E)) : Prop :=
  ∀ pre e r post, pairs = pre ++ (e, r) :: post →
    Ok (env.detailOf e) (env.detailOf r) ∧
    (env.releaseP e → env.detailOf r = codeDown env pre (env.detailOf e))

def Agree (S : Setup E Time) (pairs : List (E × E)) : Prop :=
  ∀ pre e r post, pairs = pre ++ (e, r) :: post →
    (S.env.detailOf r = S.env.detailOf e ∨
      S.env.detailOf r = S.config.forkKeycode (S.env.detailOf e)) ∧
    (S.env.releaseP e → S.env.detailOf r = codeDown S.env pre (S.env.detailOf e))

section
variable {S : Setup E Time}

theorem codeDown_snoc (env : Environment E Time) (pairs : List (E × E)) (e r : E) (k : Keycode) :
    codeDown env (pairs ++ [(e, r)]) k =
      if env.detailOf e = k then
        if env.pressP e then env.detailOf r else if env.releaseP e then k
        else codeDown env pairs k
      else codeDown env pairs k := by
  rw [codeDown, List.foldl_append]
  rfl

theorem codeDown_other {env : Environment E Time} {e : E} {k : Keycode} (h : env.detailOf e ≠ k)
    (pairs : List (E × E)) (r : E) : codeDown env (pairs ++ [(e, r)]) k = codeDown env pairs k := by
  rw [codeDown_snoc, if_neg h]

section
variable {env : Environment E Time} {Ok : Keycode → Keycode → Prop} {pairs : List (E × E)}

theorem AgreeBy.snoc (h : AgreeBy env Ok pairs) {e r : E}
    (hc : Ok (env.detailOf e) (env.detailOf r))
    (hr : env.releaseP e → env.detailOf r = codeDown env pairs (env.detailOf e)) :
    AgreeBy env Ok (pairs ++ [(e, r)]) := by
  intro pre e' r' post heq
  rcases snoc_eq_split heq with ⟨rfl, he, -⟩ | ⟨post', -, hl⟩
  · cases he
    exact ⟨hc, hr⟩
  · exact h pre e' r' post' hl

theorem AgreeBy.left {rest : List (E × E)} (h : AgreeBy env Ok (pairs ++ rest)) :
    AgreeBy env Ok pairs := by
  intro pre e r post heq
  exact h pre e r (post ++ rest) (by rw [heq, List.append_assoc, List.cons_append])

/-- `forkActive` holds the codes of the keys that are down, where they are not plain -/
structure TracksBy (env : Environment E Time) (Ok : Keycode → Keycode → Prop)
    (pairs : List (E × E)) (fa : Keycode → Keycode) : Prop where
  agree : AgreeBy env Ok pairs
  forked : ∀ k, fa k ≠ noKey → codeDown env pairs k = fa k ∧ Ok k (fa k)
  plain : ∀ k, fa k = noKey → codeDown env pairs k = k

theorem TracksBy.create (env : Environment E Time) (Ok : Keycode → Keycode → Prop) :
    TracksBy env Ok [] fun _ => noKey where
  agree pre e r post heq := by simp at heq
  forked k hk := absurd rfl hk
  plain k _ := rfl

/-- one more pair changes one key -/
theorem TracksBy.update {fa : Keycode → Keycode} {e r : E} {c : Keycode}
    (h : TracksBy env Ok pairs fa) (hc : Ok (env.detailOf e) (env.detailOf r))
    (hr : env.releaseP e → env.detailOf r = codeDown env pairs (env.detailOf e))
    (hforked : c ≠ noKey → codeDown env (pairs ++ [(e, r)]) (env.detailOf e) = c ∧
      Ok (env.detailOf e) c)
    (hplain : c = noKey →
      codeDown env (pairs ++ [(e, r)]) (env.detailOf e) = env.detailOf e) :
    TracksBy env Ok (pairs ++ [(e, r)]) (Function.update fa (env.detailOf e) c) := by
  refine ⟨h.agree.snoc hc hr, fun k hk => ?_, fun k hk => ?_⟩
  · by_cases he : k = env.detailOf e
    · subst he
      rw [Function.update_self] at hk ⊢
      exact hforked hk
    · rw [Function.update_of_ne he] at hk ⊢
      rw [codeDown_other (Ne.symm he)]
      exact h.forked k hk
  · by_cases he : k = env.detailOf e
    · subst he
      rw [Function.update_self] at hk
      exact hplain hk
    · rw [Function.update_of_ne he] at hk
      rw [codeDown_other (Ne.symm he)]
      exact h.plain k hk

end

theorem codeDown_press {env : Environment E Time} {e : E} (hp : env.pressP e = true)
    (pairs : List (E × E)) (r : E) :
    codeDown env (pairs ++ [(e, r)]) (env.detailOf e) = env.detailOf r := by
  rw [codeDown_snoc, if_pos rfl, if_pos hp]

theorem codeDown_release {env : Environment E Time} (hE : env.Lawful) {e : E}
    (hr : env.releaseP e = true) (pairs : List (E × E)) (r : E) :
    codeDown env (pairs ++ [(e, r)]) (env.detailOf e) = env.detailOf e := by
  have hp : ¬env.pressP e = true := Bool.eq_false_iff.mp (hE.not_press hr)
  rw [codeDown_snoc, if_pos rfl, if_neg hp, if_pos hr]

/-- Every way to leave keeps track, where a fork has a code that may stand for its key. -/
theorem TracksBy.sends (hE : S.env.Lawful) {Ok : Keycode → Keycode → Prop} (hOk : ∀ k, Ok k k)
    {pairs : List (E × E)} {fa fa' : Keycode → Keycode} {e r : E}
    (h : TracksBy S.env Ok pairs fa) (hs : Sends S fa e r fa')
    (hfork : S.config.forkKeycode (S.env.detailOf e) ≠ noKey ∨
        fa (S.env.detailOf e) ≠ S.env.detailOf e ∧ fa (S.env.detailOf e) ≠ noKey →
      S.env.pressP e → S.config.forkKeycode (S.env.detailOf e) ≠ noKey ∧
        Ok (S.env.detailOf e) (S.config.forkKeycode (S.env.detailOf e))) :
    TracksBy S.env Ok (pairs ++ [(e, r)]) fa' := by
  have hpr : S.env.pressP e → ¬S.env.releaseP e := fun hp => by simp [hE.oneKind e hp]
  cases hs with
  | fork hp hk =>
    have hd := hE.detailOf e (S.config.forkKeycode (S.env.detailOf e))
    obtain ⟨hne, hok⟩ := hfork hk hp
    refine h.update (by rw [hd]; exact hok) (fun hr => absurd hr (hpr hp)) (fun _ => ?_)
      fun hc => absurd hc hne
    exact ⟨by rw [codeDown_press hp, hd], hok⟩
  | selfFork hp =>
    refine h.update (hOk _) (fun hr => absurd hr (hpr hp)) (fun _ => ?_) fun hc => ?_
    · exact ⟨codeDown_press hp _ _, hOk _⟩
    · exact codeDown_press hp _ _
  | unfork hr hf =>
    have hd := hE.detailOf e (fa (S.env.detailOf e))
    obtain ⟨hcode, hfa⟩ := h.forked _ hf
    refine h.update ?_ (fun _ => by rw [hd, hcode]) (fun hc => absurd rfl hc) fun _ => ?_
    · rw [hd]
      exact hfa
    · exact codeDown_release hE hr _ _
  | plain hp hr =>
    rw [← Function.update_eq_self (S.env.detailOf e) fa]
    have hrel : S.env.releaseP e → fa (S.env.detailOf e) = noKey := fun hr' =>
      (hr hr').resolve_left fun hp' => hpr hp' hr'
    have hkeep : ¬S.env.pressP e → ¬S.env.releaseP e →
        codeDown S.env (pairs ++ [(e, e)]) (S.env.detailOf e)
          = codeDown S.env pairs (S.env.detailOf e) := fun h1 h2 => by
      rw [codeDown_snoc, if_pos rfl, if_neg h1, if_neg h2]
    refine h.update (hOk _) (fun hr' => (h.plain _ (hrel hr')).symm) (fun hc => ?_) fun hc => ?_
    · refine ⟨?_, (h.forked _ hc).2⟩
      by_cases hp' : S.env.pressP e = true
      · rw [codeDown_press hp']
        exact ((hp hp').resolve_right hc).symm
      · rw [hkeep hp' fun hr' => hc (hrel hr'), (h.forked _ hc).1]
    · by_cases hp' : S.env.pressP e = true
      · exact codeDown_press hp' _ _
      · by_cases hr' : S.env.releaseP e = true
        · exact codeDown_release hE hr' _ _
        · rw [hkeep hp' hr', h.plain _ hc]

/-- what was relayed is a first part of what left -/
theorem AgreeBy.relayed {Ok : Keycode → Keycode → Prop} {env : Environment E Time}
    {pairs : List (E × E)} (h : AgreeBy env Ok pairs) {pushed line relays rest : List E}
    (hp : pushed = pairs.map Prod.fst ++ line) (hr : relays ++ rest = pairs.map Prod.snd) :
    AgreeBy env Ok (pushed.zip relays) := by
  obtain ⟨left, rest', rfl, hleft, -⟩ := List.map_eq_append_iff.mp hr.symm
  have hzip : pushed.zip relays = left := by
    rw [hp, ← hleft, List.map_append]
    simp only [List.append_assoc]
    rw [← List.append_nil (left.map Prod.snd), List.zip_append (by simp), List.zip_nil_right,
      List.append_nil]
    exact (List.zip_of_prod rfl rfl).symm
  rw [hzip]
  exact h.left

/-- with a fixed configuration the code is the key or its fork -/
def KeyOrFork (S : Setup E Time) (k c : Keycode) : Prop := c = k ∨ c = S.config.forkKeycode k

theorem TracksBy.sends_fixed (hE : S.env.Lawful) {pairs : List (E × E)}
    {fa fa' : Keycode → Keycode} {e r : E} (h : TracksBy S.env (KeyOrFork S) pairs fa)
    (hs : Sends S fa e r fa') : TracksBy S.env (KeyOrFork S) (pairs ++ [(e, r)]) fa' := by
  refine h.sends hE (fun _ => .inl rfl) hs fun hk _ => ⟨fun hc => ?_, .inr rfl⟩
  obtain ⟨hne, hf⟩ := hk.resolve_left fun h => h hc
  exact absurd hc (((h.forked _ hf).2.resolve_left hne) ▸ hf)

end

variable [LinearOrder Time] [Add Time] [Zero Time] [NatCast Time] {S : Setup E Time}

theorem lists_agree (hE : S.env.Lawful) {acts : List (Act E Time)}
    {s : Sys (ThreeLists E) E Time} (h : runs (Sys.step S) (Sys.create .nil) acts = some s) :
    Agree S (s.pushed.zip (relayed s.trace)) := by
  obtain ⟨pairs, hp, hh, ht⟩ := Sys.sends_ind (P := TracksBy S.env (KeyOrFork S))
    (TracksBy.create _ _) (fun _ _ _ _ _ hpairs hs => hpairs.sends_fixed hE hs) h
  have hleft : relayed s.trace ++ (s.control.inHand ++ s.machine.tq.out)
      = pairs.map Prod.snd := by
    rw [← hh, Sys.handed, List.append_assoc]
  exact ht.agree.relayed (hp.trans (List.append_assoc _ _ _)) hleft

/-- **Press and release agree**, in what a machine relays that never holds more than its
capacity. -/
theorem press_release_agree (hE : S.env.Lawful) {c : ℕ} (hc : 2 ≤ c) {acts : List (Act E Time)}
    (hw : WithinCapacity S c acts) {s : Sys (Triqueue E) E Time}
    (h : runs (Sys.step S) (Sys.create (Triqueue.create c)) acts = some s) :
    Agree S (s.pushed.zip (relayed s.trace)) := by
  obtain ⟨t, ht, halike⟩ := ring_run hc hw h
  rw [halike.pushed, halike.trace]
  exact lists_agree hE ht

/-- key 3 is forked by its timer and then released twice -/
def releasedTwice : List (Act TestEvent Nat) :=
  during (.acceptEvent (down 3 100)) 7 ++ during (.acceptTime 300) 9 ++
    during (.acceptEvent (up 3 310)) 8 ++ during (.acceptEvent (up 3 320)) 8

theorem press_release_agree_twice : ∃ s,
    runs (Sys.step testSetup) (Sys.create (Triqueue.create 100)) releasedTwice = some s ∧
    relayed s.trace = [down 13 100, up 13 310, up 3 320] ∧
    Agree testSetup (s.pushed.zip (relayed s.trace)) := by
  have hs := Option.eq_some_of_isSome
    (o := runs (Sys.step testSetup) (Sys.create (Triqueue.create 100)) releasedTwice) (by decide)
  exact ⟨_, hs, by decide, press_release_agree testEnvironment_lawful (show 2 ≤ 100 by decide)
    (by decide) hs⟩

/-- the code of the last relayed press of `k`, released since or not -/
def lastPressed (env : Environment E Time) (pairs : List (E × E)) (k : Keycode) : Keycode :=
  pairs.foldl (fun c p =>
    if env.detailOf p.1 = k ∧ env.pressP p.1 then env.detailOf p.2 else c) k

/-- The second release of key 3 carries 3, and the press it follows was relayed as 13. -/
theorem release_twice : ∃ s,
    runs (Sys.step testSetup) (Sys.create (Triqueue.create 100)) releasedTwice = some s ∧
    WithinCapacity testSetup 100 releasedTwice ∧
    (∀ e ∈ offered releasedTwice, 1 ≤ e.key ∧ e.key ≤ testSetup.maxKeycode - 1) ∧
    ∃ pre e r post, s.pushed.zip (relayed s.trace) = pre ++ (e, r) :: post ∧
      testEnvironment.releaseP e = true ∧
      testEnvironment.detailOf r
        ≠ lastPressed testEnvironment pre (testEnvironment.detailOf e) := by
  have hs := Option.eq_some_of_isSome
    (o := runs (Sys.step testSetup) (Sys.create (Triqueue.create 100)) releasedTwice) (by decide)
  exact ⟨_, hs, by decide, by decide, [(down 3 100, down 13 100), (up 3 310, up 13 310)],
    up 3 320, up 3 320, [], by decide, by decide, by decide⟩

end ForkNS
