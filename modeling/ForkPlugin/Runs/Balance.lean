import ForkPlugin.Runs.Agree
import ForkPlugin.Runs.Conserve
import Mathlib.Data.Finset.Card

/-!
# No key is left stuck downstream

Several keys may stand for one code, so the relayed presses and releases of a code are counted
against the keys that are down.

* `presses`, `releases`   how often a code is pressed and released in a stream;
* `heldAs`                the keys that are down and stand for a code;
* `Faithful`              the pairs of a run that agree, with events of the same kind;
* `Faithful.balance`      presses of a code are its releases and the keys held as it;
* `balanced`              so it is in every first part of what a machine relays;
* `codesOf`               the codes a key may be relayed as;
* `relayed_alternates`    where no two keys share a code, what is relayed alternates again.
-/

namespace ForkNS

open Runs

variable {E Time : Type}

def presses (env : Environment E Time) (es : List E) (c : Keycode) : ℕ :=
  es.countP fun e => env.pressP e && decide (env.detailOf e = c)

def releases (env : Environment E Time) (es : List E) (c : Keycode) : ℕ :=
  es.countP fun e => env.releaseP e && decide (env.detailOf e = c)

/-- the keys that the pushed events left down, and that were relayed as `c` -/
def heldAs (env : Environment E Time) (pairs : List (E × E)) (c : Keycode) : Finset Keycode :=
  (pairs.map fun p => env.detailOf p.1).toFinset.filter fun k =>
    isDown env (pairs.map Prod.fst) k = true ∧ codeDown env pairs k = c

section
variable {env : Environment E Time}

theorem presses_snoc (es : List E) (e : E) (c : Keycode) :
    presses env (es ++ [e]) c
      = presses env es c + if env.pressP e = true ∧ env.detailOf e = c then 1 else 0 := by
  simp [presses, List.countP_append, List.countP_singleton]

theorem releases_snoc (es : List E) (e : E) (c : Keycode) :
    releases env (es ++ [e]) c
      = releases env es c + if env.releaseP e = true ∧ env.detailOf e = c then 1 else 0 := by
  simp [releases, List.countP_append, List.countP_singleton]

theorem map_fst_snoc (pairs : List (E × E)) (e r : E) :
    (pairs ++ [(e, r)]).map Prod.fst = pairs.map Prod.fst ++ [e] := by
  rw [List.map_append]
  rfl

theorem map_snd_snoc (pairs : List (E × E)) (e r : E) :
    (pairs ++ [(e, r)]).map Prod.snd = pairs.map Prod.snd ++ [r] := by
  rw [List.map_append]
  rfl

theorem exists_of_isDown {es : List E} {k : Keycode} (h : isDown env es k = true) :
    ∃ e ∈ es, env.detailOf e = k := by
  induction es using List.reverseRecOn with
  | nil => cases h
  | append_singleton es e ih =>
    by_cases he : env.detailOf e = k
    · exact ⟨e, by simp, he⟩
    · rw [isDown_other he] at h
      obtain ⟨x, hx, hk⟩ := ih h
      exact ⟨x, List.mem_append_left _ hx, hk⟩

theorem isDown_release (hE : env.Lawful) {es : List E} {e : E} (hr : env.releaseP e = true) :
    isDown env (es ++ [e]) (env.detailOf e) = false := by
  have hp : ¬env.pressP e = true := Bool.eq_false_iff.mp (hE.not_press hr)
  rw [isDown_snoc, if_pos rfl, if_neg hp, if_pos hr]

theorem mem_heldAs {pairs : List (E × E)} {c k : Keycode} :
    k ∈ heldAs env pairs c ↔
      isDown env (pairs.map Prod.fst) k = true ∧ codeDown env pairs k = c := by
  rw [heldAs, Finset.mem_filter, and_iff_right_iff_imp]
  rintro ⟨hd, -⟩
  obtain ⟨e, he, hk⟩ := exists_of_isDown hd
  obtain ⟨p, hp, rfl⟩ := List.mem_map.mp he
  rw [List.mem_toFinset]
  exact List.mem_map.mpr ⟨p, hp, hk⟩

/-! ## one more pair -/

theorem mem_heldAs_other {pairs : List (E × E)} {c k : Keycode} {e r : E}
    (h : env.detailOf e ≠ k) : k ∈ heldAs env (pairs ++ [(e, r)]) c ↔ k ∈ heldAs env pairs c := by
  rw [mem_heldAs, mem_heldAs, codeDown_other h, map_fst_snoc, isDown_other h]

theorem heldAs_press {pairs : List (E × E)} {e r : E} (hp : env.pressP e = true) :
    heldAs env (pairs ++ [(e, r)]) (env.detailOf r)
      = insert (env.detailOf e) (heldAs env pairs (env.detailOf r)) := by
  ext k
  rw [Finset.mem_insert]
  by_cases hk : env.detailOf e = k
  · subst hk
    refine iff_of_true (mem_heldAs.mpr ⟨?_, codeDown_press hp pairs r⟩) (.inl rfl)
    rw [map_fst_snoc]
    exact isDown_press hp
  · rw [mem_heldAs_other hk, or_iff_right (Ne.symm hk)]

theorem heldAs_press_other {pairs : List (E × E)} {e r : E} {c : Keycode}
    (hp : env.pressP e = true) (hd : isDown env (pairs.map Prod.fst) (env.detailOf e) = false)
    (hc : env.detailOf r ≠ c) : heldAs env (pairs ++ [(e, r)]) c = heldAs env pairs c := by
  ext k
  by_cases hk : env.detailOf e = k
  · subst hk
    refine iff_of_false (fun hmem => hc ?_) fun hmem => ?_
    · rw [← (mem_heldAs.mp hmem).2, codeDown_press hp]
    · rw [(mem_heldAs.mp hmem).1] at hd
      cases hd
  · exact mem_heldAs_other hk

theorem heldAs_release (hE : env.Lawful) {pairs : List (E × E)} {e r : E} {c : Keycode}
    (hr : env.releaseP e = true) :
    heldAs env (pairs ++ [(e, r)]) c = (heldAs env pairs c).erase (env.detailOf e) := by
  ext k
  rw [Finset.mem_erase]
  by_cases hk : env.detailOf e = k
  · subst hk
    refine iff_of_false (fun hmem => ?_) fun hmem => hmem.1 rfl
    have hd := (mem_heldAs.mp hmem).1
    rw [map_fst_snoc, isDown_release hE hr] at hd
    cases hd
  · rw [mem_heldAs_other hk, and_iff_right (Ne.symm hk)]

theorem heldAs_neither {pairs : List (E × E)} {e r : E} {c : Keycode}
    (hp : ¬env.pressP e = true) (hr : ¬env.releaseP e = true) :
    heldAs env (pairs ++ [(e, r)]) c = heldAs env pairs c := by
  ext k
  by_cases hk : env.detailOf e = k
  · rw [mem_heldAs, mem_heldAs, codeDown_snoc, map_fst_snoc, isDown_snoc, if_pos hk, if_neg hp,
      if_neg hr, if_pos hk, if_neg hp, if_neg hr]
  · exact mem_heldAs_other hk

end

/-! ## pairs of a run -/

/-- the sent events agree with the pushed ones, which alternate -/
structure Faithful (env : Environment E Time) (Ok : Keycode → Keycode → Prop)
    (pairs : List (E × E)) : Prop where
  agree : AgreeBy env Ok pairs
  same : SamePairs env pairs
  alternates : Alternates env (pairs.map Prod.fst)

section
variable {env : Environment E Time} {Ok : Keycode → Keycode → Prop} {pairs : List (E × E)}
  {e r : E}

theorem Faithful.left {rest : List (E × E)} (h : Faithful env Ok (pairs ++ rest)) :
    Faithful env Ok pairs where
  agree := h.agree.left
  same p hp := h.same p (List.mem_append_left _ hp)
  alternates := by
    have ha := h.alternates
    rw [List.map_append] at ha
    exact (alternatesFrom_append.mp ha).1

/-- what the last pair adds -/
theorem Faithful.last (h : Faithful env Ok (pairs ++ [(e, r)])) :
    FitsAfter env (pairs.map Prod.fst) e ∧ SameButCode env e r ∧
      Ok (env.detailOf e) (env.detailOf r) ∧
      (env.releaseP e → env.detailOf r = codeDown env pairs (env.detailOf e)) := by
  have ha := h.alternates
  rw [map_fst_snoc] at ha
  exact ⟨(alternates_snoc.mp ha).2, h.same (e, r) (by simp), h.agree pairs e r [] rfl⟩

theorem Faithful.take (h : Faithful env Ok pairs) (n : ℕ) : Faithful env Ok (pairs.take n) := by
  rw [← List.take_append_drop n pairs] at h
  exact h.left

/-- a code that stands for a key that is down may stand for it -/
theorem Faithful.ok (h : Faithful env Ok pairs) (hOk : ∀ k, Ok k k) (k : Keycode) :
    Ok k (codeDown env pairs k) := by
  induction pairs using List.reverseRecOn with
  | nil => exact hOk k
  | append_singleton pairs p ih =>
    obtain ⟨e, r⟩ := p
    rw [codeDown_snoc]
    split_ifs with hk hp hr
    · rw [← hk]
      exact h.last.2.2.1
    · exact hOk k
    · exact ih h.left
    · exact ih h.left

/-- **Presses of a code are its releases and the keys that are held as it.** -/
theorem Faithful.balance (hE : env.Lawful) (h : Faithful env Ok pairs) (c : Keycode) :
    presses env (pairs.map Prod.snd) c
      = releases env (pairs.map Prod.snd) c + (heldAs env pairs c).card := by
  induction pairs using List.reverseRecOn with
  | nil => rfl
  | append_singleton pairs p ih =>
    obtain ⟨e, r⟩ := p
    obtain ⟨hfits, hsame, -, hcode⟩ := h.last
    have hbefore := ih h.left
    rw [map_snd_snoc, presses_snoc, releases_snoc, hsame.pressP, hsame.releaseP]
    by_cases hp : env.pressP e = true
    · have hr := hE.oneKind e hp
      have hd := hfits.1 hp
      by_cases hc : env.detailOf r = c
      · subst hc
        have hnew : env.detailOf e ∉ heldAs env pairs (env.detailOf r) := fun hmem => by
          rw [(mem_heldAs.mp hmem).1] at hd
          cases hd
        rw [heldAs_press hp, Finset.card_insert_of_notMem hnew, if_pos ⟨hp, rfl⟩,
          if_neg (by simp [hr])]
        omega
      · rw [heldAs_press_other hp hd hc, if_neg fun h => hc h.2, if_neg fun h => hc h.2]
        omega
    by_cases hr : env.releaseP e = true
    · rw [heldAs_release hE hr, if_neg fun h => hp h.1]
      by_cases hc : env.detailOf r = c
      · have hmem : env.detailOf e ∈ heldAs env pairs c :=
          mem_heldAs.mpr ⟨hfits.2 hr, (hcode hr).symm.trans hc⟩
        have hcard := Finset.card_erase_add_one hmem
        rw [if_pos ⟨hr, hc⟩]
        omega
      · have hmem : env.detailOf e ∉ heldAs env pairs c := fun hmem =>
          hc ((hcode hr).trans (mem_heldAs.mp hmem).2)
        rw [Finset.erase_eq_of_notMem hmem, if_neg fun h => hc h.2]
        omega
    · rw [heldAs_neither hp hr, if_neg fun h => hp h.1, if_neg fun h => hr h.1]
      omega

/-- **Where no two keys share a code, what is sent alternates again.** -/
theorem Faithful.sent_alternates (hE : env.Lawful) (h : Faithful env Ok pairs)
    (hOk : ∀ k, Ok k k) (hone : ∀ p ∈ pairs, ∀ p' ∈ pairs, ∀ c, Ok (env.detailOf p.1) c →
      Ok (env.detailOf p'.1) c → env.detailOf p.1 = env.detailOf p'.1) :
    Alternates env (pairs.map Prod.snd) ∧
      ∀ c, isDown env (pairs.map Prod.snd) c = true ↔ ∃ k, k ∈ heldAs env pairs c := by
  induction pairs using List.reverseRecOn with
  | nil => exact ⟨trivial, fun c => by simp [isDown, heldAs]⟩
  | append_singleton pairs p ih =>
    obtain ⟨e, r⟩ := p
    obtain ⟨hfits, hsame, hok, hcode⟩ := h.last
    obtain ⟨halt, hdown⟩ := ih h.left fun p hp p' hp' =>
      hone p (List.mem_append_left _ hp) p' (List.mem_append_left _ hp')
    -- only the key of `e` can be held as the code of `r`
    have hkey : ∀ k ∈ heldAs env pairs (env.detailOf r), k = env.detailOf e := fun k hk => by
      obtain ⟨hd, hcd⟩ := mem_heldAs.mp hk
      obtain ⟨x, hx, rfl⟩ := exists_of_isDown hd
      obtain ⟨p, hp, rfl⟩ := List.mem_map.mp hx
      refine hone p (List.mem_append_left _ hp) (e, r) (by simp) _ ?_ hok
      rw [← hcd]
      exact h.left.ok hOk _
    have hup : isDown env (pairs.map Prod.fst) (env.detailOf e) = false →
        isDown env (pairs.map Prod.snd) (env.detailOf r) = false := fun hd => by
      by_contra hr
      obtain ⟨k, hk⟩ := (hdown _).mp (by simpa using hr)
      rw [← hkey k hk, (mem_heldAs.mp hk).1] at hd
      cases hd
    refine ⟨?_, fun c => ?_⟩
    · rw [map_snd_snoc, alternates_snoc]
      refine ⟨halt, fun hp => ?_, fun hr => ?_⟩
      · exact hup (hfits.1 (by rwa [← hsame.pressP]))
      · rw [hsame.releaseP] at hr
        exact (hdown _).mpr ⟨_, mem_heldAs.mpr ⟨hfits.2 hr, (hcode hr).symm⟩⟩
    rw [map_snd_snoc]
    by_cases hp : env.pressP e = true
    · by_cases hc : env.detailOf r = c
      · subst hc
        rw [heldAs_press hp]
        exact iff_of_true (isDown_press (by rwa [hsame.pressP])) ⟨_, Finset.mem_insert_self _ _⟩
      · rw [heldAs_press_other hp (hfits.1 hp) hc, isDown_other hc]
        exact hdown c
    by_cases hr : env.releaseP e = true
    · rw [heldAs_release hE hr]
      by_cases hc : env.detailOf r = c
      · subst hc
        rw [isDown_release hE (by rwa [hsame.releaseP])]
        refine iff_of_false Bool.false_ne_true ?_
        rintro ⟨k, hk⟩
        exact (Finset.mem_erase.mp hk).1 (hkey k (Finset.mem_of_mem_erase hk))
      · have hmem : env.detailOf e ∉ heldAs env pairs c := fun hmem =>
          hc ((hcode hr).trans (mem_heldAs.mp hmem).2)
        rw [Finset.erase_eq_of_notMem hmem, isDown_other hc]
        exact hdown c
    · have hd : isDown env (pairs.map Prod.snd ++ [r]) c = isDown env (pairs.map Prod.snd) c := by
        rw [isDown_snoc, hsame.pressP, hsame.releaseP, if_neg hp, if_neg hr, ite_self]
      rw [heldAs_neither hp hr, hd]
      exact hdown c

end

/-! ## runs -/

section
variable {S : Setup E Time}

/-- what a key may be relayed as: itself, or its fork, where it has one -/
def codesOf (S : Setup E Time) (k : Keycode) : List Keycode :=
  if S.config.forkKeycode k = noKey then [k] else [k, S.config.forkKeycode k]

def IsCodeOf (S : Setup E Time) (k c : Keycode) : Prop := c ∈ codesOf S k

theorem mem_codesOf {k c : Keycode} :
    c ∈ codesOf S k ↔ c = k ∨ c = S.config.forkKeycode k ∧ c ≠ noKey := by
  unfold codesOf
  split_ifs with hf
  · rw [List.mem_singleton, hf, or_iff_left fun h => h.2 h.1]
  · rw [List.mem_pair]
    refine or_congr_right ⟨fun hc => ⟨hc, ?_⟩, And.left⟩
    rwa [hc]

theorem TracksBy.sends_own (hE : S.env.Lawful) {pairs : List (E × E)}
    {fa fa' : Keycode → Keycode} {e r : E} (h : TracksBy S.env (IsCodeOf S) pairs fa)
    (hs : Sends S fa e r fa') : TracksBy S.env (IsCodeOf S) (pairs ++ [(e, r)]) fa' := by
  refine h.sends hE (fun _ => mem_codesOf.mpr (.inl rfl)) hs fun hk _ => ?_
  have hne : S.config.forkKeycode (S.env.detailOf e) ≠ noKey := by
    rcases hk with hk | ⟨hne, hf⟩
    · exact hk
    · obtain ⟨hcode, hok⟩ := (mem_codesOf.mp (h.forked _ hf).2).resolve_left hne
      exact hcode ▸ hok
  exact ⟨hne, mem_codesOf.mpr (.inr ⟨rfl, hne⟩)⟩

variable [LinearOrder Time] [Add Time] [Zero Time] [NatCast Time]

/-- over three lists: the pairs of what left, with `forkActive` set for keys that are down only -/
theorem lists_faithful (hE : S.env.Lawful) {acts : List (Act E Time)}
    {s : Sys (ThreeLists E) E Time} (h : runs (Sys.step S) (Sys.create .nil) acts = some s)
    (halt : Alternates S.env s.pushed) :
    ∃ pairs : List (E × E), Faithful S.env (IsCodeOf S) pairs ∧
      s.pushed = pairs.map Prod.fst ++ s.machine.line ∧ s.handed = pairs.map Prod.snd ∧
      ∀ k, s.machine.forkActive k ≠ noKey → isDown S.env (pairs.map Prod.fst) k = true := by
  obtain ⟨pairs, hp, hh, ht, hsame, hdown⟩ := Sys.sends_ind (P := fun pairs fa =>
      TracksBy S.env (IsCodeOf S) pairs fa ∧ SamePairs S.env pairs ∧
        ∀ k, fa k ≠ noKey → isDown S.env (pairs.map Prod.fst) k = true)
    ⟨TracksBy.create _ _, fun _ hp => absurd hp List.not_mem_nil, fun _ hk => absurd rfl hk⟩
    (fun pairs fa e r fa' hpairs hs => ⟨hpairs.1.sends_own hE hs,
      hpairs.2.1.snoc hE.toRewritesCode hs, fun k hk => by
        rw [map_fst_snoc]
        exact hs.down hpairs.2.2 k hk⟩) h
  rw [List.append_assoc] at hp
  rw [hp] at halt
  exact ⟨pairs, ⟨ht.agree, hsame, (alternatesFrom_append.mp halt).1⟩, hp, hh, hdown⟩

/-- what was relayed, with what it was pushed as, is a first part of these pairs -/
theorem zip_eq_take {pairs : List (E × E)} {pushed line relays rest : List E}
    (hp : pushed = pairs.map Prod.fst ++ line) (hr : relays ++ rest = pairs.map Prod.snd) :
    pushed.zip relays = pairs.take relays.length := by
  obtain ⟨left, right, rfl, hleft, -⟩ := List.map_eq_append_iff.mp hr.symm
  have hlen : relays.length = left.length := by rw [← hleft, List.length_map]
  rw [hlen, List.take_left, hp, ← hleft, List.map_append, List.append_assoc,
    ← List.append_nil (left.map Prod.snd), List.zip_append (by simp), List.zip_nil_right,
    List.append_nil]
  exact (List.zip_of_prod rfl rfl).symm

theorem zip_map_fst {pushed relays : List E} (h : relays.length ≤ pushed.length) :
    (pushed.zip relays).map Prod.fst = pushed.take relays.length := by
  rw [List.zip_eq_zip_take_min, min_eq_right h, List.take_length, List.map_fst_zip]
  rw [List.length_take, min_eq_left h]

theorem zip_map_snd {pushed relays : List E} (h : relays.length ≤ pushed.length) :
    (pushed.zip relays).map Prod.snd = relays := List.map_snd_zip h

/-- every first part of what a machine relayed is faithful to what was pushed -/
theorem ring_faithful (hE : S.env.Lawful) {c : ℕ} (hc : 2 ≤ c) {acts : List (Act E Time)}
    (hw : WithinCapacity S c acts) {s : Sys (Triqueue E) E Time}
    (h : runs (Sys.step S) (Sys.create (Triqueue.create c)) acts = some s)
    (halt : Alternates S.env s.pushed) :
    Faithful S.env (IsCodeOf S) (s.pushed.zip (relayed s.trace)) ∧
      (relayed s.trace).length ≤ s.pushed.length ∧
      ((relayed s.trace).length = s.pushed.length → ∀ k, s.machine.forkActive k ≠ noKey →
        isDown S.env s.pushed k = true) := by
  obtain ⟨t, ht, halike⟩ := ring_run hc hw h
  rw [halike.pushed] at halt
  obtain ⟨pairs, hfaithful, hp, hh, hdown⟩ := lists_faithful hE ht halt
  rw [Sys.handed, List.append_assoc] at hh
  have hlen := congrArg List.length hh
  have hplen := congrArg List.length hp
  simp only [List.length_append, List.length_map] at hlen hplen
  rw [halike.pushed, halike.trace, zip_eq_take hp hh, halike.stands.forkActive]
  refine ⟨hfaithful.take _, by omega, fun heq k hk => ?_⟩
  have hline : t.machine.line = [] := List.length_eq_zero_iff.mp (by omega)
  rw [hp, hline, List.append_nil]
  exact hdown k hk

/-- key 3 is forked to 13 by its timer; then key 13 is pressed too, and both are released -/
def sharedCode : List (Act TestEvent Nat) :=
  during (.acceptEvent (down 3 100)) 7 ++ during (.acceptTime 300) 9 ++
    during (.acceptEvent (down 13 310)) 8 ++ during (.acceptEvent (up 3 320)) 8 ++
    during (.acceptEvent (up 13 330)) 8

/-- key 3 is forked while key 20 is typed under it, and both are released -/
def typedTogether : List (Act TestEvent Nat) :=
  during (.acceptEvent (down 3 100)) 7 ++ during (.acceptEvent (down 20 110)) 7 ++
    during (.acceptTime 300) 12 ++ during (.acceptEvent (up 3 310)) 8

end

end ForkNS
