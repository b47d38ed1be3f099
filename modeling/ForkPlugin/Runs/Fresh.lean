import ForkPlugin.Machine.Construct
import ForkPlugin.Runs.InRange

/-!
# A fresh configuration

* `NoForks`             no key of the tables forks;
* `Unforked`            then nothing is suspected and nothing is forked, in every run;
* `Initialised`         what a new configuration is for, whatever `MAX_KEYCODE`;
* `RestClear`           the part of the tables that the constructor leaves as it was;
* `construct_initialised`   the configuration is initialised where that part is clear and
                        `MAX_KEYCODE` is at least 256;
* `driver_tables_kept`  512, as in the driver, and 100.
-/

namespace ForkNS

open Runs Machine

/-! ## without forks -/

section
variable {E Time : Type} [LinearOrder Time] [Add Time] [Zero Time] [NatCast Time]
  {S : Setup E Time}

def NoForks (S : Setup E Time) : Prop := ∀ key < S.maxKeycode, S.config.forkKeycode key = noKey

/-- the events that the queue holds, and the machine itself, know no fork -/
structure Unforked (S : Setup E Time) (m : Machine (Triqueue E) Time) : Prop where
  cells : m.tq.buffer.Cells fun e => S.config.forkKeycode (S.env.detailOf e) = noKey
  forks : ∀ key, m.forkActive key = noKey
  normal : m.state = .normal

namespace Unforked
variable {m : Machine (Triqueue E) Time} {e : E}

omit [LinearOrder Time] [Add Time] [Zero Time] [NatCast Time] in
theorem check (h : Unforked S m) (b : Bool) (bug : Bug) : Unforked S (m.check b bug) := by
  unfold Machine.check
  split_ifs
  · exact h
  · exact ⟨h.cells, h.forks, h.normal⟩

omit [LinearOrder Time] [Add Time] [Zero Time] [NatCast Time] in
theorem moveToFirst (h : Unforked S m) : Unforked S m.moveToFirst :=
  ⟨cells_moveToFirst h.cells, (h.check _ _).forks, (h.check _ _).normal⟩

omit [LinearOrder Time] [Add Time] [Zero Time] [NatCast Time] in
theorem moveToSecond (h : Unforked S m) : Unforked S m.moveToSecond :=
  ⟨cells_moveToSecond h.cells, (h.check _ _).forks, (h.check _ _).normal⟩

omit [LinearOrder Time] [Add Time] [Zero Time] [NatCast Time] in
theorem pop (h : Unforked S m) : Unforked S m.pop :=
  ⟨cells_pop h.cells, (h.check _ _).forks, (h.check _ _).normal⟩

omit [Zero Time] [NatCast Time] in
/-- every event of a key without a fork is passed along -/
theorem verdict_pass (h : Unforked S m) (he : S.config.forkKeycode (S.env.detailOf e) = noKey) :
    m.verdict S e = .pass := by
  have hf : forkableP S (S.env.detailOf e) = false := by rw [forkableP, he]; rfl
  have hk : m.keyForked (S.env.detailOf e) = false := keyForked_false.mpr (.inr (h.forks _))
  have hg := guard_verdict S m e
  generalize m.verdict S e = v at hg ⊢
  cases v with
  | pass => rfl
  | refork => exact absurd (hk.symm.trans hg.2.2) Bool.false_ne_true
  | startSuspect | autoRepeat | selfFork =>
    exact absurd (hf.symm.trans hg.2.2.1) Bool.false_ne_true
  | unfork => exact absurd (h.forks _) hg.2.2
  | forkHead | confirmHead | wait => exact absurd h.normal hg.1
  | repeatHead | discard | verify | unverify =>
    have hs := hg.1.symm.trans h.normal
    cases hs

theorem automatonBody (h : Unforked S m) {f again : Bool} {m' : Machine (Triqueue E) Time}
    (hb : m.automatonBody S f = (m', again)) : Unforked S m' := by
  cases automatonBody_iteration hb with
  | unread | done => exact h
  | event e hi hp =>
    have hnote : Unforked S (m.noteRelease S e) := by
      unfold noteRelease recordLastReleaseEvent
      split_ifs <;> exact ⟨h.cells, h.forks, h.normal⟩
    rw [h.verdict_pass (h.cells.cell hp)]
    exact hnote.moveToSecond.moveToFirst
  | time hi hd => exact absurd h.normal hd.1
  | force hi hd hf hs => exact absurd h.normal hs

theorem keeps (hS : NoForks S) :
    Keeps S (fun e => S.env.detailOf e ≠ S.maxKeycode) (Unforked S) where
  clock _ _ h := ⟨h.cells, h.forks, h.normal⟩
  push _ _ h he hle := ⟨h.cells.pushBack (hS _ (lt_of_le_of_ne hle he)), h.forks, h.normal⟩
  pop _ h _ := h.pop
  body _ _ _ _ h hb := h.automatonBody hb

theorem run (hS : NoForks S) {c : ℕ} {acts : List (Act E Time)} {s : Sys (Triqueue E) E Time}
    (hkeys : ∀ e ∈ offered acts, S.env.detailOf e ≠ S.maxKeycode)
    (h : runs (Sys.step S) (Sys.create (Triqueue.create c)) acts = some s) :
    Unforked S s.machine :=
  (keeps hS).run ⟨CircularBuffer.cells_create c, fun _ => rfl, rfl⟩ hkeys h

end Unforked

end

/-! ## a new configuration -/

variable {Time : Type}

section
variable [Zero Time]

/-- every cell below `MAX_KEYCODE` is clear, but for `matrix[0][0]` -/
structure Cleared (maxKeycode : ℕ) (config : ForkConfiguration Time) : Prop where
  forkKeycode : ∀ i < maxKeycode, config.forkKeycode i = noKey
  forkRepeatable : ∀ i < maxKeycode, config.forkRepeatable i = false
  matrices : ∀ m ∈ config.matrices, ∀ i < maxKeycode, ∀ j < maxKeycode, (i, j) ≠ (0, 0) →
    m.overlapTolerance i j = 0 ∧ m.verificationInterval i j = 0

/-- the cells with an index that the loops do not reach are clear -/
structure RestClear (maxKeycode : ℕ) (config : ForkConfiguration Time) : Prop where
  forkKeycode : ∀ i < maxKeycode, initBound ≤ i → config.forkKeycode i = noKey
  forkRepeatable : ∀ i < maxKeycode, initBound ≤ i → config.forkRepeatable i = false
  matrices : ∀ m ∈ config.matrices, ∀ i < maxKeycode, ∀ j < maxKeycode,
    initBound ≤ i ∨ initBound ≤ j → m.overlapTolerance i j = 0 ∧ m.verificationInterval i j = 0

theorem restClear_of_le {maxKeycode : ℕ} (h : maxKeycode ≤ initBound)
    (config : ForkConfiguration Time) : RestClear maxKeycode config where
  forkKeycode i hi hle := absurd (hi.trans_le h) (not_lt.mpr hle)
  forkRepeatable i hi hle := absurd (hi.trans_le h) (not_lt.mpr hle)
  matrices m _ i hi j hj hle := absurd hle (by omega)

variable [NatCast Time]

theorem cleared_iff (maxKeycode : ℕ) (previous : ForkConfiguration Time) :
    Cleared maxKeycode (construct previous).config ↔ RestClear maxKeycode previous := by
  have hmatrices : ∀ m', m' ∈ (construct previous).config.matrices ↔ ∃ m ∈ previous.matrices,
      m' = ⟨(m.overlapTolerance.clearRows initBound initBound).set 0 0 ((100 : ℕ) : Time),
        (m.verificationInterval.clearRows initBound initBound).set 0 0 ((200 : ℕ) : Time)⟩ := by
    intro m'
    rw [construct_config]
    simp only [Option.mem_map, eq_comm]
  constructor
  · intro h
    refine ⟨fun i hi hle => ?_, fun i hi hle => ?_, fun m hm i hi j hj hle => ?_⟩
    · have hcell := h.forkKeycode i hi
      rwa [construct_forkKeycode, if_neg (not_lt.mpr hle)] at hcell
    · have hcell := h.forkRepeatable i hi
      rwa [construct_forkRepeatable, if_neg (not_lt.mpr hle)] at hcell
    · have hne : (i, j) ≠ (0, 0) := by
        intro h0
        obtain ⟨rfl, rfl⟩ := Prod.mk.inj h0
        exact absurd hle (by decide)
      have hout : ¬(i < initBound ∧ j < initBound) := by omega
      have hcell := h.matrices _ ((hmatrices _).mpr ⟨m, hm, rfl⟩) i hi j hj hne
      simp only [clearRows_set_apply _ _ hne, if_neg hout] at hcell
      exact hcell
  · intro h
    refine ⟨fun i hi => ?_, fun i hi => ?_, fun m' hm' i hi j hj hne => ?_⟩
    · rw [construct_forkKeycode]
      split_ifs with hlt
      · rfl
      · exact h.forkKeycode i hi (not_lt.mp hlt)
    · rw [construct_forkRepeatable]
      split_ifs with hlt
      · rfl
      · exact h.forkRepeatable i hi (not_lt.mp hlt)
    · obtain ⟨m, hm, rfl⟩ := (hmatrices m').mp hm'
      simp only [clearRows_set_apply _ _ hne]
      split_ifs with hlt
      · exact ⟨rfl, rfl⟩
      · exact h.matrices m hm i hi j hj (by omega)

end

section
variable [LinearOrder Time] [Add Time] [Zero Time] [NatCast Time]

/-- no key is suspected in any run to which no event with the keycode `MAX_KEYCODE` comes -/
def SuspectsNothing {E : Type} (S : Setup E Time) : Prop :=
  ∀ (c : ℕ) (acts : List (Act E Time)) (s : Sys (Triqueue E) E Time),
    (∀ e ∈ offered acts, S.env.detailOf e ≠ S.maxKeycode) →
    runs (Sys.step S) (Sys.create (Triqueue.create c)) acts = some s → s.machine.state = .normal

/-- the tables are clear, nothing outside them was written, and a machine with the configuration
suspects no key -/
structure Initialised (maxKeycode : ℕ) (c : Construction Time) : Prop where
  cleared : Cleared maxKeycode c.config
  inside : c.WrittenBelow maxKeycode
  unsuspecting : ∀ {E : Type} (S : Setup E Time), S.maxKeycode = maxKeycode →
    S.config = c.config → SuspectsNothing S

theorem initialised_iff (maxKeycode : ℕ) (previous : ForkConfiguration Time) :
    Initialised maxKeycode (construct previous) ↔
      initBound ≤ maxKeycode ∧ RestClear maxKeycode previous := by
  constructor
  · intro h
    have hlast := h.inside _ (forkKeycode_written previous (i := 255) (by decide))
    exact ⟨hlast, (cleared_iff maxKeycode previous).mp h.cleared⟩
  · rintro ⟨hle, hrest⟩
    have hclear := (cleared_iff maxKeycode previous).mpr hrest
    refine ⟨hclear, construct_written_below previous hle, ?_⟩
    intro E S hmax hconfig c acts s hkeys h
    have hS : NoForks S := by
      intro key hkey
      rw [hconfig]
      exact hclear.forkKeycode key (hmax ▸ hkey)
    exact (Unforked.run hS hkeys h).normal

/-- memory in which every key forks -/
def allForked : ForkConfiguration Time := ⟨fun _ => 7, fun _ => true, none, 0, false⟩

theorem initialised_any_iff (maxKeycode : ℕ) :
    (∀ previous : ForkConfiguration Time, Initialised maxKeycode (construct previous)) ↔
      maxKeycode = initBound := by
  constructor
  · intro h
    obtain ⟨hle, hrest⟩ := (initialised_iff maxKeycode allForked).mp (h allForked)
    refine le_antisymm (not_lt.mp fun hlt => ?_) hle
    exact absurd (hrest.forkKeycode initBound hlt le_rfl) (Nat.succ_ne_zero 6)
  · intro h previous
    exact (initialised_iff maxKeycode previous).mpr ⟨h.ge, restClear_of_le h.le previous⟩

/-- **When a new configuration is initialised.**  `MAX_KEYCODE` is at least 256, and what the loops
do not reach was clear before.  Whatever was in the memory, that is 256 alone. -/
theorem construct_initialised :
    (∀ (maxKeycode : ℕ) (previous : ForkConfiguration Time),
      Initialised maxKeycode (construct previous) ↔
        256 ≤ maxKeycode ∧ RestClear maxKeycode previous) ∧
    ∀ maxKeycode : ℕ, (∀ previous : ForkConfiguration Time,
      Initialised maxKeycode (construct previous)) ↔ maxKeycode = 256 :=
  ⟨initialised_iff, initialised_any_iff⟩

end

/-- 512 is the `MAX_KEYCODE` of the driver: Right Alt, 312, still forks, and is suspected.  With 100
the loops write outside of the tables. -/
theorem driver_tables_kept :
    ((construct (allForked : ForkConfiguration ℤ)).config.forkKeycode 312 = 7 ∧
      (∃ s, runs (Sys.step (winSetup (construct allForked).config)) (Sys.create (Triqueue.create 2))
        ((readPacket rightAlt).take 3) = some s ∧
        s.machine.state = .suspect ∧ s.machine.suspect = 312) ∧
      ¬Initialised 512 (construct (allForked : ForkConfiguration ℤ))) ∧
    ((.forkKeycode, 255) ∈ (construct (allForked : ForkConfiguration ℤ)).written ∧
      ¬Initialised 100 (construct (allForked : ForkConfiguration ℤ))) := by
  have hconfig : (construct (allForked : ForkConfiguration ℤ)).config =
      ⟨fun i => if i < initBound then noKey else 7, fun i => if i < initBound then false else true,
        none, 80, true⟩ := by
    rw [construct_config]
    congr 1
    · funext i
      exact Stores.fill_apply _ _ _ i
    · funext i
      exact Stores.fill_apply _ _ _ i
  refine ⟨⟨by rw [hconfig]; rfl, ?_, ?_⟩, ?_, ?_⟩
  · rw [hconfig]
    have hs := Option.eq_some_of_isSome (o := runs (Sys.step (winSetup
      ⟨fun i => if i < initBound then noKey else 7, fun i => if i < initBound then false else true,
        none, 80, true⟩)) (Sys.create (Triqueue.create 2)) ((readPacket rightAlt).take 3))
      (by decide)
    exact ⟨_, hs, by decide, by decide⟩
  · intro h
    obtain ⟨-, hrest⟩ := (initialised_iff 512 allForked).mp h
    exact absurd (hrest.forkKeycode 312 (by decide) (by decide)) (by decide)
  · exact forkKeycode_written allForked (by decide)
  · intro h
    exact absurd ((initialised_iff 100 allForked).mp h).1 (by decide)

end ForkNS
