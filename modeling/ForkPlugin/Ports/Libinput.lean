import ForkPlugin.Machine.Construct
import ForkPlugin.Runs.Latency
import ForkPlugin.Runs.Wrap

/-!
# The plugin of libinput

The times of the events have 32 bits, those of the machine 64.  The plugin configures the machine
once; the output is never frozen, and what the machine returns is not used.

* `Time64`               unsigned, with addition modulo 2^64;
* `LibinputEvent`        a keyboard event with its device;
* `forkInit`             the configuration that the plugin starts with;
* `LibinputAct`          what libinput calls, and the steps of the machine;
* `Narrow`               no interval reaches 2^63: so it is after `fork_init`;
* `wideClocks`           then no sum wraps, whatever is typed;
* `libinput_unbounded`   the plugin does what it would do with unbounded times;
* `libinput_in_time`     and it holds no event for more than 200 ms, if another one comes.

`rewrite` is `services->rewrite`, which belongs to libinput.  Logs are left out.
-/

namespace ForkNS

open Runs Machine
open scoped Fin.NatCast

/-- unsigned integers of 64 bits -/
abbrev Time64 := Fin (2 ^ 64)

instance neZero64 : NeZero (2 ^ 64) := ⟨by decide⟩

/-! ## the environment -/

/-- `libinputEvent`, and what libinput tells about its `event`: `time` is a `uint32_t` -/
structure LibinputEvent where
  device : Nat
  key : Keycode
  pressed : Bool
  time : UInt32
deriving DecidableEq, Repr

/-- `LIBINPUT_KEY_STATE_PRESSED` and `LIBINPUT_KEY_STATE_RELEASED` are the only states -/
def libinputEnvironment (rewrite : LibinputEvent → Keycode → LibinputEvent) :
    Environment LibinputEvent Time64 where
  pressP event := event.pressed
  releaseP event := !event.pressed
  timeOf event := ⟨event.time.toNat, event.time.toNat_lt.trans (by decide)⟩
  detailOf event := event.key
  ignoreEvent _ := false
  rewriteEvent := rewrite

/-- `MAX_KEYCODE` is 256, and `mLock` is a `std::mutex` -/
def libinputSetup (rewrite : LibinputEvent → Keycode → LibinputEvent)
    (settings : Settings Time64) : Setup LibinputEvent Time64 where
  env := libinputEnvironment rewrite
  config := settings.config
  maxKeycode := 256
  stdLibrary := true

/-! ## `fork_init` -/

/-- `Keycode` is `int` (here it is never negative), `Time` is `uint64_t`; the way back is by
`int` again -/
def libinputPort : Port Time64 where
  keycodeOfInt := Int.toNat
  timeOfInt value := ((value % 2 ^ 64).toNat : Time64)
  intOfTime time := (time.val : Int).bmod (2 ^ 32)

/-- the pairs `from`, `to` of the loop -/
def forkPairs : List (Nat × Nat) :=
  [(41, 61), (46, 61), (38, 66), (45, 66), (58, 37), (40, 109), (44, 109), (39, 192), (65, 37),
    (55, 37), (47, 37), (54, 108), (64, 208)]

def configureFork (s : Settings Time64) (key : Keycode) (value : Int) : Settings Time64 :=
  (s.configureKey libinputPort .keyFork key value true).settings

/-- `create_configs`: `config` is what was constructed -/
def Construction.settings (c : Construction Time64) : Settings Time64 where
  config := c.config
  clearInterval := c.clearInterval
  debug := c.debug
  maxLast := 10

def configureForks (s : Settings Time64) (pairs : List (Nat × Nat)) : Settings Time64 :=
  pairs.foldl (fun s pair => configureFork s (pair.1 - 8) ((pair.2 : Int) - 8)) s

/-- `previous`: the contents of the memory of the configuration -/
def forkInit (previous : ForkConfiguration Time64) : Settings Time64 :=
  let s := (construct previous).settings.setDebug 1
  configureForks (configureFork s (65 - 8) 29) forkPairs

/-- the machine that the plugin hands over to libinput -/
abbrev libinputPlugin (rewrite : LibinputEvent → Keycode → LibinputEvent)
    (previous : ForkConfiguration Time64) : Setup LibinputEvent Time64 :=
  libinputSetup rewrite (forkInit previous)

/-- `accept_event` and `accept_time` of the plugin; `tick`: one step of the machine -/
inductive LibinputAct where
  | acceptEvent (device : Nat) (key : Keycode) (pressed : Bool) (time : UInt32)
  | acceptTime (device : Nat) (time : Time64)
  | tick

/-- `output_frozen` is `false` -/
def LibinputAct.act : LibinputAct → Act LibinputEvent Time64
  | .acceptEvent device key pressed time => .call (.acceptEvent ⟨device, key, pressed, time⟩)
  | .acceptTime _ time => .call (.acceptTime time)
  | .tick => .tick false

/-! ## no interval is long -/

structure Narrow (config : ForkConfiguration Time64) : Prop where
  interval : ∀ code verificator, (config.verificationIntervalOf code verificator).val < 2 ^ 63
  tolerance : ∀ code verificator, (config.overlapToleranceOf code verificator).val < 2 ^ 63
  repeatMax : config.repeatMax.val < 2 ^ 63

/-- what the memory holds beyond the tables that the constructor clears -/
def NarrowBeyond (previous : ForkConfiguration Time64) : Prop :=
  ∀ m ∈ previous.matrices, ∀ i j, initBound ≤ i ∨ initBound ≤ j →
    (m.overlapTolerance i j).val < 2 ^ 63 ∧ (m.verificationInterval i j).val < 2 ^ 63

section
variable {previous : ForkConfiguration Time64}

/-- forks leave the times as they are -/
theorem configureForks_config (pairs : List (Nat × Nat)) (s : Settings Time64) :
    (configureForks s pairs).config.matrices = s.config.matrices ∧
      (configureForks s pairs).config.repeatMax = s.config.repeatMax := by
  induction pairs generalizing s with
  | nil => exact ⟨rfl, rfl⟩
  | cons pair pairs ih => exact ih (configureFork s (pair.1 - 8) ((pair.2 : Int) - 8))

/-- the plugin sets no interval -/
theorem forkInit_times (previous : ForkConfiguration Time64) :
    (forkInit previous).config.matrices = (previous.matrices.map fun m =>
        ⟨(m.overlapTolerance.clearRows initBound initBound).set 0 0 ((100 : Nat) : Time64),
          (m.verificationInterval.clearRows initBound initBound).set 0 0
            ((200 : Nat) : Time64)⟩) ∧
      (forkInit previous).config.repeatMax = ((80 : Nat) : Time64) := by
  obtain ⟨hm, hr⟩ := configureForks_config forkPairs
    (configureFork ((construct previous).settings.setDebug 1) (65 - 8) 29)
  have hc := construct_config previous
  rw [forkInit]
  generalize construct previous = c at hm hr hc ⊢
  rcases c with ⟨config, clearInterval, debug, written⟩
  obtain rfl : config = _ := hc
  exact ⟨hm, hr⟩

theorem getValueFromMatrix_lt {matrix : ParameterMatrix Time64} {n : ℕ}
    (h : ∀ i j, (matrix i j).val < n) (code verificator : Keycode) :
    (getValueFromMatrix matrix code verificator).val < n := by
  unfold getValueFromMatrix
  split_ifs <;> exact h _ _

/-- a table of the constructor, but for its first entry -/
theorem cleared_lt {matrix : ParameterMatrix Time64} {value : Time64} (hv : value.val < 2 ^ 63)
    (h : ∀ i j, initBound ≤ i ∨ initBound ≤ j → (matrix i j).val < 2 ^ 63) (i j : Keycode) :
    ((matrix.clearRows initBound initBound).set 0 0 value i j).val < 2 ^ 63 := by
  by_cases hz : (i, j) = (0, 0)
  · obtain ⟨rfl, rfl⟩ := Prod.mk.inj hz
    rw [ParameterMatrix.set_apply, if_pos ⟨rfl, rfl⟩]
    exact hv
  · rw [clearRows_set_apply matrix value hz]
    split_ifs with hin
    · decide
    · exact h i j (by omega)

theorem forkInit_matrices (hp : NarrowBeyond previous) :
    ∀ m ∈ (forkInit previous).config.matrices, ∀ i j,
      (m.overlapTolerance i j).val < 2 ^ 63 ∧ (m.verificationInterval i j).val < 2 ^ 63 := by
  rintro ⟨o, v⟩ hm i j
  rw [(forkInit_times previous).1, Option.mem_def, Option.map_eq_some_iff] at hm
  obtain ⟨m, hprev, heq⟩ := hm
  obtain ⟨ho, hv⟩ := ParameterMatrices.mk.inj heq
  show (o i j).val < 2 ^ 63 ∧ (v i j).val < 2 ^ 63
  rw [← ho, ← hv]
  exact ⟨cleared_lt (by decide) (fun i j hij => (hp m hprev i j hij).1) i j,
    cleared_lt (by decide) (fun i j hij => (hp m hprev i j hij).2) i j⟩

theorem forkInit_narrow (hp : NarrowBeyond previous) : Narrow (forkInit previous).config := by
  have hmatrices := forkInit_matrices hp
  have hrepeat := (forkInit_times previous).2
  generalize (forkInit previous).config = config at hmatrices hrepeat ⊢
  rcases config with ⟨fk, fr, - | m, rm, cf⟩
  · refine ⟨fun _ _ => ?_, fun _ _ => ?_, ?_⟩
    · show ((200 : Nat) : Time64).val < 2 ^ 63
      decide
    · show ((100 : Nat) : Time64).val < 2 ^ 63
      decide
    · rw [hrepeat]
      decide
  · refine ⟨fun code verificator => ?_, fun code verificator => ?_, ?_⟩
    · exact getValueFromMatrix_lt (fun i j => (hmatrices m rfl i j).2) code verificator
    · exact getValueFromMatrix_lt (fun i j => (hmatrices m rfl i j).1) code verificator
    · rw [hrepeat]
      decide

/-- the interval of every key of the tables is 200 -/
theorem forkInit_interval (previous : ForkConfiguration Time64) {key : Keycode}
    (hkey : key < initBound) :
    ((forkInit previous).config.verificationIntervalOf key noKey).val = 200 := by
  have htimes := (forkInit_times previous).1
  generalize (forkInit previous).config = config at htimes ⊢
  rcases config with ⟨fk, fr, - | ⟨o, v⟩, rm, cf⟩
  · rfl
  · obtain ⟨m, -, heq⟩ := Option.map_eq_some_iff.mp htimes.symm
    obtain ⟨-, hv⟩ := ParameterMatrices.mk.inj heq
    have hfirst : v 0 0 = ((200 : Nat) : Time64) := by
      rw [← hv, ParameterMatrix.set_apply, if_pos ⟨rfl, rfl⟩]
    show (getValueFromMatrix v key noKey).val = 200
    by_cases hz : key = 0
    · rw [getValueFromMatrix, hz, hfirst, if_pos (by decide)]
      rfl
    · have hkeyed : v key 0 = 0 := by
        rw [← hv, clearRows_set_apply _ _ fun h => hz (Prod.mk.inj h).1, if_pos ⟨hkey, by decide⟩]
      rw [getValueFromMatrix, hkeyed, hfirst, if_neg (by decide), if_neg (by decide)]
      rfl

end

/-! ## no sum wraps -/

theorem wide_add_val {a b : Time64} (h : a.val + b.val < 2 ^ 64) :
    (a + b).val = a.val + b.val := by
  rw [Fin.val_add, Nat.mod_eq_of_lt h]

section
variable (config : ForkConfiguration Time64) (code verificator : Keycode)

theorem wide_interval : (config.retimed Fin.val).verificationIntervalOf code verificator
    = (config.verificationIntervalOf code verificator).val :=
  ForkConfiguration.verificationIntervalOf_retimed (fun _ => Fin.val_eq_zero_iff) code verificator
    config rfl

theorem wide_tolerance : (config.retimed Fin.val).overlapToleranceOf code verificator
    = (config.overlapToleranceOf code verificator).val :=
  ForkConfiguration.overlapToleranceOf_retimed (fun _ => Fin.val_eq_zero_iff) code verificator
    config rfl

theorem Narrow.verifierDecisionTime {config : ForkConfiguration Time64} (hn : Narrow config)
    {code verificator : Keycode} {s t : Time64} (hs : s.val < 2 ^ 32) (ht : t.val < 2 ^ 32) :
    (config.retimed Fin.val).verifierDecisionTime code s.val verificator t.val
      = (config.verifierDecisionTime code s verificator t).val := by
  have hi := hn.interval code verificator
  have ho := hn.tolerance code verificator
  simp only [ForkConfiguration.verifierDecisionTime, wide_interval, wide_tolerance, Fin.lt_def]
  rw [wide_add_val (by omega), wide_add_val (by omega)]
  split_ifs
  · exact (wide_add_val (by omega)).symm
  · exact (wide_add_val (by omega)).symm

end

theorem wide_zero : 0 = (0 : Time64).val := rfl

theorem wide_none : 0 = (0 : Time64).val ∧ (0 : Time64).val < 2 ^ 32 :=
  ⟨wide_zero, Nat.two_pow_pos 32⟩

/-- the same numbers; those that are added to are times of events -/
def wideClocks : Clocks Time64 ℕ where
  decision s d s' d' := s' = s.val ∧ d' = d.val ∧ s.val < 2 ^ 32
  release _ r r' := r' = r.val ∧ r.val < 2 ^ 32
  clock c c' := c' = c.val
  release_none := wide_none
  clock_none := wide_zero

section
variable {rewrite : LibinputEvent → Keycode → LibinputEvent} {settings : Settings Time64}

theorem wide_synchronous (hn : Narrow settings.config) :
    Synchronous wideClocks (id : Triqueue LibinputEvent → Triqueue LibinputEvent)
      (libinputSetup rewrite settings) ((libinputSetup rewrite settings).retimed Fin.val) id
      Fin.val (fun _ _ => True) where
  setup := setupAlike_retimed _ Fin.val
  zero := rfl
  clock {c c'} h := ⟨h, by rw [show c' = c.val from h, Fin.val_eq_zero_iff]⟩
  event e := ⟨rfl, Fin.val_eq_zero_iff⟩
  due h := h.2.1
  deadline e h := by
    rw [h.2.1]
    exact Fin.le_def
  timer {_ _ _ _ c c'} h hc _ := by
    rw [h.2.1, show c' = c.val from hc]
    exact Fin.le_def
  release e := ⟨rfl, e.time.toNat_lt⟩
  quick {m m' e} h _ _ := by
    obtain ⟨hr, hlt⟩ := h.release
    have hmax := hn.repeatMax
    have hsum : (m.lastReleasedTime + settings.config.repeatMax).val
        = m.lastReleasedTime.val + settings.config.repeatMax.val := wide_add_val (by omega)
    show m.lastReleasedTime + settings.config.repeatMax < _ ↔ _
    rw [hr, Fin.lt_def, hsum]
    rfl
  start {m e} _ _ := by
    have he := e.time.toNat_lt
    have hi := hn.interval e.key noKey
    refine ⟨rfl, ?_, he⟩
    show e.time.toNat + (settings.config.retimed Fin.val).verificationIntervalOf e.key noKey = _
    rw [wide_interval]
    have hsum : ((libinputEnvironment rewrite).timeOf e
        + settings.config.verificationIntervalOf e.key noKey).val
          = e.time.toNat + (settings.config.verificationIntervalOf e.key noKey).val :=
      wide_add_val (show e.time.toNat + _ < 2 ^ 64 by omega)
    exact hsum.symm
  verify {m m' e} h _ hv := by
    have hs := guard_verdict (libinputSetup rewrite settings) m e
    rw [hv] at hs
    obtain ⟨hsus, hdec, hlt⟩ := h.decision (by rw [hs.1]; decide)
    refine ⟨hsus, ?_, hlt⟩
    rw [verifiedTime, verifiedTime, h.suspect, hsus, hdec]
    show min _ ((settings.config.retimed Fin.val).verifierDecisionTime _ _ e.key e.time.toNat) = _
    have htime : ((libinputEnvironment rewrite).timeOf e).val < 2 ^ 32 := e.time.toNat_lt
    refine Eq.trans ?_ (Fin.val_strictMono.monotone.map_min).symm
    exact congrArg _ (hn.verifierDecisionTime hlt htime)

end

/-! ## the plugin in a memory of zeros -/

/-- a memory of zeros -/
def blank : ForkConfiguration Time64 where
  forkKeycode _ := noKey
  forkRepeatable _ := false
  matrices := some ⟨fun _ _ => 0, fun _ _ => 0⟩
  repeatMax := 0
  considerForksForRepeat := false

/-- the forks of `fork_init`, one after the other -/
def initialForks : Keycode → Keycode :=
  forkPairs.foldl (fun forks pair => Function.update forks (pair.1 - 8) (pair.2 - 8))
    (Function.update (fun _ => noKey) (65 - 8) 29)

theorem construct_blank : (construct blank).config =
    { forkKeycode := fun _ => noKey
      forkRepeatable := fun _ => false
      matrices := some ⟨ParameterMatrix.set (fun _ _ => 0) 0 0 ((100 : Nat) : Time64),
        ParameterMatrix.set (fun _ _ => 0) 0 0 ((200 : Nat) : Time64)⟩
      repeatMax := ((80 : Nat) : Time64)
      considerForksForRepeat := true } := by
  have hfill : ∀ {α : Type} (x : α) (n : Nat), Stores.fill (fun _ => x) x n = fun _ => x := by
    intro α x n
    funext i
    rw [Stores.fill_apply]
    split_ifs <;> rfl
  have hrows : ParameterMatrix.clearRows (fun _ _ => (0 : Time64)) initBound initBound
      = fun _ _ => 0 := by
    funext i j
    rw [ParameterMatrix.clearRows_apply]
    split_ifs <;> rfl
  rw [construct_config]
  simp only [blank, hfill, hrows, Option.map_some]

theorem forkInit_blank : (forkInit blank).config =
    { (construct blank).config with forkKeycode := initialForks } := by
  have hforks : ∀ i, (construct blank).config.forkKeycode i = noKey := fun i => by
    rw [construct_blank]
  rw [forkInit]
  generalize construct blank = c at hforks ⊢
  rcases c with ⟨⟨forks, repeatable, matrices, repeatMax, consider⟩, clearInterval, debug, written⟩
  obtain rfl : forks = fun _ => noKey := funext hforks
  rfl

def setKey (event : LibinputEvent) (code : Keycode) : LibinputEvent := { event with key := code }

/-- the plugin in that memory -/
def blankPlugin : Setup LibinputEvent Time64 where
  env := libinputEnvironment setKey
  config :=
    { forkKeycode := initialForks
      forkRepeatable := fun _ => false
      matrices := some ⟨ParameterMatrix.set (fun _ _ => 0) 0 0 ((100 : Nat) : Time64),
        ParameterMatrix.set (fun _ _ => 0) 0 0 ((200 : Nat) : Time64)⟩
      repeatMax := ((80 : Nat) : Time64)
      considerForksForRepeat := true }
  maxKeycode := 256
  stdLibrary := true

theorem libinputPlugin_blank : libinputPlugin setKey blank = blankPlugin := by
  rw [libinputPlugin, libinputSetup, forkInit_blank, construct_blank, blankPlugin]

theorem libinputPlugin_run (acts : List LibinputAct) :
    runs (Sys.step (libinputPlugin setKey blank)) (Sys.create (Triqueue.create 3))
        (acts.map LibinputAct.act)
      = runs (Sys.step blankPlugin) (Sys.create (Triqueue.create 3))
        (acts.map LibinputAct.act) := by
  rw [libinputPlugin_blank]

theorem narrowBeyond_blank : NarrowBeyond blank := by
  rintro m hm i j -
  obtain rfl := Option.some.inj hm
  exact ⟨show (0 : Time64).val < 2 ^ 63 by decide, show (0 : Time64).val < 2 ^ 63 by decide⟩

/-- an event so much before the end of the range of its time, and some steps -/
def handing (key : Keycode) (pressed : Bool) (left steps : Nat) : List LibinputAct :=
  .acceptEvent 1 key pressed (.ofNat (2 ^ 32 - left)) :: List.replicate steps .tick

/-! ## runs -/

section
variable {rewrite : LibinputEvent → Keycode → LibinputEvent}
  {previous : ForkConfiguration Time64}

variable (rewrite) in
theorem libinput_lockstep (hp : NarrowBeyond previous) (c : ℕ)
    (acts : List (Act LibinputEvent Time64)) :
    Option.Rel (SysLike wideClocks id id Fin.val)
      (runs (Sys.step (libinputPlugin rewrite previous)) (Sys.create (Triqueue.create c)) acts)
      (runs (Sys.step ((libinputPlugin rewrite previous).retimed Fin.val))
        (Sys.create (Triqueue.create c)) (acts.map (Act.map id Fin.val))) := by
  refine lockstep TriqueueMap.id (wide_synchronous (forkInit_narrow hp))
    (fun now _ => ⟨rfl, fun b b' hb => ?_⟩) (fun _ _ _ _ _ _ _ _ _ => trivial)
  rw [show b' = b.val from hb]
  exact Fin.lt_def

/-- the run with unbounded times -/
theorem libinput_like (hp : NarrowBeyond previous) {c : ℕ}
    {acts : List (Act LibinputEvent Time64)}
    {s : Sys (Triqueue LibinputEvent) LibinputEvent Time64}
    (h : runs (Sys.step (libinputPlugin rewrite previous)) (Sys.create (Triqueue.create c)) acts
      = some s) :
    ∃ s', runs (Sys.step ((libinputPlugin rewrite previous).retimed Fin.val))
        (Sys.create (Triqueue.create c)) (acts.map (Act.map id Fin.val)) = some s' ∧
      SysLike wideClocks id id Fin.val s s' := by
  have hrel := libinput_lockstep rewrite hp c acts
  rw [h] at hrel
  generalize runs (Sys.step ((libinputPlugin rewrite previous).retimed Fin.val))
    (Sys.create (Triqueue.create c)) (acts.map (Act.map id Fin.val)) = x at hrel ⊢
  cases hrel with
  | some hlike => exact ⟨_, rfl, hlike⟩

theorem libinput_within (hp : NarrowBeyond previous) {c : ℕ}
    {acts : List (Act LibinputEvent Time64)}
    (hw : WithinCapacity (libinputPlugin rewrite previous) c acts) :
    WithinCapacity ((libinputPlugin rewrite previous).retimed Fin.val) c
      (acts.map (Act.map id Fin.val)) := by
  intro pre' post' s' heq hs'
  obtain ⟨pre, post, rfl, rfl, rfl⟩ := List.map_eq_append_iff.mp heq
  have hrel := libinput_lockstep rewrite hp c pre
  rw [hs'] at hrel
  generalize hs : runs (Sys.step (libinputPlugin rewrite previous))
    (Sys.create (Triqueue.create c)) pre = s at hrel
  cases hrel with
  | some hlike =>
    rw [show s'.machine.tq = _ from hlike.machine.tq]
    exact hw pre post _ rfl hs

theorem wide_times (acts : List (Act LibinputEvent Time64)) :
    times ((libinputPlugin rewrite previous).retimed Fin.val).env
        (calls (acts.map (Act.map id Fin.val)))
      = (times (libinputEnvironment rewrite) (calls acts)).map Fin.val := by
  simp only [times, calls, List.filterMap_map, List.map_filterMap, List.filterMap_filterMap]
  refine List.filterMap_congr fun a _ => ?_
  rcases a with (e | now | -) | frozen <;> rfl

/-- **The plugin does what it would do with unbounded times.**  Whatever libinput calls, it relays
the same events, hands over the same times and returns the same values; with times in order a
deadline never precedes the suspicion. -/
theorem libinput_unbounded (hp : NarrowBeyond previous) {c : ℕ} {acts : List LibinputAct}
    {s : Sys (Triqueue LibinputEvent) LibinputEvent Time64}
    (h : runs (Sys.step (libinputPlugin rewrite previous)) (Sys.create (Triqueue.create c))
      (acts.map LibinputAct.act) = some s) :
    (∃ s', runs (Sys.step ((libinputPlugin rewrite previous).retimed Fin.val))
        (Sys.create (Triqueue.create c)) ((acts.map LibinputAct.act).map (Act.map id Fin.val))
          = some s' ∧
      s'.trace = s.trace.map (Obs.map id Fin.val) ∧ s'.pushed = s.pushed) ∧
    (2 ≤ c → WithinCapacity (libinputPlugin rewrite previous) c (acts.map LibinputAct.act) →
      (times (libinputEnvironment rewrite) (calls (acts.map LibinputAct.act))).Pairwise (· ≤ ·) →
      s.machine.state ≠ .normal → s.machine.suspectTime ≤ s.machine.mDecisionTime) := by
  obtain ⟨s', hs', hlike⟩ := libinput_like hp h
  refine ⟨⟨s', hs', hlike.trace, hlike.pushed.trans (List.map_id _)⟩, fun hc hw hsorted hn => ?_⟩
  obtain ⟨t, ht, halike⟩ := ring_run hc (libinput_within hp hw) hs'
  obtain ⟨hsus, hd, -⟩ := hlike.machine.decision hn
  have hn' : t.machine.state ≠ .normal := by
    rw [← halike.stands.state, hlike.machine.state]
    exact hn
  have hle := lists_deadline (by rw [wide_times]; exact hsorted.map _ fun _ _ hle => hle) ht hn'
  rw [← halike.stands.suspectTime, ← halike.stands.mDecisionTime, hsus, hd] at hle
  exact hle

end

/-- space is pressed 100 ms before the end of 32 bits, and released in time -/
def lateSpace : List LibinputAct :=
  handing 57 true 100 7 ++ handing 57 false 10 11

theorem libinput_unbounded_late : ∃ s,
    runs (Sys.step (libinputPlugin setKey blank)) (Sys.create (Triqueue.create 3))
      (lateSpace.map LibinputAct.act) = some s ∧
    relayed s.trace = [⟨1, 57, true, .ofNat (2 ^ 32 - 100)⟩, ⟨1, 57, false, .ofNat (2 ^ 32 - 10)⟩] ∧
    ∃ s', runs (Sys.step ((libinputPlugin setKey blank).retimed Fin.val))
        (Sys.create (Triqueue.create 3)) ((lateSpace.map LibinputAct.act).map (Act.map id Fin.val))
          = some s' ∧
      s'.trace = s.trace.map (Obs.map id Fin.val) ∧ s'.pushed = s.pushed := by
  have hs := Option.eq_some_of_isSome (o := runs (Sys.step blankPlugin)
    (Sys.create (Triqueue.create 3)) (lateSpace.map LibinputAct.act)) (by decide)
  have hs' := (libinputPlugin_run _).trans hs
  exact ⟨_, hs', by decide, (libinput_unbounded narrowBeyond_blank hs').1⟩

/-! ## no event is held for long -/

section
variable {S : Setup LibinputEvent Time64} {q : Triqueue LibinputEvent}
  {acts : List LibinputAct} {s : Sys (Triqueue LibinputEvent) LibinputEvent Time64}

/-- a run is a run until its last call, that call, and the steps after it -/
theorem last_call (h : runs (Sys.step S) (Sys.create q) (acts.map LibinputAct.act) = some s) :
    (acts = [] ∧ s = Sys.create q) ∨
      ∃ pre a call n s₀, acts = pre ++ a :: List.replicate n .tick ∧ a.act = .call call ∧
        runs (Sys.step S) (Sys.create q) (pre.map LibinputAct.act) = some s₀ ∧
        runs (Sys.step S) s₀ (.call call :: List.replicate n (.tick false)) = some s := by
  induction acts using List.reverseRecOn generalizing s with
  | nil => exact .inl ⟨rfl, (Option.some.inj h).symm⟩
  | append_singleton acts a ih =>
    rw [List.map_append, List.map_singleton] at h
    obtain ⟨u, hu, ha⟩ := runs_snoc_some.mp h
    right
    by_cases hcall : ∃ call, a.act = .call call
    · obtain ⟨call, hact⟩ := hcall
      rw [hact] at ha
      exact ⟨acts, a, call, 0, u, rfl, hact, hu, by rw [List.replicate_zero, runs_cons, ha]; rfl⟩
    · obtain rfl : a = .tick := by
        cases a with
        | tick => rfl
        | _ => exact absurd ⟨_, rfl⟩ hcall
      rcases ih hu with ⟨-, rfl⟩ | ⟨pre, b, call, n, s₀, rfl, hact, hpre, hrun⟩
      · cases ha
      · refine ⟨pre, b, call, n + 1, s₀, ?_, hact, hpre, ?_⟩
        · rw [List.replicate_succ', List.append_assoc, List.cons_append]
        · rw [List.replicate_succ', ← List.cons_append]
          exact runs_snoc_some.mpr ⟨u, hrun, ha⟩

end

section
variable {rewrite : LibinputEvent → Keycode → LibinputEvent}
  {previous : ForkConfiguration Time64}

/-- `e` is held at most until another event comes 200 ms later, or the timer of the call `last` -/
def Overdue (pushed : List LibinputEvent) (last : Option (Call LibinputEvent Time64)) (i : ℕ)
    (e : LibinputEvent) : Prop :=
  (∃ now, last = some (.acceptTime now) ∧ e.time.toNat + 200 ≤ now.val) ∨
    ∃ j e', i < j ∧ pushed[j]? = some e' ∧ e.time.toNat + 200 ≤ e'.time.toNat

/-- a call that is not turned away -/
theorem libinput_call_in_time (hp : NarrowBeyond previous) {c : ℕ} (hc : 2 ≤ c)
    {acts : List (Act LibinputEvent Time64)} {call : Call LibinputEvent Time64} {n : ℕ}
    (hw : WithinCapacity (libinputPlugin rewrite previous) c
      (acts ++ .call call :: List.replicate n (.tick false)))
    {s s' : Sys (Triqueue LibinputEvent) LibinputEvent Time64}
    (h : runs (Sys.step (libinputPlugin rewrite previous)) (Sys.create (Triqueue.create c)) acts
      = some s)
    (hadm : Accepts (libinputPlugin rewrite previous) s.machine call)
    (hrun : runs (Sys.step (libinputPlugin rewrite previous)) s
      (.call call :: List.replicate n (.tick false)) = some s')
    (hidle : s'.control = .idle)
    (hkeys : ∀ e ∈ s'.pushed, e.key < initBound)
    (hsorted : (s'.pushed.map LibinputEvent.time).Pairwise (· ≤ ·)) :
    ∀ i e, s'.pushed[i]? = some e → Overdue s'.pushed (some call) i e →
      i < (relayed s'.trace).length := by
  have hmap : List.map (Act.map id Fin.val) (acts ++ .call call :: List.replicate n (.tick false))
      = acts.map (Act.map id Fin.val) ++
        .call (call.map id Fin.val) :: List.replicate n (.tick false) := by
    rw [List.map_append, List.map_cons, List.map_replicate]
    rfl
  have hw' := libinput_within hp hw
  obtain ⟨u, hu, hlike⟩ := libinput_like hp h
  obtain ⟨u', hu', hlike'⟩ := libinput_like hp (runs_append_some.mpr ⟨s, h, hrun⟩)
  rw [hmap] at hw' hu'
  obtain ⟨v, hv, hvrun⟩ := runs_append_some.mp hu'
  obtain rfl : v = u := Option.some.inj (hv.symm.trans hu)
  have hpushed : u'.pushed = s'.pushed := hlike'.pushed.trans (List.map_id _)
  have hrelayed : (relayed u'.trace).length = (relayed s'.trace).length := by
    rw [hlike'.trace, relayed_map, List.length_map]
  have hadm' : Accepts ((libinputPlugin rewrite previous).retimed Fin.val) v.machine
      (call.map id Fin.val) := by
    cases call with
    | acceptEvent e => exact hadm
    | acceptTime now =>
      show v.machine.mCurrentTime ≤ now.val
      rw [show v.machine.mCurrentTime = s.machine.mCurrentTime.val from hlike.machine.clock]
      exact hadm
    | acceptConfirmation => trivial
  have hheld := held_in_time (D := 200) hc hw' hv hadm' hvrun (by rw [hlike'.control, hidle]; rfl)
    (by
      rw [hpushed]
      exact (List.pairwise_map.mp hsorted).map _ fun _ _ hle => hle)
    (fun e he => by
      rw [hpushed] at he
      show (((forkInit previous).config).retimed Fin.val).verificationIntervalOf e.key noKey ≤ 200
      rw [wide_interval, forkInit_interval previous (hkeys e he)])
  rw [hpushed, hrelayed] at hheld
  intro i e hi hlate
  refine hheld i e hi ?_
  rcases hlate with ⟨now, hnow, hle⟩ | ⟨j, e', hj, he', hle⟩
  · obtain rfl := Option.some.inj hnow
    exact .inl ⟨now.val, rfl, by omega, hle⟩
  · exact .inr ⟨j, e', hj, he', hle⟩

/-- the only call that is turned away and returns is an event out of range; `mLock` is locked twice
where time goes backwards -/
theorem turned_away_call {s s' : Sys (Triqueue LibinputEvent) LibinputEvent Time64}
    {call : Call LibinputEvent Time64} {n : ℕ}
    (hrun : runs (Sys.step (libinputPlugin rewrite previous)) s
      (.call call :: List.replicate n (.tick false)) = some s')
    (hidle : s'.control = .idle)
    (hadm : ¬Accepts (libinputPlugin rewrite previous) s.machine call) :
    (∃ e, call = .acceptEvent e) ∧ s.control = .idle ∧ s'.pushed = s.pushed ∧
      relayed s'.trace = relayed s.trace := by
  obtain ⟨s₁, hcall, hticks⟩ := Option.bind_eq_some_iff.mp hrun
  obtain ⟨hs, rfl⟩ := Sys.step_call hcall
  cases call with
  | acceptEvent e =>
    have heff : enter (libinputPlugin rewrite previous) s.machine (.acceptEvent e)
        = { machine := { s.machine with mCurrentTime := 0 }, control := .idle,
            seen := [.returned 0] } := by
      rw [enter, acceptEvent, if_pos (not_le.mp hadm)]
    rw [heff] at hticks
    cases n with
    | zero =>
      cases hticks
      refine ⟨⟨e, rfl⟩, hs, List.append_nil _, ?_⟩
      rw [Sys.apply, relayed_append]
      exact List.append_nil _
    | succ n => cases hticks
  | acceptTime now =>
    have heff : enter (libinputPlugin rewrite previous) s.machine (.acceptTime now)
        = { machine := s.machine, control := .relock } := by
      rw [enter, acceptTime, if_pos (not_le.mp hadm)]
    rw [heff] at hticks
    cases n with
    | zero =>
      cases hticks
      cases hidle
    | succ n => cases hticks
  | acceptConfirmation => exact absurd trivial hadm

theorem calls_one (call : Call LibinputEvent Time64) (n : ℕ) :
    calls (.call call :: List.replicate n (.tick false)) = [call] := by
  have hticks : calls (List.replicate n (Act.tick false) : List (Act LibinputEvent Time64)) = [] :=
    List.filterMap_replicate_of_none rfl
  rw [show calls (.call call :: List.replicate n (.tick false))
    = call :: calls (List.replicate n (.tick false)) from rfl, hticks]

/-- **No event is held for long.**  Whatever libinput calls, with events in order of time and keys
of the tables: while no call is running, an event that another one followed 200 ms later was
relayed, and so was one that the last call found 200 ms late. -/
theorem libinput_in_time (hp : NarrowBeyond previous) {c : ℕ} (hc : 2 ≤ c) {acts : List LibinputAct}
    (hw : WithinCapacity (libinputPlugin rewrite previous) c (acts.map LibinputAct.act))
    {s : Sys (Triqueue LibinputEvent) LibinputEvent Time64}
    (h : runs (Sys.step (libinputPlugin rewrite previous)) (Sys.create (Triqueue.create c))
      (acts.map LibinputAct.act) = some s)
    (hidle : s.control = .idle)
    (hkeys : ∀ e ∈ s.pushed, e.key < initBound)
    (hsorted : (s.pushed.map LibinputEvent.time).Pairwise (· ≤ ·)) :
    ∀ i e, s.pushed[i]? = some e →
      Overdue s.pushed (calls (acts.map LibinputAct.act)).getLast? i e →
      i < (relayed s.trace).length := by
  induction hl : acts.length using Nat.strong_induction_on generalizing acts s with
  | _ l ih =>
    rcases last_call h with ⟨rfl, rfl⟩ | ⟨pre, a, call, n, s₀, rfl, hact, hpre, hrun⟩
    · intro i e hi
      cases hi
    have hmap : (pre ++ a :: List.replicate n .tick).map LibinputAct.act
        = pre.map LibinputAct.act ++ .call call :: List.replicate n (.tick false) := by
      rw [List.map_append, List.map_cons, List.map_replicate, hact]
      rfl
    rw [hmap] at hw ⊢
    rw [calls_append, calls_one, List.getLast?_concat]
    by_cases hadm : Accepts (libinputPlugin rewrite previous) s₀.machine call
    · exact libinput_call_in_time hp hc hw hpre hadm hrun hidle hkeys hsorted
    · -- nothing has changed since the call before
      obtain ⟨⟨x, rfl⟩, hidle₀, hpushed, hrelayed⟩ := turned_away_call hrun hidle hadm
      rw [hpushed] at hkeys hsorted ⊢
      rw [hrelayed]
      rintro i e hi (⟨now, hnow, -⟩ | hlater)
      · cases hnow
      · refine ih pre.length ?_ hw.left hpre hidle₀ hkeys hsorted rfl i e hi (.inr hlater)
        rw [← hl, List.length_append, List.length_cons]
        omega

end

/-- space is pressed, another key after 10 ms and a third one 200 ms after that -/
def threeKeys : List LibinputAct :=
  handing 57 true 1000 7 ++ handing 16 true 990 7 ++
    handing 17 true 790 14

theorem libinput_in_time_three : ∃ s,
    runs (Sys.step (libinputPlugin setKey blank)) (Sys.create (Triqueue.create 3))
      (threeKeys.map LibinputAct.act) = some s ∧
    s.pushed = [⟨1, 57, true, .ofNat (2 ^ 32 - 1000)⟩, ⟨1, 16, true, .ofNat (2 ^ 32 - 990)⟩,
      ⟨1, 17, true, .ofNat (2 ^ 32 - 790)⟩] ∧
    1 < (relayed s.trace).length := by
  have hs := Option.eq_some_of_isSome (o := runs (Sys.step blankPlugin)
    (Sys.create (Triqueue.create 3)) (threeKeys.map LibinputAct.act)) (by decide)
  have hs' := (libinputPlugin_run _).trans hs
  have hw : WithinCapacity (libinputPlugin setKey blank) 3 (threeKeys.map LibinputAct.act) := by
    rw [libinputPlugin_blank]
    decide
  exact ⟨_, hs', by decide, libinput_in_time narrowBeyond_blank (by decide) hw hs' (by decide)
    (by decide) (by decide) 1 ⟨1, 16, true, .ofNat (2 ^ 32 - 990)⟩ (by decide)
    (.inr ⟨2, ⟨1, 17, true, .ofNat (2 ^ 32 - 790)⟩, by decide, by decide, by decide⟩)⟩

end ForkNS
