import ForkPlugin.Lib.Stores
import ForkPlugin.Ports.Request

/-!
# The configuration of the X plugin as a store

`machine_configure` writes a parameter, `machine_configure_get` answers one.  Both decode the same
five integers.

* `xorgPort`            `KeyCode` has 8 bits, `Time` is a `CARD32`;
* `Parameter`           what can be asked for; a global limit is that of the pair (0,0);
* `Request.parameter`   the parameter that a request names;
* `Settings.read`       the parameters as a store;
* `Parameter.stored`    what a cell makes of a value: the last events are never fewer;
* `reply_read`          a request to set is one write to the store;
* `get_after_set`       what is answered after requests to set;
* `last_events_kept`    fewer last events are not set.
-/

namespace ForkNS

/-- conversion to `Time`, a `CARD32` -/
def card32OfInt (value : Int) : UInt32 := UInt32.ofNat (value % 4294967296).toNat

def intOfCard32 (value : UInt32) : Int :=
  if value < 2147483648 then value.toNat else (value.toNat : Int) - 4294967296

def xorgPort : Port UInt32 := ⟨keyCodeOfInt, card32OfInt, intOfCard32⟩

/-! ## parameters -/

inductive Parameter where
  | lastEvents
  | repeatLimit
  | repeatConsiderForks
  | debug
  | clearInterval
  | keyFork (key : Keycode)
  | keyForkRepeat (key : Keycode)
  | totalLimit (key twin : Keycode)
  | overlapLimit (key twin : Keycode)
deriving DecidableEq, Repr

namespace Request

/-- the parameter that a request sets or gets, if there is one -/
def parameter : Request → Option Parameter
  | .configureGlobal type _ _ =>
    match type with
    | .overlapLimit => some (.overlapLimit 0 0)
    | .totalLimit => some (.totalLimit 0 0)
    | .clearInterval => some .clearInterval
    | .repeatLimit => some .repeatLimit
    | .repeatConsiderForks => some .repeatConsiderForks
    | .lastEvents => some .lastEvents
    | .debug => some .debug
    | _ => none
  | .configureKey type key _ _ =>
    match type with
    | .keyFork => some (.keyFork key)
    | .keyForkRepeat => some (.keyForkRepeat key)
    | _ => none
  | .configureTwins type key twin _ _ =>
    match type with
    | .totalLimit => some (.totalLimit key twin)
    | .overlapLimit => some (.overlapLimit key twin)
    | _ => none

def value : Request → Int
  | .configureGlobal _ value _ | .configureKey _ _ value _ | .configureTwins _ _ _ value _ => value

def sets : Request → Bool
  | .configureGlobal _ _ set | .configureKey _ _ _ set | .configureTwins _ _ _ _ set => set

end Request

section
variable {Time : Type} (port : Port Time)

/-- what is answered for a parameter -/
def Settings.read (s : Settings Time) : Parameter → Int
  | .lastEvents => s.maxLast
  | .repeatLimit => port.intOfTime s.config.repeatMax
  | .repeatConsiderForks => intOfBool s.config.considerForksForRepeat
  | .debug => s.debug
  | .clearInterval => s.clearInterval
  | .keyFork key => s.config.forkKeycode key
  | .keyForkRepeat key => intOfBool (s.config.forkRepeatable key)
  | .totalLimit key twin =>
    s.config.matrices.elim 0 fun m => port.intOfTime (m.verificationInterval key twin)
  | .overlapLimit key twin =>
    s.config.matrices.elim 0 fun m => port.intOfTime (m.overlapTolerance key twin)

/-- what is answered for it after `value` was set, when it was `old` before -/
def Parameter.stored (p : Parameter) (old value : Int) : Int :=
  match p with
  | .lastEvents => max old value
  | .debug | .clearInterval => value
  | .repeatConsiderForks | .keyForkRepeat _ => Settings.intOfBool (value != 0)
  | .keyFork _ => port.keycodeOfInt value
  | .repeatLimit | .totalLimit _ _ | .overlapLimit _ _ => port.intOfTime (port.timeOfInt value)

/-- the writes that a request to set makes -/
def Request.writes (r : Request) : List (Parameter × Int) :=
  r.parameter.toList.map (·, r.value)

/-! ## one request -/

namespace Settings
variable {s : Settings Time}

theorem read_withOverlapTolerance {m : ParameterMatrices Time} (hm : s.config.matrices = some m)
    (key twin : Keycode) (value : Time) :
    (s.withOverlapTolerance m key twin value).read port
      = Function.update (s.read port) (.overlapLimit key twin) (port.intOfTime value) := by
  funext p
  cases p with
  | overlapLimit i j =>
    simp only [read, withOverlapTolerance_config, Option.elim_some, ParameterMatrix.set_apply,
      Function.update_apply, Parameter.overlapLimit.injEq, hm]
    split_ifs <;> rfl
  | totalLimit i j => simp [read, hm]
  | _ => rfl

theorem read_withVerificationInterval {m : ParameterMatrices Time}
    (hm : s.config.matrices = some m) (key twin : Keycode) (value : Time) :
    (s.withVerificationInterval m key twin value).read port
      = Function.update (s.read port) (.totalLimit key twin) (port.intOfTime value) := by
  funext p
  cases p with
  | totalLimit i j =>
    simp only [read, withVerificationInterval_config, Option.elim_some, ParameterMatrix.set_apply,
      Function.update_apply, Parameter.totalLimit.injEq, hm]
    split_ifs <;> rfl
  | overlapLimit i j => simp [read, hm]
  | _ => rfl

theorem read_setLastEventsCount (newMax : Int) : (s.setLastEventsCount newMax).read port
    = Function.update (s.read port) .lastEvents (max s.maxLast newMax) := by
  unfold setLastEventsCount
  split_ifs with h
  · rw [max_eq_left h.le]
    exact (Function.update_eq_self Parameter.lastEvents _).symm
  · rw [max_eq_right (not_lt.mp h)]
    funext p
    cases p <;> rfl

theorem read_forkKeycode (key code : Keycode) :
    (s.withConfig { s.config with
        forkKeycode := Function.update s.config.forkKeycode key code }).read port
      = Function.update (s.read port) (.keyFork key) code := by
  funext p
  cases p with
  | keyFork k =>
    simp only [read, withConfig_config, Function.update_apply, Parameter.keyFork.injEq]
    split_ifs <;> rfl
  | _ => rfl

theorem read_forkRepeatable (key : Keycode) (b : Bool) :
    (s.withConfig { s.config with
        forkRepeatable := Function.update s.config.forkRepeatable key b }).read port
      = Function.update (s.read port) (.keyForkRepeat key) (intOfBool b) := by
  funext p
  cases p with
  | keyForkRepeat k =>
    simp only [read, withConfig_config, Function.update_apply, Parameter.keyForkRepeat.injEq]
    split_ifs <;> rfl
  | _ => rfl

end Settings

namespace Request
variable {s : Settings Time}

/-- it is answered what the store has -/
theorem reply_value {r : Request} (hget : r.sets = false) {p : Parameter}
    (hp : r.parameter = some p) : (r.reply port s).value = s.read port p := by
  cases r with
  | configureGlobal type value set =>
    obtain rfl : set = false := hget
    cases type <;> cases hp <;> cases hm : s.config.matrices <;>
      simp [reply, Settings.configureGlobal, Settings.read, hm]
  | configureKey type key value set =>
    obtain rfl : set = false := hget
    cases type <;> cases hp <;> rfl
  | configureTwins type key twin value set =>
    obtain rfl : set = false := hget
    cases type <;> cases hp <;> cases hm : s.config.matrices <;>
      simp [reply, Settings.configureTwins, Settings.read, hm]

/-- a request to set is one write to the store -/
theorem reply_read (hm : s.config.matrices.isSome = true) {r : Request} (hset : r.sets = true) :
    (r.reply port s).settings.read port
      = Stores.writeAll (Parameter.stored port) (s.read port) r.writes := by
  obtain ⟨m, hm⟩ := Option.isSome_iff_exists.mp hm
  cases r with
  | configureGlobal type value set =>
    obtain rfl : set = true := hset
    cases type with
    | overlapLimit =>
      simp only [reply, Settings.configureGlobal, hm, if_true,
        Settings.read_withOverlapTolerance port hm]
      rfl
    | totalLimit =>
      simp only [reply, Settings.configureGlobal, hm, if_true,
        Settings.read_withVerificationInterval port hm]
      rfl
    | lastEvents =>
      simp only [reply, Settings.configureGlobal, if_true, Settings.read_setLastEventsCount]
      rfl
    | repeatLimit | repeatConsiderForks | debug | clearInterval =>
      funext p
      cases p <;> rfl
    | _ => rfl
  | configureKey type key value set =>
    obtain rfl : set = true := hset
    cases type with
    | keyFork => exact Settings.read_forkKeycode port key _
    | keyForkRepeat => exact Settings.read_forkRepeatable port key _
    | _ => rfl
  | configureTwins type key twin value set =>
    obtain rfl : set = true := hset
    cases type with
    | overlapLimit =>
      simp only [reply, Settings.configureTwins, hm, if_true,
        Settings.read_withOverlapTolerance port hm]
      rfl
    | totalLimit =>
      simp only [reply, Settings.configureTwins, hm, if_true,
        Settings.read_withVerificationInterval port hm]
      rfl
    | _ => rfl

end Request

end

/-! ## requests in a row -/

/-- `machine_configure` -/
def configured (s : Settings UInt32) (values : Nat → Int) : Settings UInt32 :=
  Requests.run xorgPort s (machineConfigure values).toList

/-- `return_config[0]` of `machine_configure_get`, where it is written -/
def answered (s : Settings UInt32) (values : Nat → Int) : Option Int :=
  (machineConfigureGet values).map fun r => (r.reply xorgPort s).value

/-- the parameter that is set, and its value -/
def written (values : Nat → Int) : List (Parameter × Int) :=
  (machineConfigure values).toList.flatMap Request.writes

/-- the parameter that is asked for -/
def asked (values : Nat → Int) : Option Parameter :=
  (machineConfigureGet values).bind Request.parameter

/-- the values that a sequence of requests sets a parameter to, in order -/
def valuesSet (p : Parameter) (requests : List (Nat → Int)) : List Int :=
  Stores.writesTo p (requests.flatMap written)

/-- the values that the type of a parameter has, of those that are an `int` -/
def Parameter.Represents : Parameter → Int → Prop
  | .lastEvents, _ | .debug, _ | .clearInterval, _ => True
  | .repeatConsiderForks, value | .keyForkRepeat _, value => value = 0 ∨ value = 1
  | .keyFork _, value => 0 ≤ value ∧ value < 256
  | .repeatLimit, value | .totalLimit _ _, value | .overlapLimit _ _, value =>
    0 ≤ value ∧ value < 2147483648

instance : (p : Parameter) → (value : Int) → Decidable (p.Represents value)
  | .lastEvents, _ | .debug, _ | .clearInterval, _ => isTrue trivial
  | .repeatConsiderForks, _ | .keyForkRepeat _, _ => inferInstanceAs (Decidable (_ ∨ _))
  | .keyFork _, _ | .repeatLimit, _ | .totalLimit _ _, _ | .overlapLimit _ _, _ =>
    inferInstanceAs (Decidable (_ ∧ _))

theorem intOfCard32_card32OfInt {value : Int} (h0 : 0 ≤ value) (h1 : value < 2147483648) :
    intOfCard32 (card32OfInt value) = value := by
  have hmod : value % 4294967296 = value := Int.emod_eq_of_lt h0 (by omega)
  have hnat : (card32OfInt value).toNat = value.toNat := by
    rw [card32OfInt, hmod, UInt32.toNat_ofNat_of_lt']
    show value.toNat < 4294967296
    omega
  have hlt : card32OfInt value < 2147483648 := by
    rw [UInt32.lt_iff_toNat_lt, hnat]
    show value.toNat < 2147483648
    omega
  rw [intOfCard32, if_pos hlt, hnat]
  exact Int.toNat_of_nonneg h0

/-- a value that the type has is stored as it is; the last events are never fewer -/
theorem Parameter.stored_eq {p : Parameter} {value : Int} (h : p.Represents value) (old : Int) :
    p.stored xorgPort old value = if p = .lastEvents then max old value else value := by
  cases p with
  | keyFork key =>
    have hmod : value % 256 = value := Int.emod_eq_of_lt h.1 h.2
    show ((value % 256).toNat : Int) = value
    rw [hmod]
    exact Int.toNat_of_nonneg h.1
  | repeatConsiderForks | keyForkRepeat key =>
    rcases h with rfl | rfl <;> rfl
  | repeatLimit | totalLimit i j | overlapLimit i j =>
    exact intOfCard32_card32OfInt h.1 h.2
  | _ => rfl

theorem machineConfigure_sets (values : Nat → Int) :
    ∀ r ∈ (machineConfigure values).toList, r.sets = true := by
  rw [machineConfigure, forall_request]
  exact ⟨fun _ => rfl, fun _ => rfl, fun _ => rfl⟩

theorem machineConfigureGet_gets (values : Nat → Int) :
    ∀ r ∈ (machineConfigureGet values).toList, r.sets = false := by
  rw [machineConfigureGet, forall_request]
  exact ⟨fun _ => rfl, fun _ => rfl, fun _ => rfl⟩

section
variable {s : Settings UInt32}

theorem configured_matrices (values : Nat → Int) (hm : s.config.matrices.isSome = true) :
    (configured s values).config.matrices.isSome = true := by
  unfold configured
  cases machineConfigure values with
  | none => exact hm
  | some r => exact (r.reply_matrices xorgPort s).trans hm

/-- one request writes to the store what it sets -/
theorem configured_read (values : Nat → Int) (hm : s.config.matrices.isSome = true) :
    (configured s values).read xorgPort
      = Stores.writeAll (Parameter.stored xorgPort) (s.read xorgPort) (written values) := by
  have hset := machineConfigure_sets values
  unfold configured written
  cases hr : machineConfigure values with
  | none => rfl
  | some r =>
    have hr' : r ∈ (machineConfigure values).toList := by simp [hr]
    have hread := r.reply_read xorgPort hm (hset r hr')
    rw [Option.toList_some, List.flatMap_singleton]
    exact hread

/-- what is asked for is answered as the store has it -/
theorem answered_eq {query : Nat → Int} {p : Parameter} (hp : asked query = some p) :
    answered s query = some (s.read xorgPort p) := by
  obtain ⟨r, hr, hp⟩ := Option.bind_eq_some_iff.mp hp
  have hget := machineConfigureGet_gets query r (by simp [hr])
  rw [answered, hr, Option.map_some, r.reply_value xorgPort hget hp]

/-- the store after a sequence of requests -/
theorem read_configured (hm : s.config.matrices.isSome = true) (requests : List (Nat → Int))
    (p : Parameter) : (requests.foldl configured s).read xorgPort p
      = (valuesSet p requests).foldl (p.stored xorgPort) (s.read xorgPort p) := by
  have hrun := Stores.read_run (I := fun s : Settings UInt32 => s.config.matrices.isSome = true)
    (fun _ values => configured_matrices values) (fun _ values => configured_read values) hm
    requests
  rw [hrun, Stores.writeAll_apply]
  rfl

/-- **Get after set.**  A parameter has the value that was set last, or the one it had before; the
number of the last events is the largest of these. -/
theorem get_after_set (hm : s.config.matrices.isSome = true) {requests : List (Nat → Int)}
    (hvalues : ∀ w ∈ requests.flatMap written, w.1.Represents w.2) {query : Nat → Int}
    {p : Parameter} (hp : asked query = some p) : ∃ before, answered s query = some before ∧
      answered (requests.foldl configured s) query = some (
        if p = .lastEvents then (valuesSet p requests).foldl max before
        else (valuesSet p requests).getLastD before) := by
  refine ⟨_, answered_eq hp, ?_⟩
  rw [answered_eq hp, read_configured hm]
  congr 1
  have hstored : ∀ old, ∀ value ∈ valuesSet p requests, p.stored xorgPort old value
      = if p = .lastEvents then max old value else value := fun old value hmem =>
    Parameter.stored_eq (hvalues _ (Stores.mem_writesTo.mp hmem)) old
  by_cases hlast : p = .lastEvents
  · rw [if_pos hlast]
    refine List.foldl_ext _ _ _ fun old value hmem => ?_
    rw [hstored old value hmem, if_pos hlast]
  · rw [if_neg hlast, ← Stores.foldl_replace]
    refine List.foldl_ext _ _ _ fun old value hmem => ?_
    rw [hstored old value hmem, if_neg hlast]

end

/-- a machine with a new configuration -/
def freshSettings : Settings UInt32 :=
  let zero : ParameterMatrix UInt32 := fun _ _ => 0
  ⟨⟨fun _ => 0, fun _ => false, some ⟨zero.set 0 0 100, zero.set 0 0 200⟩, 80, true⟩, 0, 1, 10⟩

/-- the total limit of all keys, of no pair, and of the keys 38 and 39 -/
def limits : List (Nat → Int) :=
  [valuesOf [2 * 4, 150], valuesOf [2 * 4 + 2, 0, 0, 250], valuesOf [2 * 4 + 2, 38, 39, 90]]

theorem get_after_set_limits : valuesSet (.totalLimit 0 0) limits = [150, 250] ∧
    ∃ before, answered freshSettings (valuesOf [2 * 4]) = some before ∧
      answered (limits.foldl configured freshSettings) (valuesOf [2 * 4]) = some (
        if Parameter.totalLimit 0 0 = .lastEvents then
          (valuesSet (.totalLimit 0 0) limits).foldl max before
        else (valuesSet (.totalLimit 0 0) limits).getLastD before) :=
  ⟨by decide, get_after_set rfl (by decide) rfl⟩

/-- Of 10 last events 5 are to be kept; 10 are answered. -/
theorem last_events_kept :
    let requests := [valuesOf [0 * 4, 5]]
    asked (valuesOf [0 * 4]) = some .lastEvents ∧ valuesSet .lastEvents requests = [5] ∧
      (∀ w ∈ requests.flatMap written, w.1.Represents w.2) ∧
      answered (requests.foldl configured freshSettings) (valuesOf [0 * 4]) = some 10 := by
  decide

end ForkNS
