import ForkPlugin.Machine.Configure

/-!
# Configuration requests of the two ports

A request comes as five integers: what is to be done is packed in the first, the others are narrowed
to the types of the port.

* `subtypeNArgs`, `typeSubtype`   the number of arguments and the subtype of a request;
* `ForkConfigurationType.ofInt`   the enumeration behind an integer;
* `Request`, `Request.reply`      the call of the machine that a request becomes;
* `Request.subscripts`            the subscripts of the tables it uses;
* `machineConfigureGet`, `machineConfigure`   of the X plugin, whose `KeyCode` has 8 bits;
* `winMachineConfigure`           of the driver, whose keycodes have 16;
* `Requests.Safe`                 no assertion fails, and the subscripts are in range.
-/

namespace ForkNS

/-! ## decoding -/

/-- `t & 3` -/
def subtypeNArgs (t : Int) : Int := t % 4

/-- `t >> 2` -/
def typeSubtype (t : Int) : Int := t / 4

def ForkConfigurationType.ofInt (t : Int) : ForkConfigurationType :=
  if t = 0 then .lastEvents
  else if t = 1 then .overlapLimit
  else if t = 2 then .totalLimit
  else if t = 3 then .repeatLimit
  else if t = 4 then .repeatConsiderForks
  else if t = 5 then .keyFork
  else if t = 6 then .keyForkRepeat
  else if t = 7 then .debug
  else if t = 8 then .switch
  else if t = 9 then .clone
  else if t = 10 then .clearInterval
  else if t = 11 then .serverDumpKeys
  else if t = 12 then .clientDumpKeys
  else .other t

/-- conversion to `KeyCode`, an `unsigned char` -/
def keyCodeOfInt (value : Int) : Keycode := (value % 256).toNat

/-- conversion to `USHORT` -/
def ushortOfInt (value : Int) : Nat := (value % 65536).toNat

theorem keyCodeOfInt_lt (value : Int) : keyCodeOfInt value < 256 := by
  have hpos := Int.emod_nonneg value (show (256 : Int) ≠ 0 by decide)
  have hlt := Int.emod_lt_of_pos value (show (0 : Int) < 256 by decide)
  exact (Int.toNat_lt hpos).mpr hlt

/-! ## calls of the machine -/

inductive Request where
  | configureGlobal (type : ForkConfigurationType) (value : Int) (set : Bool)
  | configureKey (type : ForkConfigurationType) (key : Keycode) (value : Int) (set : Bool)
  | configureTwins (type : ForkConfigurationType) (key twin : Keycode) (value : Int) (set : Bool)
deriving DecidableEq, Repr

variable {Time : Type}

namespace Request

def reply (port : Port Time) (s : Settings Time) : Request → Reply Time
  | .configureGlobal type value set => s.configureGlobal port type value set
  | .configureKey type key value set => s.configureKey port type key value set
  | .configureTwins type key twin value set => s.configureTwins port type key twin value set

/-- the subscripts it uses; those of a matrix come in pairs -/
def subscripts (s : Settings Time) : Request → List (ConfigTable × Keycode)
  | .configureGlobal type _ _ =>
    match type, s.config.matrices with
    | .overlapLimit, some _ => [(.overlapTolerance, 0), (.overlapTolerance, 0)]
    | .totalLimit, some _ => [(.verificationInterval, 0), (.verificationInterval, 0)]
    | _, _ => []
  | .configureKey type key _ _ =>
    match type with
    | .keyFork => [(.forkKeycode, key)]
    | .keyForkRepeat => [(.forkRepeatable, key)]
    | _ => []
  | .configureTwins type key twin _ _ =>
    match type, s.config.matrices with
    | .totalLimit, some _ => [(.verificationInterval, key), (.verificationInterval, twin)]
    | .overlapLimit, some _ => [(.overlapTolerance, key), (.overlapTolerance, twin)]
    | _, _ => []

end Request

/-! ## the entry points -/

/-- `int values[5]` -/
def valuesOf (values : List Int) : Nat → Int := fun i => values.getD i 0

/-- the request that is made, if any; its answer is stored in `return_config[0]`.  Of `values` there
are five. -/
def machineConfigureGet (values : Nat → Int) : Option Request :=
  let type := values 0
  let subtype := ForkConfigurationType.ofInt (typeSubtype type)
  if subtypeNArgs type = 0 then some (.configureGlobal subtype 0 false)
  else if subtypeNArgs type = 1 then
    some (.configureKey subtype (keyCodeOfInt (values 1)) 0 false)
  else if subtypeNArgs type = 2 then
    some (.configureTwins subtype (keyCodeOfInt (values 1)) (keyCodeOfInt (values 2)) 0 false)
  else none

def machineConfigure (values : Nat → Int) : Option Request :=
  let type := values 0
  let subtype := ForkConfigurationType.ofInt (typeSubtype type)
  if subtypeNArgs type = 0 then some (.configureGlobal subtype (values 1) true)
  else if subtypeNArgs type = 1 then
    some (.configureKey subtype (keyCodeOfInt (values 1)) (values 2) true)
  else if subtypeNArgs type = 2 then
    some (.configureTwins subtype (keyCodeOfInt (values 1)) (keyCodeOfInt (values 2)) (values 3)
      true)
  else none

def winMachineConfigure (values : Nat → Int) : Option Request :=
  let type := values 0
  let subtype := ForkConfigurationType.ofInt (typeSubtype type)
  if subtypeNArgs type = 0 then
    some (.configureGlobal subtype (ushortOfInt (values 1)) true)
  else if subtypeNArgs type = 1 then
    some (.configureKey subtype (ushortOfInt (values 1)) (ushortOfInt (values 2)) true)
  else if subtypeNArgs type = 2 then
    some (.configureTwins subtype (ushortOfInt (values 1)) (ushortOfInt (values 2))
      (ushortOfInt (values 3)) true)
  else none

/-- a request of none, one or two arguments -/
theorem forall_request {n : Int} {globalRequest keyRequest twinsRequest : Request}
    {P : Request → Prop} :
    (∀ r ∈ (if n = 0 then some globalRequest else if n = 1 then some keyRequest
      else if n = 2 then some twinsRequest else none).toList, P r) ↔
      (n = 0 → P globalRequest) ∧ (n = 1 → P keyRequest) ∧ (n = 2 → P twinsRequest) := by
  by_cases h0 : n = 0
  · simp [h0]
  · by_cases h1 : n = 1
    · simp [h1]
    · by_cases h2 : n = 2 <;> simp [h0, h1, h2]

/-! ## what one request can break -/

/-- `assert(set)` -/
theorem Request.reply_asserted (port : Port Time) (s : Settings Time) (r : Request) :
    (r.reply port s).asserted = true ↔ ∀ value, r ≠ .configureGlobal .switch value false := by
  cases r with
  | configureGlobal type value set =>
    cases type <;> cases set <;> cases hm : s.config.matrices <;>
      simp [reply, Settings.configureGlobal, hm]
  | configureKey type key value set =>
    cases type <;> cases set <;> simp [reply, Settings.configureKey]
  | configureTwins type key twin value set =>
    cases type <;> cases set <;> cases hm : s.config.matrices <;>
      simp [reply, Settings.configureTwins, hm]

namespace Request

/-- a request that reads or writes an entry of a key -/
def OfKey (type : ForkConfigurationType) : Prop := type = .keyFork ∨ type = .keyForkRepeat

/-- of a pair of keys -/
def OfTwins (type : ForkConfigurationType) : Prop := type = .totalLimit ∨ type = .overlapLimit

instance : DecidablePred OfKey := fun _ => inferInstanceAs (Decidable (_ ∨ _))
instance : DecidablePred OfTwins := fun _ => inferInstanceAs (Decidable (_ ∨ _))

/-- the keys that the request names are keys of the tables -/
def InTables (maxKeycode : Nat) (s : Settings Time) : Request → Prop
  | .configureGlobal _ _ _ => True
  | .configureKey type key _ _ => OfKey type → key < maxKeycode
  | .configureTwins type key twin _ _ =>
    OfTwins type → s.config.matrices.isSome → key < maxKeycode ∧ twin < maxKeycode

theorem subscripts_lt {maxKeycode : Nat} (hmax : 0 < maxKeycode) (s : Settings Time)
    (r : Request) : (∀ x ∈ r.subscripts s, x.2 < maxKeycode) ↔ r.InTables maxKeycode s := by
  cases r with
  | configureGlobal type value set =>
    cases type <;> cases hm : s.config.matrices <;> simp [subscripts, InTables, hm, hmax]
  | configureKey type key value set =>
    cases type <;> simp [subscripts, InTables, OfKey]
  | configureTwins type key twin value set =>
    cases type <;> cases hm : s.config.matrices <;> simp [subscripts, InTables, OfTwins, hm]

/-- its assertion holds, and it stays in the tables -/
def Harmless (maxKeycode : Nat) (s : Settings Time) (r : Request) : Prop :=
  (∀ value, r ≠ .configureGlobal .switch value false) ∧ r.InTables maxKeycode s

section
variable {maxKeycode : Nat} {s : Settings Time} {type : ForkConfigurationType} {value : Int}
  {set : Bool}

@[simp] theorem harmless_global : (configureGlobal type value set).Harmless maxKeycode s ↔
    (type = .switch → set = true) := by
  simp [Harmless, InTables]

@[simp] theorem harmless_key {key : Keycode} :
    (configureKey type key value set).Harmless maxKeycode s ↔ (OfKey type → key < maxKeycode) := by
  simp [Harmless, InTables]

@[simp] theorem harmless_twins {key twin : Keycode} :
    (configureTwins type key twin value set).Harmless maxKeycode s ↔
      (OfTwins type → s.config.matrices.isSome → key < maxKeycode ∧ twin < maxKeycode) := by
  simp [Harmless, InTables]

end

end Request

/-- the build decides whether there are matrices -/
theorem Request.reply_matrices (port : Port Time) (s : Settings Time) (r : Request) :
    (r.reply port s).settings.config.matrices.isSome = s.config.matrices.isSome := by
  cases r with
  | configureGlobal type value set =>
    cases type <;> cases set <;> cases hm : s.config.matrices <;>
      simp [reply, Settings.configureGlobal, hm]
  | configureKey type key value set =>
    cases type <;> cases set <;> simp [reply, Settings.configureKey]
  | configureTwins type key twin value set =>
    cases type <;> cases set <;> cases hm : s.config.matrices <;>
      simp [reply, Settings.configureTwins, hm]

/-! ## requests in a row -/

namespace Requests

/-- the settings after the requests -/
def run (port : Port Time) (s : Settings Time) : List Request → Settings Time
  | [] => s
  | r :: rest => run port (r.reply port s).settings rest

/-- no assertion fails, and every subscript is below `maxKeycode` -/
def Safe (port : Port Time) (maxKeycode : Nat) (s : Settings Time) : List Request → Prop
  | [] => True
  | r :: rest =>
    (r.reply port s).asserted = true ∧ (∀ x ∈ r.subscripts s, x.2 < maxKeycode) ∧
      Safe port maxKeycode (r.reply port s).settings rest

theorem run_append (port : Port Time) (s : Settings Time) (rs rs' : List Request) :
    run port s (rs ++ rs') = run port (run port s rs) rs' := by
  induction rs generalizing s with
  | nil => rfl
  | cons r rs ih => exact ih (r.reply port s).settings

theorem inTables_congr {maxKeycode : Nat} {s s' : Settings Time}
    (h : s'.config.matrices.isSome = s.config.matrices.isSome) (r : Request) :
    r.InTables maxKeycode s' ↔ r.InTables maxKeycode s := by
  cases r with
  | configureGlobal | configureKey => exact Iff.rfl
  | configureTwins type key twin value set => simp only [Request.InTables, h]

/-- each request for itself -/
theorem safe_iff (port : Port Time) {maxKeycode : Nat} (hmax : 0 < maxKeycode)
    (s : Settings Time) (rs : List Request) : Safe port maxKeycode s rs ↔
      ∀ r ∈ rs, r.Harmless maxKeycode s := by
  induction rs generalizing s with
  | nil => simp [Safe]
  | cons r rs ih =>
    have hcongr : ∀ r' : Request, r'.InTables maxKeycode (r.reply port s).settings ↔
        r'.InTables maxKeycode s := inTables_congr (r.reply_matrices port s)
    rw [Safe, r.reply_asserted, r.subscripts_lt hmax, ih, List.forall_mem_cons]
    simp only [Request.Harmless, hcongr, and_assoc]

end Requests

end ForkNS
