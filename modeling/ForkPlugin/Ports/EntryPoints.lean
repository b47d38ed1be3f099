import ForkPlugin.Ports.Registry

/-!
# What a request can break

Four functions configure the machine on behalf of a client or of the registry.  Only the registry
checks the key, and against the wrong bound; the plugin's keys are narrowed to the tables' size.

* `EntryPoint`        one of them, with what it is given;
* `EntryPoint.Fits`   the requests that are harmless;
* `requests_safe`     they are: the assertion holds, and the subscripts are in range;
* `requests_break`    three that are not.
-/

namespace ForkNS

inductive EntryPoint (K : Type) where
  | machineConfigureGet (values : Nat → Int)
  | machineConfigure (values : Nat → Int)
  | winMachineConfigure (values : Nat → Int)
  | configureFromRegistryKey (hKey : K)

variable {K Time : Type} (reg : Registry K)

namespace EntryPoint

/-- the requests it makes, with the matrices of the build or without -/
def requests (matrix : Bool) : EntryPoint K → List Request
  | .machineConfigureGet values => (ForkNS.machineConfigureGet values).toList
  | .machineConfigure values => (ForkNS.machineConfigure values).toList
  | .winMachineConfigure values => (ForkNS.winMachineConfigure values).toList
  | .configureFromRegistryKey hKey => ForkNS.configureFromRegistryKey reg hKey matrix

/-- `MAX_KEYCODE` of the port -/
def maxKeycode : EntryPoint K → Nat
  | .machineConfigureGet _ | .machineConfigure _ => 256
  | .winMachineConfigure _ | .configureFromRegistryKey _ => winMaxKeycode

/-- the configuration to switch to is not asked for, the driver is asked for keys that it has, and
the key 512 is not stored -/
def Fits (matrix : Bool) : EntryPoint K → Prop
  | .machineConfigureGet values => ¬(subtypeNArgs (values 0) = 0 ∧ typeSubtype (values 0) = 8)
  | .machineConfigure _ => True
  | .winMachineConfigure values =>
    let subtype := ForkConfigurationType.ofInt (typeSubtype (values 0))
    (subtypeNArgs (values 0) = 1 → Request.OfKey subtype →
      ushortOfInt (values 1) < winMaxKeycode) ∧
    (subtypeNArgs (values 0) = 2 → Request.OfTwins subtype → matrix →
      ushortOfInt (values 1) < winMaxKeycode ∧ ushortOfInt (values 2) < winMaxKeycode)
  | .configureFromRegistryKey hKey =>
    ∀ binaryValues ∈ reg.queryBinary hKey "binary-forks", ∀ val ∈ binaryValues,
      ushortOfInt (val >>> 16 : Nat) ≠ winMaxKeycode

end EntryPoint

/-! ## each of them -/

theorem of_ite_eq {α : Type} {p : Prop} [Decidable p] {x y c : α} (hx : x ≠ c)
    (h : (if p then x else y) = c) : y = c := by
  by_cases hp : p
  · rw [if_pos hp] at h
    exact absurd h hx
  · rwa [if_neg hp] at h

/-- only the subtype 8 is a switch -/
theorem ofInt_switch {t : Int} : ForkConfigurationType.ofInt t = .switch ↔ t = 8 := by
  constructor
  · intro h
    by_contra hne
    unfold ForkConfigurationType.ofInt at h
    rw [if_neg hne] at h
    iterate 12 replace h := of_ite_eq (by decide) h
    cases h
  · rintro rfl
    rfl

theorem machineConfigureGet_safe (s : Settings Time) (values : Nat → Int) :
    (∀ r ∈ (machineConfigureGet values).toList, r.Harmless 256 s) ↔
      ¬(subtypeNArgs (values 0) = 0 ∧ typeSubtype (values 0) = 8) := by
  rw [machineConfigureGet, forall_request]
  simp [ofInt_switch, keyCodeOfInt_lt]

/-- the keys are narrowed to the tables -/
theorem machineConfigure_safe (s : Settings Time) (values : Nat → Int) :
    ∀ r ∈ (machineConfigure values).toList, r.Harmless 256 s := by
  rw [machineConfigure, forall_request]
  simp [keyCodeOfInt_lt]

theorem winMachineConfigure_safe (s : Settings Time) (values : Nat → Int) :
    (∀ r ∈ (winMachineConfigure values).toList, r.Harmless winMaxKeycode s) ↔
      (EntryPoint.winMachineConfigure values).Fits reg s.config.matrices.isSome := by
  rw [winMachineConfigure, forall_request]
  simp [EntryPoint.Fits]

theorem restoreFork_safe (s : Settings Time) (val : Nat) :
    (∀ r, restoreFork val = some r → r.Harmless winMaxKeycode s) ↔
      ushortOfInt (val >>> 16 : Nat) ≠ winMaxKeycode := by
  unfold restoreFork
  by_cases hmax : ushortOfInt (val >>> 16 : Nat) > winMaxKeycode
  · simp only [if_pos hmax]
    refine iff_of_true (fun r hr => ?_) (Nat.ne_of_gt hmax)
    cases hr
  · simp only [if_neg hmax, Option.some.injEq, forall_eq', Request.harmless_key, Request.OfKey,
      true_or, forall_const]
    exact ⟨Nat.ne_of_lt, lt_of_le_of_ne (not_lt.mp hmax)⟩

theorem configureFromRegistryKey_safe (s : Settings Time) (hKey : K) (matrix : Bool) :
    (∀ r ∈ configureFromRegistryKey reg hKey matrix, r.Harmless winMaxKeycode s) ↔
      (EntryPoint.configureFromRegistryKey hKey).Fits reg matrix := by
  have hglobals : ∀ r ∈ restoreGlobals reg hKey matrix, r.Harmless winMaxKeycode s := by
    intro r hr
    obtain ⟨type, value, rfl⟩ := restoreGlobals_global reg hKey matrix r hr
    simp
  simp only [configureFromRegistryKey, List.forall_mem_append, EntryPoint.Fits]
  rw [and_iff_right hglobals]
  cases reg.queryBinary hKey "binary-forks" with
  | none => simp
  | some binaryValues =>
    simp only [restoreForks, List.mem_filterMap, forall_exists_index, and_imp,
      Option.mem_def, Option.some.injEq, forall_eq']
    constructor
    · intro h val hval
      exact (restoreFork_safe s val).mp fun r hr => h r val hval hr
    · intro h r val hval hr
      exact (restoreFork_safe s val).mpr (h val hval) r hr

/-! ## all of them -/

/-- **The requests that are safe**: no assertion fails and every subscript is in range, exactly when
they fit. -/
theorem requests_safe (port : Port Time) (s : Settings Time) (entry : EntryPoint K) :
    Requests.Safe port entry.maxKeycode s (entry.requests reg s.config.matrices.isSome) ↔
      entry.Fits reg s.config.matrices.isSome := by
  have hmax : 0 < entry.maxKeycode := by cases entry <;> simp [EntryPoint.maxKeycode]
  rw [Requests.safe_iff port hmax]
  cases entry with
  | machineConfigureGet values => exact machineConfigureGet_safe s values
  | machineConfigure values => exact iff_of_true (machineConfigure_safe s values) trivial
  | winMachineConfigure values => exact winMachineConfigure_safe reg s values
  | configureFromRegistryKey hKey => exact configureFromRegistryKey_safe reg s hKey _

/-- a registry key that stores a fork of the key 512 -/
def storedMax : String → Option (Nat ⊕ List Nat) := fun _ => some (.inr [512 <<< 16 ||| 30])

/-- requests of a machine without forks and without matrices -/
def SafeHere (entry : EntryPoint (String → Option (Nat ⊕ List Nat))) : Prop :=
  Requests.Safe winPort entry.maxKeycode (forksOnly fun _ => 0)
    (entry.requests mapRegistry false)

/-- The plugin is asked for `fork_configure_switch`; the driver is to fork the key 600; the registry
has a fork of the key 512. -/
theorem requests_break :
    ¬SafeHere (.machineConfigureGet (valuesOf [8 * 4, 0, 0, 0, 0])) ∧
    ¬SafeHere (.winMachineConfigure (valuesOf [5 * 4 + 1, 600, 30, 0, 0])) ∧
    ¬SafeHere (.configureFromRegistryKey storedMax) := by
  refine ⟨?_, ?_, ?_⟩
  · rintro ⟨hasserted, -⟩
    exact absurd hasserted (by decide)
  · rintro ⟨-, hbelow, -⟩
    exact absurd hbelow (by decide)
  · rintro ⟨-, hbelow, -⟩
    exact absurd hbelow (by decide)

end ForkNS
