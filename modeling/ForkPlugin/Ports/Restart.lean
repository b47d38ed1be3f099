import ForkPlugin.Machine.Construct
import ForkPlugin.Ports.Registry
import Mathlib.Algebra.Ring.Int.Defs
import Mathlib.Data.List.Nodup

/-!
# What survives a restart

A request to the driver configures the machine of one keyboard and saves its configuration; a new
keyboard gets a new machine, configured from what was saved.  All keyboards share the registry key.

* `createMachine`      a new machine, before the registry is read;
* `ioctlValues`        the array that a request is copied into;
* `Devices`, `Devices.step`   the keyboards and the registry, as the driver has them;
* `Registry.Lawful`    a registry that answers what was stored under a name, if the type is right;
* `persisted`          what of some settings comes back;
* `Keyboards`, `Keyboards.step`   the same without a registry: the settings that were saved last;
* `Storable`           what every configuration that a request can make has in common;
* `restart_refines`    the driver does what this says, whatever is configured and restarted.
-/

namespace ForkNS

open Function (update)

/-! ## the driver -/

/-- the pool hands out zeroed memory -/
def zeroed (matrix : Bool) : ForkConfiguration ℤ where
  forkKeycode _ := noKey
  forkRepeatable _ := false
  matrices := if matrix then some ⟨fun _ _ => 0, fun _ _ => 0⟩ else none
  repeatMax := 0
  considerForksForRepeat := false

/-- `create_machine`, with `set_debug(1)` -/
def createMachine (matrix : Bool) : Settings ℤ :=
  Settings.setDebug
    { config := (construct (zeroed matrix)).config
      clearInterval := (construct (zeroed matrix)).clearInterval
      debug := (construct (zeroed matrix)).debug
      maxLast := 10 } 1

/-- `int values[5]`: what is not in the buffer is not initialised -/
def ioctlValues (input : List Int) (uninitialised : Nat → Int) : Nat → Int := fun i =>
  if i < min 5 input.length then input.getD i 0 else uninitialised i

/-- the keyboards by their numbers, and the registry key of the driver -/
structure Devices (K : Type) where
  settings : Nat → Option (Settings ℤ)
  hKey : K

/-- `opened`: the registry key could be opened -/
inductive DeviceAct where
  | setFork (instanceNo : Nat) (input : List Int) (uninitialised : Nat → Int) (opened : Bool)
  | deviceAdd (instanceNo : Nat) (opened : Bool)

namespace Devices
variable {K : Type} (reg : Registry K) (matrix : Bool)

/-- `create_machine`, then `configure_from_registry` -/
def added (hKey : K) (opened : Bool) : Settings ℤ :=
  if opened then
    Requests.run winPort (createMachine matrix) (configureFromRegistryKey reg hKey matrix)
  else createMachine matrix

def step (d : Devices K) : DeviceAct → Devices K
  | .setFork i input uninitialised opened =>
    match d.settings i with
    | none => d
    | some s =>
      let s := winConfigured s (ioctlValues input uninitialised)
      { settings := update d.settings i (some s)
        hKey := if opened then saveConfigurationToRegistry reg d.hKey s else d.hKey }
  | .deviceAdd i opened =>
    { d with settings := update d.settings i (some (added reg matrix d.hKey opened)) }

/-- when the driver is loaded -/
def loaded (hKey : K) : Devices K := ⟨fun _ => none, hKey⟩

end Devices

/-! ## without a registry -/

/-- the fork table of a new machine that is configured from what `s` saved -/
def persistedForks (s : Settings ℤ) : Keycode → Keycode := fun key =>
  if key ∈ (forkedKeys s).take maxForks then s.config.forkKeycode key else noKey

/-- what comes back of `s`: the first 16 forks and five of the values; the rest is as new -/
def persisted (s : Settings ℤ) : Settings ℤ where
  config := {
    forkKeycode := persistedForks s
    forkRepeatable := fun _ => false
    matrices := s.config.matrices.map fun m =>
      { overlapTolerance := ParameterMatrix.set (fun _ _ => 0) 0 0 (m.overlapTolerance 0 0)
        verificationInterval := ParameterMatrix.set (fun _ _ => 0) 0 0 200 }
    repeatMax := s.config.repeatMax
    considerForksForRepeat := s.config.considerForksForRepeat }
  clearInterval := s.clearInterval
  debug := s.debug
  maxLast := 10

/-- `saved`: the settings that were saved last, of any keyboard -/
structure Keyboards where
  settings : Nat → Option (Settings ℤ)
  saved : Option (Settings ℤ)

namespace Keyboards

def added (matrix : Bool) (saved : Option (Settings ℤ)) : Settings ℤ :=
  match saved with
  | none => createMachine matrix
  | some s => persisted s

def step (matrix : Bool) (k : Keyboards) : DeviceAct → Keyboards
  | .setFork i input uninitialised opened =>
    match k.settings i with
    | none => k
    | some s =>
      let s := winConfigured s (ioctlValues input uninitialised)
      { settings := update k.settings i (some s)
        saved := if opened then some s else k.saved }
  | .deviceAdd i opened =>
    let saved := if opened then k.saved else none
    { k with settings := update k.settings i (some (added matrix saved)) }

def loaded : Keyboards := ⟨fun _ => none, none⟩

end Keyboards

/-! ## the registry -/

/-- a value is found under the name it was assigned to, with the type that it has -/
structure Registry.Lawful {K : Type} (reg : Registry K) : Prop where
  ulong : ∀ hKey name value name', reg.queryULong (reg.assignULong hKey name value) name'
    = if name' = name then some value else reg.queryULong hKey name'
  ulong_binary : ∀ hKey name values name', reg.queryULong (reg.assignBinary hKey name values) name'
    = if name' = name then none else reg.queryULong hKey name'
  binary : ∀ hKey name values name', values.length ≤ maxForks →
    reg.queryBinary (reg.assignBinary hKey name values) name'
      = if name' = name then some values else reg.queryBinary hKey name'

theorem Registry.Lawful.answersLast {K : Type} {reg : Registry K} (h : reg.Lawful) :
    reg.AnswersLast := by
  intro hKey name values hlen
  rw [h.binary hKey name values name hlen, if_pos rfl]

theorem mapRegistry_lawful : mapRegistry.Lawful where
  ulong hKey name value name' := by
    by_cases h : name' = name
    · subst h
      simp [mapRegistry]
    · simp [mapRegistry, h]
  ulong_binary hKey name values name' := by
    by_cases h : name' = name
    · subst h
      simp [mapRegistry]
    · simp [mapRegistry, h]
  binary hKey name values name' hlen := by
    by_cases h : name' = name
    · subst h
      simp [mapRegistry, hlen]
    · simp [mapRegistry, h]

/-! ## a new machine -/

namespace Construction

/-- the loops leave the two values alone -/
def SameValues (c c' : Construction ℤ) : Prop :=
  c'.clearInterval = c.clearInterval ∧ c'.debug = c.debug

theorem setOverlapTolerance_values (c : Construction ℤ) (i j : Nat) (value : ℤ) :
    SameValues c (c.setOverlapTolerance i j value) := by
  unfold setOverlapTolerance
  split <;> exact ⟨rfl, rfl⟩

theorem setVerificationInterval_values (c : Construction ℤ) (i j : Nat) (value : ℤ) :
    SameValues c (c.setVerificationInterval i j value) := by
  unfold setVerificationInterval
  split <;> exact ⟨rfl, rfl⟩

theorem SameValues.trans {c c' c'' : Construction ℤ} (h : SameValues c c')
    (h' : SameValues c' c'') : SameValues c c'' :=
  ⟨h'.1.trans h.1, h'.2.trans h.2⟩

theorem foldl_values {f : Construction ℤ → Nat → Construction ℤ}
    (hf : ∀ c i, SameValues c (f c i)) (is : List Nat) (c : Construction ℤ) :
    SameValues c (is.foldl f c) := by
  induction is generalizing c with
  | nil => exact ⟨rfl, rfl⟩
  | cons i is ih => exact (hf c i).trans (ih (f c i))

theorem clearKeys_values (n : Nat) (c : Construction ℤ) : SameValues c (c.clearKeys n) := by
  refine foldl_values (fun c i => ?_) _ c
  have hpairs : SameValues c (c.clearPairs i initBound) := by
    refine foldl_values (fun c j => ?_) _ c
    exact (setOverlapTolerance_values c i j 0).trans (setVerificationInterval_values _ i j 0)
  unfold clearKey
  generalize c.clearPairs i initBound = c' at hpairs ⊢
  exact hpairs.trans ⟨rfl, rfl⟩

end Construction

open Construction in
theorem construct_values (previous : ForkConfiguration ℤ) :
    SameValues (start previous) (construct previous) := by
  have h := clearKeys_values initBound (start previous)
  unfold construct
  generalize (start previous).clearKeys initBound = c at h ⊢
  exact h.trans ((setVerificationInterval_values c 0 0 _).trans
    (setOverlapTolerance_values _ 0 0 _))

theorem clearRows_zeros (k n : Nat) :
    ParameterMatrix.clearRows (fun _ _ => (0 : ℤ)) k n = fun _ _ => 0 := by
  funext i j
  rw [ParameterMatrix.clearRows_apply]
  split_ifs <;> rfl

/-- the driver's machine is initialised -/
theorem createMachine_eq (matrix : Bool) : createMachine matrix =
    { config := {
        forkKeycode := fun _ => noKey
        forkRepeatable := fun _ => false
        matrices := (zeroed matrix).matrices.map fun m =>
          ⟨m.overlapTolerance.set 0 0 100, m.verificationInterval.set 0 0 200⟩
        repeatMax := 80
        considerForksForRepeat := true }
      clearInterval := 0
      debug := 1
      maxLast := 10 } := by
  have hfill : ∀ {α : Type} (x : α) (n : Nat), Stores.fill (fun _ => x) x n = fun _ => x := by
    intro α x n
    funext i
    rw [Stores.fill_apply]
    split_ifs <;> rfl
  have hinterval : (construct (zeroed matrix)).clearInterval = 0 := (construct_values _).1
  rw [createMachine, Settings.setDebug, construct_config, hinterval]
  cases matrix with
  | false => simp [zeroed, hfill]
  | true => simp [zeroed, hfill, clearRows_zeros]

/-! ## what can be stored -/

/-- a `USHORT`, or the default of a value -/
def Short (value : ℤ) : Prop := 0 ≤ value ∧ value < 65536

theorem noKey_lt : noKey < 65536 := by
  show (0 : ℕ) < 65536
  omega

/-- the values are small, and the matrices are those of the build -/
structure Storable (matrix : Bool) (s : Settings ℤ) : Prop where
  matrices : s.config.matrices.isSome = matrix
  overlap : ∀ m, s.config.matrices = some m → Short (m.overlapTolerance 0 0)
  clearInterval : Short s.clearInterval
  repeatMax : Short s.config.repeatMax
  debug : Short s.debug
  forks : ∀ key, s.config.forkKeycode key < 65536

theorem ushortOfInt_lt (value : Int) : ushortOfInt value < 65536 := by
  unfold ushortOfInt
  omega

theorem short_ushort (value : Int) : Short (ushortOfInt value) := by
  have h := ushortOfInt_lt value
  unfold Short
  omega

theorem intOfULong_ulongOfInt {value : ℤ} (h : Short value) :
    intOfULong (ulongOfInt value) = value := by
  obtain ⟨h0, h1⟩ := h
  unfold intOfULong ulongOfInt
  split_ifs <;> omega

theorem intOfULong_ulongOfInt_bool (b : Bool) :
    intOfULong (ulongOfInt (Settings.intOfBool b)) = Settings.intOfBool b := by
  cases b <;> rfl

section
variable {matrix : Bool} {s : Settings ℤ}

theorem storable_createMachine (matrix : Bool) : Storable matrix (createMachine matrix) := by
  have hshort : ∀ value : ℤ, 0 ≤ value → value < 65536 → Short value := fun _ h0 h1 => ⟨h0, h1⟩
  rw [createMachine_eq]
  refine ⟨?_, fun m hm => ?_, hshort 0 (by omega) (by omega), hshort 80 (by omega) (by omega),
    hshort 1 (by omega) (by omega), fun _ => ?_⟩
  · cases matrix <;> rfl
  · obtain ⟨m', -, rfl⟩ := Option.map_eq_some_iff.mp hm
    show Short (ParameterMatrix.set m'.overlapTolerance 0 0 100 0 0)
    rw [ParameterMatrix.set_apply, if_pos ⟨rfl, rfl⟩]
    exact hshort 100 (by omega) (by omega)
  · exact noKey_lt

theorem Storable.persisted (h : Storable matrix s) : Storable matrix (persisted s) := by
  rw [ForkNS.persisted]
  refine ⟨?_, fun m hm => ?_, h.clearInterval, h.repeatMax, h.debug, fun key => ?_⟩
  · rw [← h.matrices]
    exact Option.isSome_map
  · obtain ⟨m', hm', rfl⟩ := Option.map_eq_some_iff.mp hm
    show Short (ParameterMatrix.set (fun _ _ => 0) 0 0 (m'.overlapTolerance 0 0) 0 0)
    rw [ParameterMatrix.set_apply, if_pos ⟨rfl, rfl⟩]
    exact h.overlap m' hm'
  · dsimp only [persistedForks]
    split_ifs
    · exact h.forks key
    · exact noKey_lt

theorem Storable.withOverlapTolerance (h : Storable matrix s) {m : ParameterMatrices ℤ}
    (hm : s.config.matrices = some m) (code verificator : Keycode) {value : ℤ}
    (hv : Short value) : Storable matrix (s.withOverlapTolerance m code verificator value) := by
  refine ⟨?_, fun m' hm' => ?_, h.clearInterval, h.repeatMax, h.debug, h.forks⟩
  · rw [← h.matrices, hm]
    rfl
  · rw [Settings.withOverlapTolerance_config] at hm'
    cases hm'
    show Short (ParameterMatrix.set m.overlapTolerance code verificator value 0 0)
    rw [ParameterMatrix.set_apply]
    split_ifs
    · exact hv
    · exact h.overlap m hm

theorem Storable.withVerificationInterval (h : Storable matrix s) {m : ParameterMatrices ℤ}
    (hm : s.config.matrices = some m) (code verificator : Keycode) (value : ℤ) :
    Storable matrix (s.withVerificationInterval m code verificator value) := by
  refine ⟨?_, fun m' hm' => ?_, h.clearInterval, h.repeatMax, h.debug, h.forks⟩
  · rw [← h.matrices, hm]
    rfl
  · rw [Settings.withVerificationInterval_config] at hm'
    cases hm'
    exact h.overlap m hm

theorem Storable.global (h : Storable matrix s) (type : ForkConfigurationType) {value : ℤ}
    (hv : Short value) :
    Storable matrix (s.configureGlobal winPort type value true).settings := by
  unfold Settings.configureGlobal
  split
  · exact h.withOverlapTolerance ‹_› 0 0 hv
  · exact h.withVerificationInterval ‹_› 0 0 _
  · exact ⟨h.matrices, h.overlap, hv, h.repeatMax, h.debug, h.forks⟩
  · exact ⟨h.matrices, h.overlap, h.clearInterval, hv, h.debug, h.forks⟩
  · exact ⟨h.matrices, h.overlap, h.clearInterval, h.repeatMax, h.debug, h.forks⟩
  · show Storable matrix (s.setLastEventsCount value)
    unfold Settings.setLastEventsCount
    split_ifs
    · exact h
    · exact ⟨h.matrices, h.overlap, h.clearInterval, h.repeatMax, h.debug, h.forks⟩
  · exact ⟨h.matrices, h.overlap, h.clearInterval, h.repeatMax, hv, h.forks⟩
  · exact h
  · exact h
  · exact h

theorem Storable.key (h : Storable matrix s) (type : ForkConfigurationType) (key : Keycode)
    (value : ℤ) : Storable matrix (s.configureKey winPort type key value true).settings := by
  unfold Settings.configureKey
  split
  · refine ⟨h.matrices, h.overlap, h.clearInterval, h.repeatMax, h.debug, fun k => ?_⟩
    show update s.config.forkKeycode key (ushortOfInt value) k < 65536
    by_cases hk : k = key
    · rw [hk, Function.update_self]
      exact ushortOfInt_lt value
    · rw [Function.update_of_ne hk]
      exact h.forks k
  · exact ⟨h.matrices, h.overlap, h.clearInterval, h.repeatMax, h.debug, h.forks⟩
  · exact h

theorem Storable.twins (h : Storable matrix s) (type : ForkConfigurationType)
    (key twin : Keycode) {value : ℤ} (hv : Short value) :
    Storable matrix (s.configureTwins winPort type key twin value true).settings := by
  unfold Settings.configureTwins
  split
  · exact h.withVerificationInterval ‹_› key twin _
  · exact h.withOverlapTolerance ‹_› key twin hv
  · exact h

/-- a request narrows its values -/
theorem Storable.configured (h : Storable matrix s) (values : Nat → Int) :
    Storable matrix (winConfigured s values) := by
  have hall : ∀ r ∈ (winMachineConfigure values).toList,
      Storable matrix (r.reply winPort s).settings := by
    rw [winMachineConfigure, forall_request]
    exact ⟨fun _ => h.global _ (short_ushort _), fun _ => h.key _ _ _,
      fun _ => h.twins _ _ _ (short_ushort _)⟩
  unfold winConfigured
  split
  · exact hall _ (by simp [*])
  · exact h

end

/-! ## what is saved comes back -/

theorem ParameterMatrix.set_set (matrix : ParameterMatrix ℤ) (code verificator : Keycode)
    (value value' : ℤ) :
    (matrix.set code verificator value).set code verificator value'
      = matrix.set code verificator value' := by
  funext i j
  simp only [ParameterMatrix.set_apply]
  split_ifs <;> rfl

section
variable {K : Type} {reg : Registry K} {matrix : Bool} {s : Settings ℤ}

/-- the values that are restored, with the names they are saved under -/
def restoredGlobals (s : Settings ℤ) : List Request :=
  ((s.config.matrices.map fun m =>
    Request.configureGlobal .overlapLimit (m.overlapTolerance 0 0) true).toList) ++
  [.configureGlobal .clearInterval s.clearInterval true,
    .configureGlobal .repeatLimit s.config.repeatMax true,
    .configureGlobal .repeatConsiderForks (Settings.intOfBool s.config.considerForksForRepeat)
      true,
    .configureGlobal .debug s.debug true]

def restoredForks (s : Settings ℤ) : List Request :=
  ((forkedKeys s).take maxForks).map fun key =>
    .configureKey .keyFork key (s.config.forkKeycode key) true

/-- the globals are read back -/
theorem restoreGlobals_saved (hreg : reg.Lawful) (h : Storable matrix s) (hKey : K) :
    restoreGlobals reg (saveConfigurationToRegistry reg hKey s) matrix = restoredGlobals s := by
  have hquery : ∀ (name : String) (type : ForkConfigurationType) (value : ℤ),
      reg.queryULong (saveConfigurationToRegistry reg hKey s) name = some (ulongOfInt value) →
      intOfULong (ulongOfInt value) = value →
      restoreGlobalValue reg (saveConfigurationToRegistry reg hKey s) name type
        = [.configureGlobal type value true] := by
    intro name type value hq hv
    simp only [restoreGlobalValue, hq, hv]
  have hclear := hquery "clear_interval" .clearInterval s.clearInterval
    (by simp [saveConfigurationToRegistry, saveGlobalValue, hreg.ulong, hreg.ulong_binary,
      Settings.configureGlobal]) (intOfULong_ulongOfInt h.clearInterval)
  have hrepeat := hquery "repeat_limit" .repeatLimit s.config.repeatMax
    (by simp [saveConfigurationToRegistry, saveGlobalValue, hreg.ulong, hreg.ulong_binary,
      Settings.configureGlobal, winPort]) (intOfULong_ulongOfInt h.repeatMax)
  have hconsider := hquery "repeat_consider_forks" .repeatConsiderForks
    (Settings.intOfBool s.config.considerForksForRepeat)
    (by simp [saveConfigurationToRegistry, saveGlobalValue, hreg.ulong, hreg.ulong_binary,
      Settings.configureGlobal]) (intOfULong_ulongOfInt_bool _)
  have hdebug := hquery "debug" .debug s.debug
    (by simp [saveConfigurationToRegistry, saveGlobalValue, hreg.ulong, hreg.ulong_binary,
      Settings.configureGlobal]) (intOfULong_ulongOfInt h.debug)
  rw [restoreGlobals, hclear, hrepeat, hconsider, hdebug, restoredGlobals, ← h.matrices]
  cases hm : s.config.matrices with
  | none => rfl
  | some m =>
    have hoverlap := hquery "overlap_limit" .overlapLimit (m.overlapTolerance 0 0)
      (by simp [saveConfigurationToRegistry, saveGlobalValue, hreg.ulong, hreg.ulong_binary,
        Settings.configureGlobal, hm, winPort]) (intOfULong_ulongOfInt (h.overlap m hm))
    rw [hoverlap]
    rfl

/-- and so are the forks -/
theorem configureFromRegistryKey_saved (hreg : reg.Lawful) (h : Storable matrix s) (hKey : K) :
    configureFromRegistryKey reg (saveConfigurationToRegistry reg hKey s) matrix
      = restoredGlobals s ++ restoredForks s := by
  have hforks := fun key (_ : key < winMaxKeycode) => h.forks key
  have hbelow : ∀ key ∈ (forkedKeys s).take maxForks,
      key < winMaxKeycode ∧ s.config.forkKeycode key < 65536 := fun key hkey =>
    ⟨forkedKeys_lt key (List.mem_of_mem_take hkey), h.forks key⟩
  rw [configureFromRegistryKey, restoreGlobals_saved hreg h]
  simp only [query_saved hreg.answersLast hKey hforks, saved_values hforks,
    restoreForks_saved hbelow]
  rfl

/-- a new machine, with the globals restored -/
theorem run_restoredGlobals (h : Storable matrix s) :
    Requests.run winPort (createMachine matrix) (restoredGlobals s) = (persisted s).withConfig
      { (persisted s).config with forkKeycode := fun _ => noKey } := by
  rw [createMachine_eq, restoredGlobals, ← h.matrices]
  have hbool : (Settings.intOfBool s.config.considerForksForRepeat != 0)
      = s.config.considerForksForRepeat := by
    cases s.config.considerForksForRepeat <;> rfl
  cases hm : s.config.matrices with
  | none =>
    simp [Requests.run, Request.reply, Settings.configureGlobal, Settings.withConfig,
      Settings.setDebug, persisted, zeroed, hm, hbool, winPort]
  | some m =>
    simp [Requests.run, Request.reply, Settings.configureGlobal, Settings.withConfig,
      Settings.withOverlapTolerance, Settings.setDebug, persisted, zeroed, hm, hbool, winPort]
    exact ParameterMatrix.set_set _ 0 0 100 _

/-- the forks are restored, and nothing else -/
theorem run_restoredForks (hforks : ∀ key, s.config.forkKeycode key < 65536) {s₀ : Settings ℤ}
    (hnone : s₀.config.forkKeycode = fun _ => noKey) :
    Requests.run winPort s₀ (restoredForks s) = s₀.withConfig
      { s₀.config with forkKeycode := persistedForks s } := by
  -- the requests change the fork table alone
  have hrest : ∀ (keys : List Keycode) (s₀ : Settings ℤ), ∃ forks,
      Requests.run winPort s₀ (keys.map fun key =>
        .configureKey .keyFork key (s.config.forkKeycode key) true)
        = s₀.withConfig { s₀.config with forkKeycode := forks } := by
    intro keys
    induction keys with
    | nil => exact fun s₀ => ⟨s₀.config.forkKeycode, rfl⟩
    | cons key keys ih =>
      intro s₀
      obtain ⟨forks, hforks⟩ := ih (Request.reply winPort s₀
        (.configureKey .keyFork key (s.config.forkKeycode key) true)).settings
      exact ⟨forks, hforks⟩
  obtain ⟨forks, hrun⟩ := hrest ((forkedKeys s).take maxForks) s₀
  rw [restoredForks, hrun]
  have hforks : forks = persistedForks s := by
    funext k
    have hk : (Requests.run winPort s₀ (((forkedKeys s).take maxForks).map fun key =>
        .configureKey .keyFork key (s.config.forkKeycode key) true)).config.forkKeycode k
        = if k ∈ (forkedKeys s).take maxForks then s.config.forkKeycode k
          else s₀.config.forkKeycode k := run_forks (fun key _ => hforks key) k
    rw [hrun, hnone, Settings.withConfig_config] at hk
    unfold persistedForks
    exact hk
  rw [hforks]

/-- **A new machine, configured from what was saved.** -/
theorem added_saved (hreg : reg.Lawful) (h : Storable matrix s) (hKey : K) :
    Devices.added reg matrix (saveConfigurationToRegistry reg hKey s) true = persisted s := by
  rw [Devices.added, if_pos rfl, configureFromRegistryKey_saved hreg h, Requests.run_append,
    run_restoredGlobals h, run_restoredForks h.forks rfl]
  simp only [Settings.withConfig, persisted]

/-- nothing was saved -/
theorem added_empty {hKey : K} (hulong : ∀ name, reg.queryULong hKey name = none)
    (hbinary : reg.queryBinary hKey "binary-forks" = none) :
    Devices.added reg matrix hKey true = createMachine matrix := by
  have hnone : configureFromRegistryKey reg hKey matrix = [] := by
    simp [configureFromRegistryKey, restoreGlobals, restoreGlobalValue, hulong, hbinary]
  rw [Devices.added, if_pos rfl, hnone]
  rfl

/-! ## every run -/

/-- the registry holds what was saved last -/
inductive Holds (reg : Registry K) : K → Option (Settings ℤ) → Prop
  | empty {hKey : K} (hulong : ∀ name, reg.queryULong hKey name = none)
      (hbinary : reg.queryBinary hKey "binary-forks" = none) : Holds reg hKey none
  | saved (hKey : K) (s : Settings ℤ) :
      Holds reg (saveConfigurationToRegistry reg hKey s) (some s)

/-- the driver and its registry, and the keyboards without one -/
structure Refines (reg : Registry K) (matrix : Bool) (d : Devices K) (k : Keyboards) : Prop where
  settings : d.settings = k.settings
  holds : Holds reg d.hKey k.saved
  storable : ∀ i s, k.settings i = some s → Storable matrix s
  saved : ∀ s, k.saved = some s → Storable matrix s

theorem Refines.added {d : Devices K} {k : Keyboards} (h : Refines reg matrix d k)
    (hreg : reg.Lawful) (opened : Bool) :
    Devices.added reg matrix d.hKey opened
        = Keyboards.added matrix (if opened then k.saved else none) ∧
      Storable matrix (Keyboards.added matrix (if opened then k.saved else none)) := by
  cases opened with
  | false => exact ⟨rfl, storable_createMachine matrix⟩
  | true =>
    rw [if_pos rfl]
    have hholds := h.holds
    have hsaved := h.saved
    generalize d.hKey = hKey at hholds
    generalize k.saved = saved at hholds hsaved
    cases hholds with
    | empty hulong hbinary =>
      exact ⟨added_empty hulong hbinary, storable_createMachine matrix⟩
    | saved hKey s =>
      have hs := hsaved s rfl
      exact ⟨added_saved hreg hs hKey, hs.persisted⟩

theorem Refines.step {d : Devices K} {k : Keyboards} (h : Refines reg matrix d k)
    (hreg : reg.Lawful) (a : DeviceAct) :
    Refines reg matrix (d.step reg matrix a) (k.step matrix a) := by
  cases a with
  | setFork i input uninitialised opened =>
    simp only [Devices.step, Keyboards.step, h.settings]
    cases hi : k.settings i with
    | none => exact h
    | some s =>
      have hs := (h.storable i s hi).configured (ioctlValues input uninitialised)
      refine ⟨rfl, ?_, fun j s' hj => ?_, fun s' hs' => ?_⟩
      · cases opened with
        | false => exact h.holds
        | true => exact .saved d.hKey _
      · dsimp only at hj
        by_cases hij : j = i
        · rw [hij, Function.update_self] at hj
          cases hj
          exact hs
        · rw [Function.update_of_ne hij] at hj
          exact h.storable j s' hj
      · cases opened with
        | false => exact h.saved s' hs'
        | true =>
          cases hs'
          exact hs
  | deviceAdd i opened =>
    obtain ⟨hadded, hs⟩ := h.added hreg opened
    refine ⟨?_, h.holds, fun j s' hj => ?_, h.saved⟩
    · simp only [Devices.step, Keyboards.step, h.settings, hadded]
    · simp only [Keyboards.step] at hj
      by_cases hij : j = i
      · rw [hij, Function.update_self] at hj
        cases hj
        exact hs
      · rw [Function.update_of_ne hij] at hj
        exact h.storable j s' hj

theorem Refines.run {d : Devices K} {k : Keyboards} (h : Refines reg matrix d k)
    (hreg : reg.Lawful) (acts : List DeviceAct) :
    Refines reg matrix (acts.foldl (Devices.step reg matrix) d)
      (acts.foldl (Keyboards.step matrix) k) := by
  induction acts generalizing d k with
  | nil => exact h
  | cons a acts ih => exact ih (h.step hreg a)

/-! ## the second restart -/

/-- the forks that came back are those that are saved again -/
theorem forkedKeys_persisted (s : Settings ℤ) :
    forkedKeys (persisted s) = (forkedKeys s).take maxForks := by
  have hnodup : (forkedKeys s).Nodup := List.nodup_range.filter _
  have htake : (forkedKeys s).take maxForks = (List.range winMaxKeycode).filter fun key =>
      ((forkedKeys s).take maxForks).elem key && isForked s key := by
    rw [← List.filter_filter, ← forkedKeys]
    exact List.Nodup.take_eq_filter_mem hnodup
  rw [htake, forkedKeys]
  refine List.filter_congr fun key _ => ?_
  simp only [isForked, persisted, persistedForks]
  by_cases hkey : key ∈ (forkedKeys s).take maxForks
  · simp [hkey]
  · simp [hkey]

/-- what came back comes back whole -/
theorem persisted_persisted (s : Settings ℤ) : persisted (persisted s) = persisted s := by
  have hforks : persistedForks (persisted s) = persistedForks s := by
    funext key
    simp only [persistedForks, forkedKeys_persisted, List.take_take, Nat.min_self]
    split_ifs with hkey
    · simp only [persisted, persistedForks, if_pos hkey]
    · rfl
  have hmatrices : (persisted s).config.matrices.map (fun m =>
      (⟨ParameterMatrix.set (fun _ _ => 0) 0 0 (m.overlapTolerance 0 0),
        ParameterMatrix.set (fun _ _ => 0) 0 0 200⟩ : ParameterMatrices ℤ))
      = (persisted s).config.matrices := by
    simp only [persisted]
    cases s.config.matrices <;> rfl
  rw [persisted, hforks, hmatrices]
  simp only [persisted]

/-- a key is forked on one keyboard, and another one is added -/
def anotherKeyboard : List DeviceAct :=
  [.deviceAdd 1 true, .setFork 1 [21, 58, 29, 1] (fun _ => 0) true, .deviceAdd 2 true]

end

end ForkNS
