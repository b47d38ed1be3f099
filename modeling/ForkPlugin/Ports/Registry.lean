import ForkPlugin.Ports.Request

/-!
# The registry of the Windows driver

The driver saves some of its settings under names, and up to 16 forks in one binary value, a key and
its fork in a `ULONG` each.

* `Registry`            what the driver asks of an open registry key;
* `saveForks`, `saveConfigurationToRegistry`   the loop over the keys, as the writes to the buffer;
* `restoreForks`, `configureFromRegistryKey`   the loop over the buffer, as requests;
* `forkedKeys`          the keys that are forked, the lowest first;
* `saved_forks_come_back`   the first 16 of them are restored, and nothing else.

A conversion between `int` and `ULONG` is written where the value can change.
-/

namespace ForkNS

/-- `K` is the state of a registry key.  `queryBinary` fails unless a `REG_BINARY` is stored that
fits into the buffer; it answers the whole `ULONG`s of it. -/
structure Registry (K : Type) where
  assignULong : K → String → Nat → K
  queryULong : K → String → Option Nat
  assignBinary : K → String → List Nat → K
  queryBinary : K → String → Option (List Nat)

abbrev maxForks : Nat := 16

/-- the registry answers the value that was assigned last, if it fits into the buffer -/
def Registry.AnswersLast {K : Type} (reg : Registry K) : Prop :=
  ∀ hKey name values, values.length ≤ maxForks →
    reg.queryBinary (reg.assignBinary hKey name values) name = some values

/-- `MAX_KEYCODE` of the driver -/
abbrev winMaxKeycode : Nat := 512

def ulongOfInt (value : Int) : Nat := (value % 4294967296).toNat

/-- a `ULONG` as an `int` -/
def intOfULong (value : Nat) : Int :=
  if value < 2147483648 then value else (value : Int) - 4294967296

/-- keycodes and times of the driver -/
def winPort : Port ℤ := ⟨ushortOfInt, id, id⟩

/-- `machine_configure` of the driver -/
def winConfigured (s : Settings ℤ) (values : Nat → Int) : Settings ℤ :=
  match winMachineConfigure values with
  | some request => (request.reply winPort s).settings
  | none => s

/-! ## saving -/

section
variable {K : Type} (reg : Registry K)

def saveGlobalValue (hKey : K) (valueName : String) (s : Settings ℤ)
    (type : ForkConfigurationType) : K :=
  reg.assignULong hKey valueName (ulongOfInt (s.configureGlobal winPort type 0 false).value)

/-- the writes `binary_values[top++] = key << 16 | value`, in order -/
def saveForks (s : Settings ℤ) (top : Nat) : List Keycode → List (Nat × Nat)
  | [] => []
  | key :: keys =>
    let value := ushortOfInt (s.configureKey winPort .keyFork key 0 false).value
    if value ≠ 0 then
      (top, key <<< 16 ||| value) :: if top + 1 = maxForks then [] else saveForks s (top + 1) keys
    else saveForks s top keys

def saveConfigurationToRegistry (hKey : K) (s : Settings ℤ) : K :=
  let hKey :=
    if s.config.matrices.isSome then saveGlobalValue reg hKey "overlap_limit" s .overlapLimit
    else hKey
  let hKey := saveGlobalValue reg hKey "clear_interval" s .clearInterval
  let hKey := saveGlobalValue reg hKey "repeat_limit" s .repeatLimit
  let hKey := saveGlobalValue reg hKey "repeat_consider_forks" s .repeatConsiderForks
  let hKey := saveGlobalValue reg hKey "debug" s .debug
  -- the first `top` elements of the buffer
  reg.assignBinary hKey "binary-forks" ((saveForks s 0 (List.range winMaxKeycode)).map Prod.snd)

/-! ## restoring -/

def restoreGlobalValue (hKey : K) (valueName : String) (type : ForkConfigurationType) :
    List Request :=
  match reg.queryULong hKey valueName with
  | some value => [.configureGlobal type (intOfULong value) true]
  | none => []

/-- the element `val` of the buffer -/
def restoreFork (val : Nat) : Option Request :=
  let key := ushortOfInt (val >>> 16 : Nat)
  let fork := ushortOfInt (val &&& 65535 : Nat)
  if key > winMaxKeycode then none else some (.configureKey .keyFork key fork true)

def restoreForks (binaryValues : List Nat) : List Request := binaryValues.filterMap restoreFork

/-- `overlap_limit` is restored with `VERIFICATION_MATRIX` -/
def restoreGlobals (hKey : K) (matrix : Bool) : List Request :=
  (if matrix then restoreGlobalValue reg hKey "overlap_limit" .overlapLimit else []) ++
  restoreGlobalValue reg hKey "clear_interval" .clearInterval ++
  restoreGlobalValue reg hKey "repeat_limit" .repeatLimit ++
  restoreGlobalValue reg hKey "repeat_consider_forks" .repeatConsiderForks ++
  restoreGlobalValue reg hKey "debug" .debug

/-- the requests it makes of the machine -/
def configureFromRegistryKey (hKey : K) (matrix : Bool) : List Request :=
  restoreGlobals reg hKey matrix ++
    match reg.queryBinary hKey "binary-forks" with
    | some binaryValues => restoreForks binaryValues
    | none => []

/-- the subscripts of the buffer that the loop reads -/
def restoreSubscripts (binaryValues : List Nat) : List Nat := List.range binaryValues.length

end

/-! ## one element of the buffer -/

theorem ushortOfInt_natCast {n : Nat} (h : n < 65536) : ushortOfInt n = n := by
  have hmod : ((n : Int) % 65536).toNat = n := by omega
  exact hmod

/-- the two halves of an element -/
theorem restoreFork_pack {key value : Nat} (hkey : key ≤ winMaxKeycode) (hvalue : value < 65536) :
    restoreFork (key <<< 16 ||| value) = some (.configureKey .keyFork key value true) := by
  have hadd : key <<< 16 ||| value = key * 65536 + value := by
    rw [← Nat.shiftLeft_add_eq_or_of_lt hvalue, Nat.shiftLeft_eq]
  have hhigh : (key <<< 16 ||| value) >>> 16 = key := by
    rw [hadd, Nat.shiftRight_eq_div_pow]
    omega
  have hlow : (key <<< 16 ||| value) &&& 65535 = value := by
    rw [hadd, show (65535 : Nat) = 2 ^ 16 - 1 from rfl, Nat.and_two_pow_sub_one_eq_mod]
    omega
  have hkey' : ushortOfInt ((key <<< 16 ||| value) >>> 16 : Nat) = key := by
    rw [hhigh]
    exact ushortOfInt_natCast (lt_of_le_of_lt hkey (by decide))
  have hvalue' : ushortOfInt ((key <<< 16 ||| value) &&& 65535 : Nat) = value := by
    rw [hlow]
    exact ushortOfInt_natCast hvalue
  simp only [restoreFork, hkey', hvalue']
  exact if_neg (not_lt.mpr hkey)

/-! ## the loop that saves -/

def isForked (s : Settings ℤ) (key : Keycode) : Bool := s.config.forkKeycode key != 0

/-- the keys with a fork, in increasing order -/
def forkedKeys (s : Settings ℤ) : List Keycode := (List.range winMaxKeycode).filter (isForked s)

section
variable {s : Settings ℤ}

theorem saveForks_cons {top : Nat} {key : Keycode} {keys : List Keycode}
    (h : s.config.forkKeycode key < 65536) : saveForks s top (key :: keys) =
      if isForked s key then
        (top, key <<< 16 ||| s.config.forkKeycode key) ::
          if top + 1 = maxForks then [] else saveForks s (top + 1) keys
      else saveForks s top keys := by
  have hvalue : ushortOfInt (s.configureKey winPort .keyFork key 0 false).value
      = s.config.forkKeycode key := ushortOfInt_natCast h
  simp only [saveForks, hvalue, isForked, bne_iff_ne]

/-- the buffer is filled from `top` on, until it is full -/
theorem saveForks_eq {top : Nat} (htop : top < maxForks) {keys : List Keycode}
    (h : ∀ key ∈ keys, s.config.forkKeycode key < 65536) :
    saveForks s top keys = ((keys.filter (isForked s)).take (maxForks - top)).mapIdx
      fun i key => (top + i, key <<< 16 ||| s.config.forkKeycode key) := by
  induction keys generalizing top with
  | nil => simp [saveForks]
  | cons key keys ih =>
    rw [saveForks_cons (h key List.mem_cons_self)]
    have hrest := fun k hk => h k (List.mem_cons_of_mem key hk)
    by_cases hf : isForked s key = true
    · obtain ⟨n, hn⟩ : ∃ n, maxForks - top = n + 1 := ⟨maxForks - top - 1, by omega⟩
      rw [if_pos hf, List.filter_cons_of_pos hf, hn, List.take_succ_cons, List.mapIdx_cons]
      congr 1
      by_cases hfull : top + 1 = maxForks
      · have hzero : n = 0 := by omega
        rw [if_pos hfull, hzero]
        rfl
      · rw [if_neg hfull, ih (by omega) hrest, show maxForks - (top + 1) = n by omega]
        congr 1
        funext i k
        rw [Nat.add_right_comm, Nat.add_assoc]
    · rw [if_neg hf, List.filter_cons_of_neg hf]
      exact ih htop hrest

/-- it is filled from the start, without gaps -/
theorem saveForks_subscripts {keys : List Keycode}
    (h : ∀ key ∈ keys, s.config.forkKeycode key < 65536) :
    (saveForks s 0 keys).map Prod.fst = List.range (saveForks s 0 keys).length := by
  rw [saveForks_eq (by decide) h]
  exact List.ext_getElem (by simp) (by simp)

theorem saveForks_length (keys : List Keycode)
    (h : ∀ key ∈ keys, s.config.forkKeycode key < 65536) :
    (saveForks s 0 keys).length ≤ maxForks := by
  rw [saveForks_eq (by decide) h, List.length_mapIdx]
  exact List.length_take_le _ _

/-! ## the loop that restores -/

/-- the elements of the buffer, read back -/
theorem restoreForks_saved {keys : List Keycode}
    (h : ∀ key ∈ keys, key < winMaxKeycode ∧ s.config.forkKeycode key < 65536) :
    restoreForks (keys.map fun key => key <<< 16 ||| s.config.forkKeycode key)
      = keys.map fun key => .configureKey .keyFork key (s.config.forkKeycode key) true := by
  induction keys with
  | nil => rfl
  | cons key keys ih =>
    obtain ⟨hkey, hvalue⟩ := h key List.mem_cons_self
    have hrest := ih fun k hk => h k (List.mem_cons_of_mem key hk)
    unfold restoreForks at hrest ⊢
    rw [List.map_cons, List.filterMap_cons, restoreFork_pack hkey.le hvalue, hrest]
    rfl

/-- each key gets the fork that was saved for it -/
theorem run_forks {s₀ : Settings ℤ} {keys : List Keycode}
    (h : ∀ key ∈ keys, s.config.forkKeycode key < 65536) (k : Keycode) :
    (Requests.run winPort s₀ (keys.map fun key =>
        .configureKey .keyFork key (s.config.forkKeycode key) true)).config.forkKeycode k
      = if k ∈ keys then s.config.forkKeycode k else s₀.config.forkKeycode k := by
  induction keys generalizing s₀ with
  | nil => rfl
  | cons key keys ih =>
    rw [List.map_cons, Requests.run, ih fun k hk => h k (List.mem_cons_of_mem key hk)]
    have hcode : winPort.keycodeOfInt (s.config.forkKeycode key) = s.config.forkKeycode key :=
      ushortOfInt_natCast (h key List.mem_cons_self)
    simp only [Request.reply, Settings.configureKey, Settings.withConfig_config, if_true, hcode]
    by_cases hk : k = key
    · subst hk
      simp
    · rw [Function.update_of_ne hk]
      simp [hk]

/-- a global value is no fork -/
theorem run_globals (s₀ : Settings ℤ) {rs : List Request}
    (h : ∀ r ∈ rs, ∃ type value, r = .configureGlobal type value true) :
    (Requests.run winPort s₀ rs).config.forkKeycode = s₀.config.forkKeycode := by
  induction rs generalizing s₀ with
  | nil => rfl
  | cons r rs ih =>
    rw [Requests.run, ih _ fun r' hr' => h r' (List.mem_cons_of_mem r hr')]
    obtain ⟨type, value, rfl⟩ := h r List.mem_cons_self
    cases type <;> cases hm : s₀.config.matrices <;>
      simp [Request.reply, Settings.configureGlobal, hm]

section
variable {K : Type} (reg : Registry K) (hKey : K)

theorem restoreGlobalValue_global {valueName : String} {type : ForkConfigurationType} {r : Request}
    (hr : r ∈ restoreGlobalValue reg hKey valueName type) :
    ∃ type value, r = .configureGlobal type value true := by
  unfold restoreGlobalValue at hr
  cases hq : reg.queryULong hKey valueName with
  | none =>
    rw [hq] at hr
    cases hr
  | some value =>
    rw [hq] at hr
    exact ⟨_, _, List.mem_singleton.mp hr⟩

theorem restoreGlobals_global (matrix : Bool) :
    ∀ r ∈ restoreGlobals reg hKey matrix, ∃ type value, r = .configureGlobal type value true := by
  intro r hr
  simp only [restoreGlobals, List.mem_append] at hr
  rcases hr with (((hr | hr) | hr) | hr) | hr
  · split_ifs at hr
    · exact restoreGlobalValue_global reg hKey hr
    · cases hr
  · exact restoreGlobalValue_global reg hKey hr
  · exact restoreGlobalValue_global reg hKey hr
  · exact restoreGlobalValue_global reg hKey hr
  · exact restoreGlobalValue_global reg hKey hr

end

/-! ## the round trip -/

theorem forkedKeys_lt : ∀ key ∈ forkedKeys s, key < winMaxKeycode := fun _ hkey =>
  List.mem_range.mp (List.mem_filter.mp hkey).1

theorem mem_forkedKeys {key : Keycode} :
    key ∈ forkedKeys s ↔ key < winMaxKeycode ∧ s.config.forkKeycode key ≠ 0 := by
  rw [forkedKeys, List.mem_filter, List.mem_range, isForked, bne_iff_ne]

/-- the buffer that is assigned -/
theorem saved_values (h : ∀ key < winMaxKeycode, s.config.forkKeycode key < 65536) :
    (saveForks s 0 (List.range winMaxKeycode)).map Prod.snd
      = ((forkedKeys s).take maxForks).map fun key => key <<< 16 ||| s.config.forkKeycode key := by
  rw [saveForks_eq (by decide) fun key hkey => h key (List.mem_range.mp hkey)]
  exact List.ext_getElem (by simp [forkedKeys]) (by simp [forkedKeys])

/-- it is assigned last, and answered -/
theorem query_saved {K : Type} {reg : Registry K} (hreg : reg.AnswersLast) (hKey : K)
    (h : ∀ key < winMaxKeycode, s.config.forkKeycode key < 65536) :
    reg.queryBinary (saveConfigurationToRegistry reg hKey s) "binary-forks"
      = some ((saveForks s 0 (List.range winMaxKeycode)).map Prod.snd) := by
  refine hreg _ _ _ ?_
  rw [List.length_map]
  exact saveForks_length _ fun key hkey => h key (List.mem_range.mp hkey)

/-- the settings saved, and restored into others -/
def savedAndRestored {K : Type} (reg : Registry K) (hKey : K) (s s₀ : Settings ℤ) : Settings ℤ :=
  Requests.run winPort s₀ (configureFromRegistryKey reg (saveConfigurationToRegistry reg hKey s)
    s₀.config.matrices.isSome)

/-- the forks of the first 16 keys come back, whatever else is stored -/
theorem savedAndRestored_forks {K : Type} {reg : Registry K} (hreg : reg.AnswersLast) (hKey : K)
    (h : ∀ key < winMaxKeycode, s.config.forkKeycode key < 65536) (s₀ : Settings ℤ)
    (k : Keycode) : (savedAndRestored reg hKey s s₀).config.forkKeycode k =
      if k ∈ (forkedKeys s).take maxForks then s.config.forkKeycode k
      else s₀.config.forkKeycode k := by
  have hbelow : ∀ key ∈ (forkedKeys s).take maxForks,
      key < winMaxKeycode ∧ s.config.forkKeycode key < 65536 := fun key hkey => by
    have hlt := forkedKeys_lt key (List.mem_of_mem_take hkey)
    exact ⟨hlt, h key hlt⟩
  simp only [savedAndRestored, configureFromRegistryKey, query_saved hreg hKey h,
    saved_values h, restoreForks_saved hbelow, Requests.run_append]
  rw [run_forks fun key hkey => (hbelow key hkey).2, run_globals]
  exact restoreGlobals_global _ _ _

/-- **Saved forks come back**: those of the 16 lowest keys that are forked, and so all when there
are no more.  Both loops stay in the buffer. -/
theorem saved_forks_come_back {K : Type} {reg : Registry K} (hreg : reg.AnswersLast) (hKey : K)
    (h : ∀ key < winMaxKeycode, s.config.forkKeycode key < 65536) {s₀ : Settings ℤ}
    (hzero : ∀ key < winMaxKeycode, s₀.config.forkKeycode key = 0) :
    (∀ key < winMaxKeycode, (savedAndRestored reg hKey s s₀).config.forkKeycode key =
      if key ∈ (forkedKeys s).take maxForks then s.config.forkKeycode key else 0) ∧
    ((forkedKeys s).length ≤ maxForks → ∀ key < winMaxKeycode,
      (savedAndRestored reg hKey s s₀).config.forkKeycode key = s.config.forkKeycode key) ∧
    (∀ i ∈ (saveForks s 0 (List.range winMaxKeycode)).map Prod.fst, i < maxForks) ∧
    ∀ binaryValues ∈ reg.queryBinary (saveConfigurationToRegistry reg hKey s) "binary-forks",
      ∀ i ∈ restoreSubscripts binaryValues, i < maxForks := by
  have hforks := savedAndRestored_forks hreg hKey h s₀
  have hrange := fun key hkey => h key (List.mem_range.mp hkey)
  have hlen := saveForks_length (List.range winMaxKeycode) hrange
  refine ⟨fun key hkey => ?_, fun hle key hkey => ?_, fun i hi => ?_, fun values hv i hi => ?_⟩
  · rw [hforks, hzero key hkey]
  · rw [hforks, List.take_of_length_le hle]
    split_ifs with hmem
    · rfl
    · rw [hzero key hkey]
      by_contra hne
      exact hmem (mem_forkedKeys.mpr ⟨hkey, Ne.symm hne⟩)
  · rw [saveForks_subscripts hrange, List.mem_range] at hi
    exact lt_of_lt_of_le hi hlen
  · rw [query_saved hreg hKey h] at hv
    rw [← Option.some.inj hv, restoreSubscripts, List.length_map, List.mem_range] at hi
    exact lt_of_lt_of_le hi hlen

end

/-- a registry that stores values under their names -/
def mapRegistry : Registry (String → Option (Nat ⊕ List Nat)) where
  assignULong hKey name value := Function.update hKey name (some (.inl value))
  queryULong hKey name := (hKey name).bind Sum.getLeft?
  assignBinary hKey name values := Function.update hKey name (some (.inr values))
  queryBinary hKey name :=
    ((hKey name).bind Sum.getRight?).filter fun values => values.length ≤ maxForks

theorem mapRegistry_answersLast : mapRegistry.AnswersLast := by
  intro hKey name values hlen
  simp [mapRegistry, hlen]

/-- settings with forks only -/
def forksOnly (forks : Keycode → Keycode) : Settings ℤ :=
  ⟨⟨forks, fun _ => false, none, 80, true⟩, 0, 1, 10⟩

/-- the first key and the last are forked -/
theorem saved_forks_come_back_ends :
    let s := forksOnly fun key => if key = 0 then 65535 else if key = 511 then 7 else 0
    let restored := savedAndRestored mapRegistry (fun _ => none) s (forksOnly fun _ => 0)
    (∀ key < winMaxKeycode, restored.config.forkKeycode key =
      if key ∈ (forkedKeys s).take maxForks then s.config.forkKeycode key else 0) ∧
    ((forkedKeys s).length ≤ maxForks → ∀ key < winMaxKeycode,
      restored.config.forkKeycode key = s.config.forkKeycode key) ∧
    (∀ i ∈ (saveForks s 0 (List.range winMaxKeycode)).map Prod.fst, i < maxForks) ∧
    ∀ binaryValues ∈ mapRegistry.queryBinary
        (saveConfigurationToRegistry mapRegistry (fun _ => none) s) "binary-forks",
      ∀ i ∈ restoreSubscripts binaryValues, i < maxForks := by
  refine saved_forks_come_back mapRegistry_answersLast _ (fun key _ => ?_) fun _ _ => rfl
  simp only [forksOnly]
  split_ifs <;> decide

end ForkNS
