import ForkPlugin.Ports.Filter

/-!
# The filter in the keyboard stack

The class driver above and the port driver below find each other through requests that pass the
filter, and an application reaches it over the raw device.  Requests, completions, packets and
firings of the timer come in any order.

* `ConnectData`, `HookKeyboard`   what two of the requests carry;
* `InternalControl`, `PdoControl`   the requests, with what the framework answers meanwhile;
* `DeviceExtension`, `Requests`   what the driver remembers, and where the requests are;
* `Stack.evtIoInternalDeviceControl`, ...   the routines of the driver;
* `Stack.step`          one of them, or a step of the filter;
* `Stepped`             all that a step can do, to the requests, the extension and the drivers
                        above and below;
* `Held`                a routine that has a request in hand, and what it can do with it;
* `step_stepped`        every step does what `Stepped` says.

A routine is not interrupted by another one.
-/

namespace ForkNS

open Runs Machine

/-! ## requests -/

/-- an address; `NULL` is 0 -/
abbrev Pointer := ℕ

structure ConnectData where
  classDeviceObject : Pointer
  classService : Pointer
deriving DecidableEq, Repr

structure HookKeyboard where
  context : Pointer
  initializationRoutine : Pointer
deriving DecidableEq, Repr

abbrev NtStatus := ℤ

/-- `NT_SUCCESS` -/
def ntSuccess (status : NtStatus) : Bool := status ≥ 0

def statusSuccess : NtStatus := 0
def statusNotImplemented : NtStatus := 0xC0000002 - 0x100000000
def statusBufferTooSmall : NtStatus := 0xC0000023 - 0x100000000
def statusSharingViolation : NtStatus := 0xC0000043 - 0x100000000

/-- internal requests; `retrieved` is the status of `WdfRequestRetrieveInputBuffer` or
`WdfRequestRetrieveOutputMemory`, `formatted` that of `WdfIoTargetFormatRequestForInternalIoctl` -/
inductive InternalControl where
  | keyboardConnect (retrieved : NtStatus) (connectData : ConnectData)
  | keyboardDisconnect
  | i8042HookKeyboard (retrieved : NtStatus) (hookKeyboard : HookKeyboard)
  | keyboardQueryAttributes (retrieved formatted : NtStatus)
  | other
deriving DecidableEq, Repr

/-- requests to the raw device; `copied` is the status of `WdfMemoryCopyFromBuffer`, `saved` that of
the last call that saves the configuration -/
inductive PdoControl where
  | getKeyboardAttributes (outputLength : ℕ) (retrieved copied : NtStatus)
  | setFork (values : Nat → Int) (saved : NtStatus)
  | other

/-- the answer of `WdfRequestSend`, and the status of the request if it is `FALSE` -/
structure SendResult where
  ret : Bool
  status : NtStatus
deriving DecidableEq, Repr

/-- what the port driver gets -/
inductive Passed where
  | connect (connectData : ConnectData)
  | hook (hookKeyboard : HookKeyboard)
  | queryAttributes
  | other
deriving DecidableEq, Repr

def Passed.isConnect : Passed → Bool
  | .connect _ => true
  | _ => false

def Passed.isHook : Passed → Bool
  | .hook _ => true
  | _ => false

/-! ## the driver -/

/-- where the driver and its device are, and how large `KEYBOARD_ATTRIBUTES` is -/
structure Image where
  deviceObject : Pointer
  extension : Pointer
  serviceCallback : Pointer
  initializationRoutine : Pointer
  attributesSize : ℕ

structure DeviceExtension (A : Type) where
  upperConnectData : ConnectData
  upperContext : Pointer
  upperInitializationRoutine : Pointer
  keyboardAttributes : A
deriving DecidableEq, Repr

/-- the requests by their handles: in the queue of the raw device, sent down with a completion
routine, sent and forgotten, and completed with a status and what was copied out -/
structure Requests (A : Type) where
  rawPdoQueue : List (ℕ × PdoControl)
  awaited : List ℕ
  forgotten : List ℕ
  completed : List (ℕ × NtStatus × Option A)

/-- `down` is what the port driver got, `calls` the calls of a class service, `upperInits` those of
another initialization routine with its context, and `initialized` what the own one returned, with
`*TurnTranslationOn` -/
structure Stack (A : Type) where
  filter : Filter
  extension : DeviceExtension A
  requests : Requests A
  down : List Passed
  calls : List (ConnectData × KeyboardInputData)
  upperInits : List (Pointer × Pointer)
  initialized : List (NtStatus × Bool)

namespace Requests
variable {A : Type}

def complete (r : Requests A) (request : ℕ) (status : NtStatus) (reply : Option A) : Requests A :=
  { r with completed := r.completed ++ [(request, status, reply)] }

def forget (r : Requests A) (request : ℕ) : Requests A :=
  { r with forgotten := r.forgotten ++ [request] }

def await (r : Requests A) (request : ℕ) : Requests A :=
  { r with awaited := r.awaited ++ [request] }

def enqueue (r : Requests A) (request : ℕ) (control : PdoControl) : Requests A :=
  { r with rawPdoQueue := r.rawPdoQueue ++ [(request, control)] }

/-- every request that the driver got -/
def handles (r : Requests A) : List ℕ :=
  r.completed.map Prod.fst ++ r.forgotten ++ r.awaited ++ r.rawPdoQueue.map Prod.fst

end Requests

namespace Stack
variable {A : Type}

/-- the framework zeroes the extension -/
def create [Zero A] (settings : Settings ℤ) (c : ℕ) : Stack A where
  filter := Filter.create settings c
  extension := ⟨⟨0, 0⟩, 0, 0, 0⟩
  requests := ⟨[], [], [], []⟩
  down := []
  calls := []
  upperInits := []
  initialized := []

def complete (s : Stack A) (request : ℕ) (status : NtStatus) (reply : Option A) : Stack A :=
  { s with requests := s.requests.complete request status reply }

/-- `WDF_REQUEST_SEND_OPTION_SEND_AND_FORGET` -/
def sendAndForget (s : Stack A) (request : ℕ) (passed : Passed) (send : SendResult) : Stack A :=
  if send.ret then { s with requests := s.requests.forget request, down := s.down ++ [passed] }
  else s.complete request send.status none

def evtIoInternalDeviceControl (image : Image) (s : Stack A) (request : ℕ) (send : SendResult) :
    InternalControl → Stack A
  | .keyboardConnect retrieved connectData =>
    -- only allow one connection
    if s.extension.upperConnectData.classService ≠ 0 then
      s.complete request statusSharingViolation none
    else if ntSuccess retrieved then
      sendAndForget { s with extension := { s.extension with upperConnectData := connectData } }
        request (.connect ⟨image.deviceObject, image.serviceCallback⟩) send
    else s.complete request retrieved none
  | .keyboardDisconnect => s.complete request statusNotImplemented none
  | .i8042HookKeyboard retrieved hook =>
    if ntSuccess retrieved then
      sendAndForget
        { s with extension := { s.extension with
            upperContext := hook.context
            upperInitializationRoutine :=
              if hook.initializationRoutine ≠ 0 then hook.initializationRoutine
              else s.extension.upperInitializationRoutine } }
        request (.hook ⟨image.extension, image.initializationRoutine⟩) send
    else s.complete request retrieved none
  | .keyboardQueryAttributes retrieved formatted =>
    if !ntSuccess retrieved then s.complete request retrieved none
    else if !ntSuccess formatted then s.complete request formatted none
    else if send.ret then
      { s with requests := s.requests.await request, down := s.down ++ [.queryAttributes] }
    else s.complete request send.status none
  | .other => s.sendAndForget request .other send

/-- the attributes are copied from what came back, if it is long enough -/
def requestCompletionRoutine (image : Image) (s : Stack A) (request : ℕ) (status : NtStatus)
    (length : ℕ) (copied : NtStatus) (attributes : A) : Stack A :=
  if ntSuccess status && length ≥ image.attributesSize then
    complete
      { s with extension := { s.extension with
          keyboardAttributes :=
            if ntSuccess copied then attributes else s.extension.keyboardAttributes } }
      request copied none
  else s.complete request status none

/-- `forwarded` is the status of `WdfRequestForwardToParentDeviceIoQueue` -/
def evtIoDeviceControlForRawPdo (s : Stack A) (request : ℕ) (forwarded : NtStatus)
    (control : PdoControl) : Stack A :=
  match control with
  | .other => s.complete request statusSuccess none
  | control =>
    if ntSuccess forwarded then { s with requests := s.requests.enqueue request control }
    else s.complete request forwarded none

def evtIoDeviceControlFromRawPdo (image : Image) (s : Stack A) (request : ℕ) :
    PdoControl → Stack A
  | .getKeyboardAttributes outputLength retrieved copied =>
    if outputLength < image.attributesSize then s.complete request statusBufferTooSmall none
    else if !ntSuccess retrieved then s.complete request retrieved none
    else if !ntSuccess copied then s.complete request copied none
    else s.complete request copied (some s.extension.keyboardAttributes)
  | .setFork values saved =>
    complete { s with filter := { s.filter with
      settings := winConfigured s.filter.settings values } } request saved none
  | .other => s.complete request statusNotImplemented none

/-- `upper` is what the initialization routine above returns, with `*TurnTranslationOn` -/
def initializationRoutine (s : Stack A) (upper : NtStatus × Bool) : Stack A :=
  if s.extension.upperInitializationRoutine ≠ 0 then
    { s with
      upperInits := s.upperInits ++
        [(s.extension.upperInitializationRoutine, s.extension.upperContext)]
      initialized := s.initialized ++ [if ntSuccess upper.1 then (upper.1, true) else upper] }
  else { s with initialized := s.initialized ++ [(statusSuccess, true)] }

/-- a step of the filter; `pass_event` calls the class service of the moment -/
def drive (s : Stack A) (act : FilterAct) : Option (Stack A) :=
  (s.filter.step act).map fun filter =>
    { s with
      filter := filter
      calls := s.calls ++ (filter.passedUp.drop s.filter.passedUp.length).map
        (s.extension.upperConnectData, ·) }

end Stack

/-- `requestCompletion i` and `fromRawPdo i` are about the `i`-th of the requests that wait -/
inductive StackAct (A : Type) where
  | internalDeviceControl (request : ℕ) (send : SendResult) (control : InternalControl)
  | requestCompletion (i : ℕ) (status : NtStatus) (length : ℕ) (copied : NtStatus) (attributes : A)
  | rawPdo (request : ℕ) (forwarded : NtStatus) (control : PdoControl)
  | fromRawPdo (i : ℕ)
  | initRoutine (upper : NtStatus × Bool)
  | filter (act : FilterAct)

namespace Stack
variable {A : Type}

/-- the port driver calls what it was given -/
def step (image : Image) (s : Stack A) : StackAct A → Option (Stack A)
  | .internalDeviceControl request send control =>
    some (s.evtIoInternalDeviceControl image request send control)
  | .requestCompletion i status length copied attributes =>
    (s.requests.awaited[i]?).map fun request =>
      requestCompletionRoutine image
        { s with requests := { s.requests with awaited := s.requests.awaited.eraseIdx i } }
        request status length copied attributes
  | .rawPdo request forwarded control =>
    some (s.evtIoDeviceControlForRawPdo request forwarded control)
  | .fromRawPdo i =>
    (s.requests.rawPdoQueue[i]?).map fun r =>
      evtIoDeviceControlFromRawPdo image
        { s with requests := { s.requests with
          rawPdoQueue := s.requests.rawPdoQueue.eraseIdx i } } r.1 r.2
  | .initRoutine upper =>
    if s.down.any Passed.isHook then some (s.initializationRoutine upper) else none
  | .filter (.serviceCallback packets) =>
    if s.down.any Passed.isConnect then s.drive (.serviceCallback packets) else none
  -- these come as requests
  | .filter (.setFork _) => none
  | .filter act => s.drive act

end Stack

/-! ## what a step does -/

section
variable {A : Type}

/-- the requests that the driver got -/
def arrivals (acts : List (StackAct A)) : List ℕ :=
  acts.filterMap fun
    | .internalDeviceControl request _ _ => some request
    | .rawPdo request _ _ => some request
    | _ => none

/-- a connection that comes with its data, and whether it could be sent down -/
def connectOf : StackAct A → Option (ConnectData × Bool)
  | .internalDeviceControl _ send (.keyboardConnect retrieved connectData) =>
    if ntSuccess retrieved then some (connectData, send.ret) else none
  | _ => none

def hookOf : StackAct A → Option HookKeyboard
  | .internalDeviceControl _ _ (.i8042HookKeyboard retrieved hook) =>
    if ntSuccess retrieved then some hook else none
  | _ => none

/-- a query of the attributes that was answered -/
def attributesOf (image : Image) : StackAct A → Option A
  | .requestCompletion _ status length copied attributes =>
    if (ntSuccess status && length ≥ image.attributesSize) && ntSuccess copied then some attributes
    else none
  | _ => none

/-- the arrays that the port driver reported -/
def callbackOf : StackAct A → Option (List KeyboardInputData)
  | .filter (.serviceCallback packets) => some packets
  | _ => none

/-- what the driver remembers after a step -/
def noted (image : Image) (e : DeviceExtension A) (a : StackAct A) : DeviceExtension A where
  upperConnectData :=
    match connectOf a with
    | some d => if e.upperConnectData.classService = 0 then d.1 else e.upperConnectData
    | none => e.upperConnectData
  upperContext :=
    match hookOf a with
    | some hook => hook.context
    | none => e.upperContext
  upperInitializationRoutine :=
    match hookOf a with
    | some hook =>
      if hook.initializationRoutine ≠ 0 then hook.initializationRoutine
      else e.upperInitializationRoutine
    | none => e.upperInitializationRoutine
  keyboardAttributes := (attributesOf image a).getD e.keyboardAttributes

/-- what the port driver gets in place of a connection -/
def Image.connectData (image : Image) : ConnectData := ⟨image.deviceObject, image.serviceCallback⟩

/-- the connections that the port driver gets -/
def connectionsOf (image : Image) (ds : List (ConnectData × Bool)) : List Passed :=
  (ds.filter Prod.snd).map fun _ => .connect image.connectData

/-- only one connection is allowed -/
def allowed (e : DeviceExtension A) (a : StackAct A) : List (ConnectData × Bool) :=
  if e.upperConnectData.classService = 0 then (connectOf a).toList else []

/-- what a step can do -/
structure Stepped (image : Image) (s : Stack A) (a : StackAct A) (s' : Stack A) : Prop where
  handles : s'.requests.handles.Perm (arrivals [a] ++ s.requests.handles)
  replies : ∃ new, s'.requests.completed = s.requests.completed ++ new ∧ ∀ x ∈ new,
    ∀ attributes, x.2.2 = some attributes → attributes = s.extension.keyboardAttributes
  extension : s'.extension = noted image s.extension a
  down : s'.down.filter Passed.isConnect
    = s.down.filter Passed.isConnect ++ connectionsOf image (allowed s.extension a)
  connected : (callbackOf a).isSome = true → s.down.any Passed.isConnect = true
  filter : s'.filter = s.filter ∧ callbackOf a = none ∨
    ∃ act, s.filter.step act = some s'.filter ∧ callbacksOf [act] = (callbackOf a).toList
  calls : s'.calls = s.calls ++ (s'.filter.passedUp.drop s.filter.passedUp.length).map
    (s.extension.upperConnectData, ·)
  upperInits : ∃ new, s'.upperInits = s.upperInits ++ new ∧ ∀ call ∈ new, call.1 ≠ 0 ∧
    call = (s.extension.upperInitializationRoutine, s.extension.upperContext)

namespace Requests
variable (r : Requests A) (request : ℕ)

theorem complete_perm (status : NtStatus) (reply : Option A) :
    (r.complete request status reply).handles.Perm (request :: r.handles) := by
  rw [List.perm_iff_count]
  intro x
  simp only [handles, complete, List.map_append, List.count_append, List.count_cons, List.map_cons,
    List.map_nil, List.count_nil]
  omega

theorem forget_perm : (r.forget request).handles.Perm (request :: r.handles) := by
  rw [List.perm_iff_count]
  intro x
  simp only [handles, forget, List.count_append, List.count_cons, List.count_nil]
  omega

theorem await_perm : (r.await request).handles.Perm (request :: r.handles) := by
  rw [List.perm_iff_count]
  intro x
  simp only [handles, await, List.count_append, List.count_cons, List.count_nil]
  omega

theorem enqueue_perm (control : PdoControl) :
    (r.enqueue request control).handles.Perm (request :: r.handles) := by
  rw [List.perm_iff_count]
  intro x
  simp only [handles, enqueue, List.map_append, List.count_append, List.count_cons, List.map_cons,
    List.map_nil, List.count_nil]
  omega

variable {r request}

/-- an awaited request comes back -/
theorem resume_perm {i : ℕ} (hi : r.awaited[i]? = some request) :
    r.handles.Perm (request :: handles { r with awaited := r.awaited.eraseIdx i }) := by
  obtain ⟨hlt, rfl⟩ := List.getElem?_eq_some_iff.mp hi
  rw [List.perm_iff_count]
  intro x
  have herase := (List.getElem_cons_eraseIdx_perm hlt).count_eq x
  simp only [handles, List.count_append, List.count_cons] at herase ⊢
  omega

/-- a request is taken from the queue -/
theorem dequeue_perm {i : ℕ} {control : PdoControl}
    (hi : r.rawPdoQueue[i]? = some (request, control)) :
    r.handles.Perm (request :: handles { r with rawPdoQueue := r.rawPdoQueue.eraseIdx i }) := by
  obtain ⟨hlt, hget⟩ := List.getElem?_eq_some_iff.mp hi
  rw [List.perm_iff_count]
  intro x
  have herase := ((List.getElem_cons_eraseIdx_perm hlt).map Prod.fst).count_eq x
  rw [hget] at herase
  simp only [handles, List.count_append, List.count_cons, List.map_cons] at herase ⊢
  omega

end Requests

/-- a routine has the request in hand, and has noted what it says -/
structure Held (image : Image) (s : Stack A) (a : StackAct A) (request : ℕ) (s' : Stack A) :
    Prop where
  handles : (request :: s'.requests.handles).Perm (arrivals [a] ++ s.requests.handles)
  completed : s'.requests.completed = s.requests.completed
  extension : s'.extension = noted image s.extension a
  down : s'.down = s.down
  callback : callbackOf a = none
  filter : s'.filter = s.filter ∨ ∃ values, s.filter.step (.setFork values) = some s'.filter
  calls : s'.calls = s.calls
  upperInits : s'.upperInits = s.upperInits

section
variable {image : Image} {s s' t : Stack A} {a : StackAct A} {request : ℕ}

/-- then it does something with the request, and perhaps sends it down -/
theorem Held.stepped (h : Held image s a request s') (passed : List Passed) {r : Requests A}
    (hr : r.handles.Perm (request :: s'.requests.handles))
    (hreplies : ∃ new, r.completed = s.requests.completed ++ new ∧ ∀ x ∈ new,
      ∀ attributes, x.2.2 = some attributes → attributes = s.extension.keyboardAttributes)
    (hpassed : passed.filter Passed.isConnect = connectionsOf image (allowed s.extension a)) :
    Stepped image s a { s' with requests := r, down := s'.down ++ passed } where
  handles := hr.trans h.handles
  replies := hreplies
  extension := h.extension
  down := by rw [List.filter_append, h.down, hpassed]
  connected hc := by
    rw [h.callback] at hc
    cases hc
  filter := by
    rcases h.filter with hsame | ⟨values, hset⟩
    · exact .inl ⟨hsame, h.callback⟩
    · refine .inr ⟨_, hset, ?_⟩
      rw [h.callback]
      rfl
  calls := by
    have hup : s'.filter.passedUp = s.filter.passedUp := by
      rcases h.filter with hsame | ⟨values, hset⟩
      · rw [hsame]
      · rw [← Option.some.inj hset]
        rfl
    dsimp only
    rw [hup, List.drop_length, h.calls]
    exact (List.append_nil _).symm
  upperInits := ⟨[], by rw [List.append_nil, h.upperInits], nofun⟩

theorem Held.complete (h : Held image s a request s') {status : NtStatus} {reply : Option A}
    (hreply : ∀ attributes, reply = some attributes → attributes = s.extension.keyboardAttributes)
    (hnone : connectionsOf image (allowed s.extension a) = []) :
    Stepped image s a (s'.complete request status reply) := by
  have hstepped := h.stepped [] (s'.requests.complete_perm request status reply) ?_
    hnone.symm
  · rwa [List.append_nil] at hstepped
  · refine ⟨[(request, status, reply)], ?_, fun x hx => ?_⟩
    · rw [Requests.complete, h.completed]
    · obtain rfl := List.mem_singleton.mp hx
      exact hreply

/-- with nothing copied out -/
theorem Held.fail (h : Held image s a request s') {status : NtStatus}
    (hnone : connectionsOf image (allowed s.extension a) = []) :
    Stepped image s a (s'.complete request status none) :=
  h.complete (by rintro _ ⟨⟩) hnone

theorem Held.send (h : Held image s a request s') {passed : Passed} {send : SendResult}
    (hpassed : (if send.ret then [passed] else []).filter Passed.isConnect
      = connectionsOf image (allowed s.extension a)) :
    Stepped image s a (s'.sendAndForget request passed send) := by
  rw [Stack.sendAndForget]
  by_cases hret : send.ret = true
  · rw [if_pos hret] at hpassed ⊢
    exact h.stepped _ (s'.requests.forget_perm request)
      ⟨[], by rw [Requests.forget, h.completed, List.append_nil], nofun⟩ hpassed
  · rw [if_neg hret] at hpassed ⊢
    exact h.fail hpassed.symm

theorem noted_same {e : DeviceExtension A} (hc : connectOf a = none) (hh : hookOf a = none)
    (ha : attributesOf image a = none) : noted image e a = e := by
  simp only [noted, hc, hh, ha]
  rfl

theorem allowed_none {e : DeviceExtension A} (hc : connectOf a = none) :
    connectionsOf image (allowed e a) = [] := by
  rw [allowed, hc]
  split_ifs <;> rfl

/-- a request that arrives -/
theorem held_arrival {e : DeviceExtension A} (ha : arrivals [a] = [request])
    (hcb : callbackOf a = none) (he : e = noted image s.extension a) :
    Held image s a request { s with extension := e } where
  handles := by
    rw [ha]
    exact .refl _
  completed := rfl
  extension := he
  down := rfl
  callback := hcb
  filter := .inl rfl
  calls := rfl
  upperInits := rfl

theorem internal_stepped (s : Stack A) (request : ℕ) (send : SendResult)
    (control : InternalControl) :
    Stepped image s (.internalDeviceControl request send control)
      (s.evtIoInternalDeviceControl image request send control) := by
  have hnew : ∀ e, e = noted image s.extension (.internalDeviceControl request send control) →
      Held image s (.internalDeviceControl request send control) request
        { s with extension := e } := fun e => held_arrival rfl rfl
  cases control with
  | keyboardConnect retrieved connectData =>
    simp only [Stack.evtIoInternalDeviceControl]
    by_cases hone : s.extension.upperConnectData.classService = 0
    · rw [if_neg (not_not.mpr hone)]
      by_cases hr : ntSuccess retrieved = true
      · rw [if_pos hr]
        refine (hnew _ ?_).send ?_
        · simp [noted, connectOf, hookOf, attributesOf, hr, hone]
        · simp only [allowed, if_pos hone, connectOf, if_pos hr, connectionsOf]
          cases send.ret <;> rfl
      · have hc : connectOf (.internalDeviceControl request send
            (.keyboardConnect retrieved connectData) : StackAct A) = none := by
          simp [connectOf, hr]
        rw [if_neg hr]
        exact (hnew _ (noted_same hc rfl rfl).symm).fail (allowed_none hc)
    · rw [if_pos hone]
      refine (hnew s.extension ?_).fail ?_
      · simp only [noted, if_neg hone, hookOf, attributesOf]
        cases connectOf (.internalDeviceControl request send
          (.keyboardConnect retrieved connectData) : StackAct A) <;> rfl
      · rw [allowed, if_neg hone]
        rfl
  | keyboardDisconnect =>
    exact (hnew _ (noted_same rfl rfl rfl).symm).fail (allowed_none rfl)
  | i8042HookKeyboard retrieved hook =>
    simp only [Stack.evtIoInternalDeviceControl]
    by_cases hr : ntSuccess retrieved = true
    · rw [if_pos hr]
      refine (hnew _ ?_).send ?_
      · simp only [noted, connectOf, hookOf, if_pos hr, attributesOf]
        rfl
      · rw [allowed_none rfl]
        cases send.ret <;> rfl
    · rw [if_neg hr]
      exact (hnew _ (noted_same rfl (by simp [hookOf, hr]) rfl).symm).fail (allowed_none rfl)
  | keyboardQueryAttributes retrieved formatted =>
    have hheld := hnew _ (noted_same rfl rfl rfl).symm
    simp only [Stack.evtIoInternalDeviceControl]
    split_ifs
    · exact hheld.fail (allowed_none rfl)
    · exact hheld.fail (allowed_none rfl)
    · exact hheld.stepped _ (s.requests.await_perm request)
        ⟨[], (List.append_nil _).symm, nofun⟩ (allowed_none rfl).symm
    · exact hheld.fail (allowed_none rfl)
  | other =>
    refine (hnew _ (noted_same rfl rfl rfl).symm).send ?_
    rw [allowed_none rfl]
    cases send.ret <;> rfl

theorem rawPdo_stepped (s : Stack A) (request : ℕ) (forwarded : NtStatus) (control : PdoControl) :
    Stepped image s (.rawPdo request forwarded control)
      (s.evtIoDeviceControlForRawPdo request forwarded control) := by
  have hheld : Held image s (.rawPdo request forwarded control) request s :=
    held_arrival rfl rfl (noted_same rfl rfl rfl).symm
  have henqueue : Stepped image s (.rawPdo request forwarded control)
      { s with requests := s.requests.enqueue request control } := by
    have h := hheld.stepped [] (s.requests.enqueue_perm request control)
      ⟨[], (List.append_nil _).symm, nofun⟩ (allowed_none rfl).symm
    rwa [List.append_nil] at h
  cases control with
  | other => exact hheld.fail (allowed_none rfl)
  | _ =>
    simp only [Stack.evtIoDeviceControlForRawPdo]
    split_ifs
    · exact henqueue
    · exact hheld.fail (allowed_none rfl)

theorem completion_stepped {i : ℕ} (hi : s.requests.awaited[i]? = some request)
    (status : NtStatus) (length : ℕ) (copied : NtStatus) (attributes : A) :
    Stepped image s (.requestCompletion i status length copied attributes)
      (Stack.requestCompletionRoutine image
        { s with requests := { s.requests with awaited := s.requests.awaited.eraseIdx i } }
        request status length copied attributes) := by
  have hheld : ∀ e,
      e = noted image s.extension (.requestCompletion i status length copied attributes) →
      Held image s (.requestCompletion i status length copied attributes) request
        { s with
          extension := e
          requests := { s.requests with awaited := s.requests.awaited.eraseIdx i } } :=
    fun e he => ⟨(Requests.resume_perm hi).symm, rfl, he, rfl, rfl, .inl rfl, rfl, rfl⟩
  rw [Stack.requestCompletionRoutine]
  by_cases hlong : (ntSuccess status && decide (length ≥ image.attributesSize)) = true
  · rw [if_pos hlong]
    refine (hheld _ ?_).fail (allowed_none rfl)
    simp only [noted, connectOf, hookOf, attributesOf, hlong, Bool.true_and]
    split_ifs <;> rfl
  · rw [if_neg hlong]
    refine (hheld s.extension ?_).fail (allowed_none rfl)
    rw [noted_same rfl rfl (by simp [attributesOf, hlong])]

theorem fromRawPdo_stepped {i : ℕ} {control : PdoControl}
    (hi : s.requests.rawPdoQueue[i]? = some (request, control)) :
    Stepped image s (.fromRawPdo i)
      (Stack.evtIoDeviceControlFromRawPdo image
        { s with requests := { s.requests with
          rawPdoQueue := s.requests.rawPdoQueue.eraseIdx i } } request control) := by
  have hheld : ∀ filter,
      (filter = s.filter ∨ ∃ values, s.filter.step (.setFork values) = some filter) →
      Held image s (.fromRawPdo i) request { s with
        filter := filter
        requests := { s.requests with rawPdoQueue := s.requests.rawPdoQueue.eraseIdx i } } :=
    fun filter hf => ⟨(Requests.dequeue_perm hi).symm, rfl, (noted_same rfl rfl rfl).symm, rfl,
      rfl, hf, rfl, rfl⟩
  have hnone : connectionsOf image (allowed s.extension (.fromRawPdo i)) = [] := allowed_none rfl
  cases control with
  | getKeyboardAttributes outputLength retrieved copied =>
    have hsame := hheld s.filter (.inl rfl)
    simp only [Stack.evtIoDeviceControlFromRawPdo]
    split_ifs
    · exact hsame.fail hnone
    · exact hsame.fail hnone
    · exact hsame.fail hnone
    · exact hsame.complete (fun _ h => (Option.some.inj h).symm) hnone
  | setFork values saved => exact (hheld _ (.inr ⟨values, rfl⟩)).fail hnone
  | other => exact (hheld s.filter (.inl rfl)).fail hnone

theorem initRoutine_stepped (s : Stack A) (upper : NtStatus × Bool) :
    Stepped image s (.initRoutine upper) (s.initializationRoutine upper) := by
  have hstepped : ∀ inits initialized, (∃ new, inits = s.upperInits ++ new ∧ ∀ call ∈ new,
        call.1 ≠ 0 ∧
          call = (s.extension.upperInitializationRoutine, s.extension.upperContext)) →
      Stepped image s (.initRoutine upper)
        { s with upperInits := inits, initialized := initialized } := by
    intro inits initialized hinits
    refine ⟨.refl _, ⟨[], (List.append_nil _).symm, nofun⟩, (noted_same rfl rfl rfl).symm, ?_, nofun,
      .inl ⟨rfl, rfl⟩, ?_, hinits⟩
    · rw [allowed_none rfl, List.append_nil]
    · dsimp only
      rw [List.drop_length]
      exact (List.append_nil _).symm
  rw [Stack.initializationRoutine]
  by_cases hinit : s.extension.upperInitializationRoutine ≠ 0
  · rw [if_pos hinit]
    refine hstepped _ _ ⟨_, rfl, fun call hcall => ?_⟩
    obtain rfl := List.mem_singleton.mp hcall
    exact ⟨hinit, rfl⟩
  · rw [if_neg hinit]
    exact hstepped _ _ ⟨[], (List.append_nil _).symm, nofun⟩

theorem drive_stepped {act : FilterAct} {f : Filter} (hf : s.filter.step act = some f)
    (hconnected : (callbackOf (.filter act : StackAct A)).isSome = true →
      s.down.any Passed.isConnect = true) :
    Stepped image s (.filter act) { s with
      filter := f
      calls := s.calls ++ (f.passedUp.drop s.filter.passedUp.length).map
        (s.extension.upperConnectData, ·) } where
  handles := .refl _
  replies := ⟨[], (List.append_nil _).symm, nofun⟩
  extension := (noted_same rfl rfl rfl).symm
  down := by rw [allowed_none rfl, List.append_nil]
  connected := hconnected
  filter := .inr ⟨act, hf, by cases act <;> rfl⟩
  calls := rfl
  upperInits := ⟨[], (List.append_nil _).symm, nofun⟩

/-- **One step**, whichever it is. -/
theorem step_stepped (h : s.step image a = some s') : Stepped image s a s' := by
  cases a with
  | internalDeviceControl request send control =>
    cases h
    exact internal_stepped ..
  | requestCompletion i status length copied attributes =>
    obtain ⟨request, hi, rfl⟩ := Option.map_eq_some_iff.mp h
    exact completion_stepped hi ..
  | rawPdo request forwarded control =>
    cases h
    exact rawPdo_stepped ..
  | fromRawPdo i =>
    obtain ⟨⟨request, control⟩, hi, rfl⟩ := Option.map_eq_some_iff.mp h
    exact fromRawPdo_stepped hi
  | initRoutine upper =>
    obtain ⟨-, h⟩ := Option.ite_none_right_eq_some.mp h
    obtain rfl := Option.some.inj h
    exact initRoutine_stepped s upper
  | filter act =>
    cases act with
    | serviceCallback packets =>
      obtain ⟨hdown, h⟩ := Option.ite_none_right_eq_some.mp h
      obtain ⟨f, hf, rfl⟩ := Option.map_eq_some_iff.mp h
      exact drive_stepped hf fun _ => hdown
    | setFork values => cases h
    | _ =>
      obtain ⟨f, hf, rfl⟩ := Option.map_eq_some_iff.mp h
      exact drive_stepped hf nofun

end

end

end ForkNS
