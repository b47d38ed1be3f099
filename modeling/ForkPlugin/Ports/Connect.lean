import ForkPlugin.Ports.Stack

/-!
# Requests and connections over whole runs

What the driver does with the requests, the connection and the packets, however they interleave.

* `admitted`            the connections that are not refused: up to the first with a class service;
* `remembered`          what the driver remembers, from the requests so far;
* `requests_accounted`  every request is completed once, or waits in one place, and what is looked
                        up was remembered at that moment;
* `Linked`              the connections, the packets that were reported and those that went up;
* `connections_safe`    packets go up to an admitted connection, and only after there is one.
-/

namespace ForkNS

open Runs Machine

section
variable {A : Type}

/-! ## connections -/

/-- the connections that are not refused: up to the first that has a class service -/
def admitted : List (ConnectData × Bool) → List (ConnectData × Bool)
  | [] => []
  | d :: ds => if d.1.classService = 0 then d :: admitted ds else [d]

theorem admitted_snoc (ds : List (ConnectData × Bool)) (d : ConnectData × Bool) :
    admitted (ds ++ [d]) = if ∀ d ∈ ds, d.1.classService = 0 then admitted ds ++ [d]
      else admitted ds := by
  induction ds with
  | nil =>
    simp only [List.nil_append, admitted]
    split_ifs <;> simp_all
  | cons d' ds ih =>
    rw [List.cons_append, admitted, admitted, ih]
    by_cases hd : d'.1.classService = 0
    · simp only [hd, if_true, List.forall_mem_cons, true_and]
      split_ifs <;> rfl
    · simp only [hd, if_false, List.forall_mem_cons, false_and]

/-- the connection that stays -/
def lastConnect (ds : List (ConnectData × Bool)) : ConnectData :=
  ((admitted ds).map Prod.fst).getLastD ⟨0, 0⟩

theorem lastConnect_mem {ds : List (ConnectData × Bool)} (h : admitted ds ≠ []) :
    lastConnect ds ∈ (admitted ds).map Prod.fst := by
  have hne : (admitted ds).map Prod.fst ≠ [] := fun hnil => h (List.map_eq_nil_iff.mp hnil)
  rw [lastConnect, List.getLastD_eq_getLast?, List.getLast?_eq_some_getLast hne]
  exact List.getLast_mem hne

theorem lastConnect_null {ds : List (ConnectData × Bool)} :
    (lastConnect ds).classService = 0 ↔ ∀ d ∈ ds, d.1.classService = 0 := by
  induction ds using List.reverseRecOn with
  | nil => simp [lastConnect, admitted]
  | append_singleton ds d ih =>
    rw [lastConnect, admitted_snoc]
    by_cases hnull : ∀ d ∈ ds, d.1.classService = 0
    · rw [if_pos hnull, List.map_append]
      simp only [List.map_cons, List.map_nil, List.getLastD_concat, List.forall_mem_append,
        List.forall_mem_singleton]
      exact ⟨fun h => ⟨hnull, h⟩, fun h => h.2⟩
    · rw [if_neg hnull]
      refine ⟨fun h => absurd (ih.mp h) hnull, fun h => absurd (fun d hd => ?_) hnull⟩
      exact h d (List.mem_append_left _ hd)

theorem filterMap_snoc {β γ : Type} (f : β → Option γ) (l : List β) (x : β) :
    (l ++ [x]).filterMap f = l.filterMap f ++ (f x).toList := by
  rw [List.filterMap_append]
  cases h : f x <;> simp [h]

theorem lastConnect_snoc (ds : List (ConnectData × Bool)) (d : ConnectData × Bool) :
    lastConnect (ds ++ [d])
      = if (lastConnect ds).classService = 0 then d.1 else lastConnect ds := by
  rw [if_congr lastConnect_null rfl rfl, lastConnect, admitted_snoc]
  split_ifs
  · rw [List.map_append]
    exact List.getLastD_concat ..
  · rfl

/-! ## what is remembered -/

/-- what the driver remembers: the connection that stays, the last context and the last
initialization routine that is not `NULL`, and the attributes that were read last -/
def remembered [Zero A] (image : Image) (acts : List (StackAct A)) : DeviceExtension A where
  upperConnectData := lastConnect (acts.filterMap connectOf)
  upperContext := ((acts.filterMap hookOf).map HookKeyboard.context).getLastD 0
  upperInitializationRoutine :=
    (((acts.filterMap hookOf).map HookKeyboard.initializationRoutine).filter (· ≠ 0)).getLastD 0
  keyboardAttributes := (acts.filterMap (attributesOf image)).getLastD 0

variable [Zero A] {image : Image} {settings : Settings ℤ} {c : ℕ} {acts : List (StackAct A)}
  {s s' : Stack A} {a : StackAct A}

theorem remembered_snoc (acts : List (StackAct A)) (a : StackAct A) :
    remembered image (acts ++ [a]) = noted image (remembered image acts) a := by
  simp only [remembered, noted, filterMap_snoc]
  congr 1
  · rcases connectOf a with - | d
    · rw [Option.toList_none, List.append_nil]
    · exact lastConnect_snoc _ d
  · rcases hookOf a with - | hook
    · rw [Option.toList_none, List.append_nil]
    · rw [Option.toList_some, List.map_append]
      exact List.getLastD_concat ..
  · rcases hookOf a with - | hook
    · rw [Option.toList_none, List.append_nil]
    · rw [Option.toList_some, List.map_append, List.filter_append]
      by_cases hinit : hook.initializationRoutine = 0
      · simp [hinit]
      · simp [hinit]
  · rcases attributesOf image a with - | attributes
    · rw [Option.toList_none, List.append_nil]
      rfl
    · exact List.getLastD_concat ..

/-! ## every request -/

theorem handles_run (h : runs (Stack.step image) (Stack.create settings c) acts = some s) :
    s.requests.handles.Perm (arrivals acts) := by
  refine runs_ind (P := fun acts s => s.requests.handles.Perm (arrivals acts)) (.refl _) ?_ acts s h
  intro acts u a v hu hv
  have hsnoc : arrivals (acts ++ [a]) = arrivals acts ++ arrivals [a] := List.filterMap_append
  rw [hsnoc]
  exact (step_stepped hv).handles.trans ((hu.append_left _).trans List.perm_append_comm)

theorem remembered_run (h : runs (Stack.step image) (Stack.create settings c) acts = some s) :
    s.extension = remembered image acts := by
  refine runs_ind (P := fun acts s => s.extension = remembered image acts) rfl ?_ acts s h
  intro acts u a v hu hv
  rw [(step_stepped hv).extension, hu, remembered_snoc]

/-- a reply that is given, or a routine that is called, by the step after `pre` -/
theorem lookups_run (h : runs (Stack.step image) (Stack.create settings c) acts = some s) :
    (∀ i x attributes, s.requests.completed[i]? = some x → x.2.2 = some attributes →
      ∃ pre, AddedAt (Stack.step image) (Stack.create settings c)
          (fun u => u.requests.completed) acts i pre ∧
        attributes = (remembered image pre).keyboardAttributes) ∧
    ∀ i call, s.upperInits[i]? = some call →
      ∃ pre, AddedAt (Stack.step image) (Stack.create settings c)
          (fun u => u.upperInits) acts i pre ∧
        call.1 ≠ 0 ∧ call = ((remembered image pre).upperInitializationRoutine,
          (remembered image pre).upperContext) := by
  constructor
  · intro i x attributes hx hreply
    suffices hadded : ∃ pre, AddedAt (Stack.step image) (Stack.create settings c)
        (fun u => u.requests.completed) acts i pre ∧ ∀ attributes, x.2.2 = some attributes →
          attributes = (remembered image pre).keyboardAttributes by
      obtain ⟨pre, hpre, heq⟩ := hadded
      exact ⟨pre, hpre, heq attributes hreply⟩
    refine runs_added (f := fun u : Stack A => u.requests.completed)
      (P := fun pre x => ∀ attributes, x.2.2 = some attributes →
        attributes = (remembered image pre).keyboardAttributes) rfl (fun as u a v hu ha => ?_)
      acts s h i x hx
    rw [← remembered_run hu]
    exact (step_stepped ha).replies
  · intro i call hcall
    refine runs_added (f := fun u : Stack A => u.upperInits)
      (P := fun pre call => call.1 ≠ 0 ∧ call = ((remembered image pre).upperInitializationRoutine,
        (remembered image pre).upperContext)) rfl (fun as u a v hu ha => ?_) acts s h i call hcall
    rw [← remembered_run hu]
    exact (step_stepped ha).upperInits

/-- **Every request is accounted for**, whatever fails and in whatever order they come back: each is
completed once, or it waits for the port driver, or was given away to it, or is in the queue.
What the driver remembers is the connection that stays, the last hook, and the attributes that came
back last; an application that asks for these gets, in the step that completes its request, what
they are then; and the initialization routine above that a step calls is the one that is remembered
then, with its context, and not `NULL`. -/
theorem requests_accounted
    (h : runs (Stack.step image) (Stack.create settings c) acts = some s) :
    s.requests.handles.Perm (arrivals acts) ∧ s.extension = remembered image acts ∧
    (∀ i x attributes, s.requests.completed[i]? = some x → x.2.2 = some attributes →
      ∃ pre, AddedAt (Stack.step image) (Stack.create settings c)
          (fun u => u.requests.completed) acts i pre ∧
        attributes = (remembered image pre).keyboardAttributes) ∧
    ∀ i call, s.upperInits[i]? = some call →
      ∃ pre, AddedAt (Stack.step image) (Stack.create settings c)
          (fun u => u.upperInits) acts i pre ∧
        call.1 ≠ 0 ∧ call = ((remembered image pre).upperInitializationRoutine,
          (remembered image pre).upperContext) :=
  ⟨handles_run h, remembered_run h, lookups_run h⟩

/-! ## the packets -/

/-- the machine has room for what the step brings -/
def Stack.Fits (image : Image) (c : ℕ) (s : Stack A) (a : StackAct A) : Prop :=
  ∀ s' ∈ s.step image a, s'.filter.driver.sys.machine.tq.buffer.contentsSize ≤ c

omit [Zero A] in
instance Stack.decidableFits : Decidable (s.Fits image c a) :=
  inferInstanceAs (Decidable (∀ s' ∈ _, _))

/-- what holds of the packets after every step -/
structure Linked (image : Image) (c : ℕ) (acts : List (StackAct A)) (s : Stack A) : Prop where
  remembers : s.extension = remembered image acts
  down : s.down.filter Passed.isConnect
    = connectionsOf image (admitted (acts.filterMap connectOf))
  /-- nothing is reported before a connection -/
  before : admitted (acts.filterMap connectOf) = [] → acts.filterMap callbackOf = []
  passes : ∃ facts, callbacksOf facts = acts.filterMap callbackOf ∧ Passes c facts s.filter
  calls : s.calls.map Prod.snd = s.filter.passedUp
  called : ∀ call ∈ s.calls, call.1 ∈ (admitted (acts.filterMap connectOf)).map Prod.fst

theorem Linked.create (hc : 2 ≤ c) : Linked image c [] (Stack.create settings c : Stack A) where
  remembers := rfl
  down := rfl
  before _ := rfl
  passes := ⟨[], rfl, .create hc, ⟨[], rfl, List.nil_sublist _, rfl⟩, rfl⟩
  calls := rfl
  called := nofun

/-- the connection of a step, if it is allowed -/
theorem admitted_step (hs : s.extension = remembered image acts) :
    admitted ((acts ++ [a]).filterMap connectOf)
      = admitted (acts.filterMap connectOf) ++ allowed s.extension a := by
  have hnull : s.extension.upperConnectData.classService = 0 ↔
      ∀ d ∈ acts.filterMap connectOf, d.1.classService = 0 := by
    rw [hs]
    exact lastConnect_null
  rw [filterMap_snoc, allowed, if_congr hnull rfl rfl]
  rcases connectOf a with - | d
  · rw [Option.toList_none, List.append_nil]
    split_ifs <;> exact (List.append_nil _).symm
  · rw [Option.toList_some, admitted_snoc]
    split_ifs
    · rfl
    · exact (List.append_nil _).symm

omit [Zero A] in
/-- the packets go on in the filter -/
theorem Stepped.passes (h : Stepped image s a s') {facts : List FilterAct}
    (hpasses : Passes c facts s.filter)
    (hfit : s'.filter.driver.sys.machine.tq.buffer.contentsSize ≤ c) :
    ∃ facts', callbacksOf facts' = callbacksOf facts ++ (callbackOf a).toList ∧
      Passes c facts' s'.filter ∧ ∃ new, s'.filter.passedUp = s.filter.passedUp ++ new := by
  rcases h.filter with ⟨hsame, hnone⟩ | ⟨act, hact, hcb⟩
  · rw [hsame, hnone]
    exact ⟨facts, (List.append_nil _).symm, hpasses, [], (List.append_nil _).symm⟩
  · exact ⟨facts ++ [act], by rw [callbacksOf_snoc, hcb], hpasses.step hact hfit,
      Filter.step_passedUp hact⟩

theorem Linked.step (h : Linked image c acts s) (hs : s.step image a = some s')
    (hfit : s'.filter.driver.sys.machine.tq.buffer.contentsSize ≤ c) :
    Linked image c (acts ++ [a]) s' := by
  have hstep := step_stepped hs
  have hadmitted := admitted_step (a := a) h.remembers
  obtain ⟨facts, hfacts, hpasses⟩ := h.passes
  obtain ⟨facts', hfacts', hpasses', new, hnew⟩ := hstep.passes hpasses hfit
  have hcb : callbacksOf facts' = (acts ++ [a]).filterMap callbackOf := by
    rw [hfacts', hfacts, filterMap_snoc]
  have hbefore : admitted (acts.filterMap connectOf) = [] →
      (acts ++ [a]).filterMap callbackOf = [] := by
    intro hnone
    rw [filterMap_snoc, h.before hnone, List.nil_append]
    rcases hc : callbackOf a with - | packets
    · rfl
    · -- the port driver was given the callback
      obtain ⟨p, hp, hp'⟩ := List.any_eq_true.mp (hstep.connected (by rw [hc]; rfl))
      have hmem := List.mem_filter.mpr ⟨hp, hp'⟩
      rw [h.down, hnone] at hmem
      cases hmem
  have hcalls : s'.calls = s.calls ++ new.map (s.extension.upperConnectData, ·) := by
    rw [hstep.calls, hnew, List.drop_left]
  refine ⟨?_, ?_, ?_, ⟨facts', hcb, hpasses'⟩, ?_, ?_⟩
  · rw [hstep.extension, h.remembers, remembered_snoc]
  · rw [hstep.down, h.down, hadmitted, connectionsOf, connectionsOf, connectionsOf,
      List.filter_append, List.map_append]
  · rw [hadmitted]
    exact fun hnone => hbefore (List.append_eq_nil_iff.mp hnone).1
  · rw [hcalls, List.map_append, h.calls, hnew, List.map_map]
    congr 1
    exact List.map_id new
  · rw [hcalls, hadmitted, List.map_append]
    intro call hcall
    rw [List.mem_append]
    left
    rcases List.mem_append.mp hcall with hcall | hcall
    · exact h.called call hcall
    · -- something goes up, so something was reported
      obtain ⟨packet, hpacket, rfl⟩ := List.mem_map.mp hcall
      have hne : admitted (acts.filterMap connectOf) ≠ [] := by
        intro hnone
        have hsilent := hpasses'.silent (by rw [reported, hcb, hbefore hnone]; rfl)
        rw [hnew, List.append_eq_nil_iff] at hsilent
        rw [hsilent.2] at hpacket
        cases hpacket
      show s.extension.upperConnectData ∈ _
      rw [h.remembers]
      exact lastConnect_mem hne

theorem linked_run (hc : 2 ≤ c)
    (hfit : EachStep (Stack.step image) (Stack.create settings c) (Stack.Fits image c) acts)
    (h : runs (Stack.step image) (Stack.create settings c) acts = some s) :
    Linked image c acts s := by
  refine runs_each (R := Linked image c) (.create hc) ?_ hfit h
  exact fun _ _ _ v _ hu hfits hv => hu.step hv (hfits v hv)

end

/-- an application lets the key 30 fork; two class drivers connect, and a key is typed -/
def servedRun : List (StackAct ℕ) :=
  [.rawPdo 1 0 (.setFork (valuesOf [21, 30, 29]) 0), .fromRawPdo 0,
    .internalDeviceControl 2 ⟨true, 0⟩ (.keyboardConnect 0 ⟨70, 71⟩),
    .internalDeviceControl 3 ⟨true, 0⟩ (.keyboardConnect 0 ⟨80, 81⟩),
    .internalDeviceControl 4 ⟨true, 0⟩ (.keyboardQueryAttributes 0 0),
    .filter (.serviceCallback [⟨0, 48, 0, 0, 0⟩, ⟨0, 30, 0, 0, 7⟩]), .filter (.acceptEvent 100)]
    ++ List.replicate 8 (.filter .tick) ++ [.requestCompletion 0 0 28 0 5, .rawPdo 6 0
      (.getKeyboardAttributes 28 0 0), .fromRawPdo 0, .filter (.acceptEvent 120)]
    ++ List.replicate 7 (.filter .tick)

/-- where they are in memory -/
def someImage : Image := ⟨1000, 1001, 1002, 1003, 28⟩

theorem requests_accounted_served : ∃ s,
    runs (Stack.step someImage) (Stack.create (forksOnly fun _ => 0) 4) servedRun = some s ∧
    s.requests.handles = [1, 3, 4, 6, 2] ∧ s.requests.handles.Perm (arrivals servedRun) ∧
    s.requests.completed[3]? = some (6, statusSuccess, some 5) ∧
    ∃ pre, AddedAt (Stack.step someImage) (Stack.create (forksOnly fun _ => 0) 4)
        (fun u => u.requests.completed) servedRun 3 pre ∧
      5 = (remembered someImage pre).keyboardAttributes := by
  have hrun := Option.eq_some_of_isSome
    (o := runs (Stack.step someImage) (Stack.create (forksOnly fun _ => 0) 4) servedRun) (by decide)
  obtain ⟨hperm, -, hreplies, -⟩ := requests_accounted hrun
  exact ⟨_, hrun, by decide, hperm, by decide,
    hreplies 3 (6, statusSuccess, some 5) 5 (by decide) rfl⟩

end ForkNS
