import Dousi.Executor.Services

/-!
# Who owns what a registered handler refers to

`created_services_` and every `DousiService` wrapper share the ownership of the service
objects. The wrappers themselves belong to the scopes that called `CreateService`, and
`RegisterMethod` binds the bare address of a wrapper. An address may be used again.
`PerformRequest` copies a handler under `mutex_` and calls the copy after it has given the
mutex back, so a thread may have a handler in hand that is not registered any more.
-/
namespace Dousi.Executor.Lifetimes

open Dousi.Lib.Word
open Dousi.Lib.Transition
open Services (RemoteMethod Bound Registry Built)

variable {M : Type}

/-- A `DousiService` and its `service_object_`. `number` tells wrappers at one address
apart. -/
structure Wrapper where
  number : Nat
  serviceObject : Nat
  deriving DecidableEq

/-- An entry of `registered_methods_`; `wrapper` is what was at the address when it was
made, a history. -/
structure Entry (M : Type) where
  method : M
  serviceInstance : Nat
  wrapper : Wrapper

/-- A handler that was run, and what it found at the address it is bound to. -/
structure Run (M : Type) where
  entry : Entry M
  found : Option Wrapper

/-- Where a thread is in `PerformRequest`: it has copied the handler, or runs it. -/
inductive Job (M : Type) where
  | idle
  | bound (method : Entry M)
  | running (method : Entry M)

/-- The copy of the handler that the thread has. -/
def Job.method : Job M → Option (Entry M)
  | .idle => none
  | .bound method | .running method => some method

/-- `memory` holds the wrappers that are alive. Service object `i` was made by the `i`-th
`CreateService`; `destroyed` and `ran` are histories. -/
structure State (M : Type) where
  createdServices : Bytes → Option Nat
  registeredMethods : Bytes → Option (Entry M)
  memory : Nat → Option Wrapper
  created : Nat
  jobs : Nat → Job M
  destroyed : List Nat
  ran : List (Run M)

inductive Op (M : Type) where
  | createService (serviceName : Bytes) (address : Nat)
  | registerMethod (address : Nat) (remoteMethod : RemoteMethod M)
  | destroy (address : Nat)
  | lookup (thread : Nat) (methodName : Bytes)
  | call (thread : Nat)
  | finish (thread : Nat)

def empty : State M :=
  ⟨fun _ => none, fun _ => none, fun _ => none, 0, fun _ => .idle, [], []⟩

def step (s : State M) : Op M → Option (State M)
  | .createService serviceName address =>
    match s.memory address with
    | some _ => none
    | none => some { s with
        createdServices := Function.update s.createdServices serviceName (some s.created)
        memory := Function.update s.memory address (some ⟨s.created, s.created⟩)
        created := s.created + 1 }
  | .registerMethod address remoteMethod =>
    match s.memory address with
    | none => none
    | some wrapper => some { s with
        registeredMethods := Function.update s.registeredMethods remoteMethod.methodName
          (some ⟨remoteMethod.method, address, wrapper⟩) }
  | .destroy address =>
    match s.memory address with
    | none => none
    | some wrapper => some { s with
        memory := Function.update s.memory address none
        destroyed := s.destroyed ++ [wrapper.number] }
  | .lookup thread methodName =>
    match s.jobs thread, s.registeredMethods methodName with
    | .idle, some method =>
      some { s with jobs := Function.update s.jobs thread (.bound method) }
    -- the call of an empty std::function ends the process
    | _, _ => none
  | .call thread =>
    match s.jobs thread with
    | .bound method => some { s with
        jobs := Function.update s.jobs thread (.running method)
        ran := s.ran ++ [⟨method, s.memory method.serviceInstance⟩] }
    | _ => none
  | .finish thread =>
    match s.jobs thread with
    | .running _ => some { s with jobs := Function.update s.jobs thread .idle }
    | _ => none

/-- What a step can do. -/
inductive Moves (s : State M) : Op M → State M → Prop
  | createService {serviceName : Bytes} {address : Nat} : s.memory address = none →
      Moves s (.createService serviceName address) { s with
        createdServices := Function.update s.createdServices serviceName (some s.created)
        memory := Function.update s.memory address (some ⟨s.created, s.created⟩)
        created := s.created + 1 }
  | registerMethod {address : Nat} {remoteMethod : RemoteMethod M} {wrapper : Wrapper} :
      s.memory address = some wrapper →
      Moves s (.registerMethod address remoteMethod) { s with
        registeredMethods := Function.update s.registeredMethods remoteMethod.methodName
          (some ⟨remoteMethod.method, address, wrapper⟩) }
  | destroy {address : Nat} {wrapper : Wrapper} : s.memory address = some wrapper →
      Moves s (.destroy address) { s with
        memory := Function.update s.memory address none
        destroyed := s.destroyed ++ [wrapper.number] }
  | lookup {thread : Nat} {methodName : Bytes} {method : Entry M} :
      s.registeredMethods methodName = some method → Moves s (.lookup thread methodName)
        { s with jobs := Function.update s.jobs thread (.bound method) }
  | call {thread : Nat} {method : Entry M} : s.jobs thread = .bound method →
      Moves s (.call thread) { s with
        jobs := Function.update s.jobs thread (.running method)
        ran := s.ran ++ [⟨method, s.memory method.serviceInstance⟩] }
  | finish {thread : Nat} {method : Entry M} : s.jobs thread = .running method →
      Moves s (.finish thread) { s with jobs := Function.update s.jobs thread .idle }

theorem step_moves {s t : State M} {op : Op M} (hs : step s op = some t) : Moves s op t := by
  cases op with
  | createService serviceName address =>
    simp only [step] at hs
    split at hs <;> cases hs
    exact .createService ‹_›
  | registerMethod address remoteMethod =>
    simp only [step] at hs
    split at hs <;> cases hs
    exact .registerMethod ‹_›
  | destroy address =>
    simp only [step] at hs
    split at hs <;> cases hs
    exact .destroy ‹_›
  | lookup thread methodName =>
    simp only [step] at hs
    split at hs <;> cases hs
    exact .lookup ‹_›
  | call thread =>
    simp only [step] at hs
    split at hs <;> cases hs
    exact .call ‹_›
  | finish thread =>
    simp only [step] at hs
    split at hs <;> cases hs
    exact .finish ‹_›

/-- Some `shared_ptr` owns the service object. -/
def Owned (s : State M) (serviceObject : Nat) : Prop :=
  (∃ serviceName, s.createdServices serviceName = some serviceObject) ∨
    ∃ address wrapper, s.memory address = some wrapper ∧ wrapper.serviceObject = serviceObject

/-- A handler that may still be run: a registered one, or the copy that a thread has. -/
def Callable (s : State M) (entry : Entry M) : Prop :=
  (∃ m, s.registeredMethods m = some entry) ∨ ∃ thread, (s.jobs thread).method = some entry

/-- The wrapper is still where it was, and its service object exists. -/
structure Resolves (s : State M) (entry : Entry M) : Prop where
  wrapper : s.memory entry.serviceInstance = some entry.wrapper
  serviceObject : Owned s entry.wrapper.serviceObject

/-- Wrappers are numbered once, and one that was not destroyed is still in its place. -/
structure Invariant (s : State M) : Prop where
  alive : ∀ address wrapper, s.memory address = some wrapper →
    wrapper.number < s.created ∧ wrapper.number ∉ s.destroyed
  place : ∀ address address' wrapper wrapper', s.memory address = some wrapper →
    s.memory address' = some wrapper' → wrapper.number = wrapper'.number → address = address'
  gone : ∀ number ∈ s.destroyed, number < s.created
  bound : ∀ entry, Callable s entry → entry.wrapper.number < s.created ∧
    (entry.wrapper.number ∉ s.destroyed → s.memory entry.serviceInstance = some entry.wrapper)

theorem not_callable_empty (entry : Entry M) : ¬ Callable empty entry := by
  rintro (⟨_, h⟩ | ⟨_, h⟩) <;> cases h

theorem invariant_empty : Invariant (empty : State M) where
  alive _ _ h := nomatch h
  place _ _ _ _ h := nomatch h
  gone _ h := nomatch h
  bound entry h := absurd h (not_callable_empty entry)

theorem update_some {α β : Type} [DecidableEq α] {f : α → Option β} {a x : α} {b y : β}
    (h : Function.update f a (some b) x = some y) :
    x = a ∧ y = b ∨ x ≠ a ∧ f x = some y := by
  by_cases hx : x = a
  · subst hx
    rw [Function.update_self] at h
    exact .inl ⟨rfl, (Option.some.inj h).symm⟩
  · rw [Function.update_of_ne hx] at h
    exact .inr ⟨hx, h⟩

theorem update_none {α β : Type} [DecidableEq α] {f : α → Option β} {a x : α} {y : β}
    (h : Function.update f a none x = some y) : x ≠ a ∧ f x = some y := by
  by_cases hx : x = a
  · subst hx
    rw [Function.update_self] at h
    cases h
  · rw [Function.update_of_ne hx] at h
    exact ⟨hx, h⟩

/-- What a thread takes in hand is all that its step adds. -/
theorem callable_job {s : State M} {thread : Nat} {job : Job M} {ran : List (Run M)}
    {entry : Entry M}
    (h : Callable { s with jobs := Function.update s.jobs thread job, ran } entry) :
    Callable s entry ∨ job.method = some entry := by
  rcases h with hm | ⟨other, hother⟩
  · exact .inl (.inl hm)
  · dsimp only at hother
    by_cases hthread : other = thread
    · subst hthread
      rw [Function.update_self] at hother
      exact .inr hother
    · rw [Function.update_of_ne hthread] at hother
      exact .inl (.inr ⟨other, hother⟩)

/-- Only `RegisterMethod` makes a handler that was not there. -/
theorem callable_step {s t : State M} {op : Op M} (hs : step s op = some t) {entry : Entry M}
    (h : Callable t entry) : Callable s entry ∨
      ∃ address remoteMethod, op = .registerMethod address remoteMethod ∧
        s.memory address = some entry.wrapper ∧ entry.serviceInstance = address := by
  cases step_moves hs with
  | createService _ => exact .inl h
  | destroy _ => exact .inl h
  | @registerMethod address remoteMethod wrapper hwrapper =>
    rcases h with ⟨m, hm⟩ | hthread
    · rcases update_some hm with ⟨rfl, rfl⟩ | ⟨_, hold⟩
      · exact .inr ⟨address, remoteMethod, rfl, hwrapper, rfl⟩
      · exact .inl (.inl ⟨m, hold⟩)
    · exact .inl (.inr hthread)
  | lookup hmethod =>
    rcases callable_job h with h | ⟨⟨⟩⟩
    · exact .inl h
    · exact .inl (.inl ⟨_, hmethod⟩)
  | @call thread method hthread =>
    rcases callable_job h with h | ⟨⟨⟩⟩
    · exact .inl h
    · exact .inl (.inr ⟨thread, by rw [hthread]; rfl⟩)
  | finish _ =>
    rcases callable_job h with h | ⟨⟨⟩⟩
    exact .inl h

theorem invariant_createService {s : State M} {address : Nat} (h : Invariant s)
    (hfree : s.memory address = none) (serviceName : Bytes) : Invariant { s with
      createdServices := Function.update s.createdServices serviceName (some s.created)
      memory := Function.update s.memory address (some ⟨s.created, s.created⟩)
      created := s.created + 1 } := by
  refine ⟨fun a w hw => ?_, fun a a' w w' hw hw' hn => ?_, fun n hn => ?_, fun e he => ?_⟩
  · rcases update_some hw with ⟨rfl, rfl⟩ | ⟨_, hold⟩
    · exact ⟨Nat.lt_succ_self _, fun hd => Nat.lt_irrefl _ (h.gone _ hd)⟩
    · obtain ⟨hlt, hd⟩ := h.alive a w hold
      exact ⟨Nat.lt_succ_of_lt hlt, hd⟩
  · rcases update_some hw with ⟨rfl, rfl⟩ | ⟨_, hold⟩
    · rcases update_some hw' with ⟨rfl, rfl⟩ | ⟨_, hold'⟩
      · rfl
      · exact absurd hn.symm (Nat.ne_of_lt (h.alive a' w' hold').1)
    · rcases update_some hw' with ⟨rfl, rfl⟩ | ⟨_, hold'⟩
      · exact absurd hn (Nat.ne_of_lt (h.alive a w hold).1)
      · exact h.place a a' w w' hold hold' hn
  · exact Nat.lt_succ_of_lt (h.gone n hn)
  · obtain ⟨hlt, hplace⟩ := h.bound e he
    refine ⟨Nat.lt_succ_of_lt hlt, fun hd => ?_⟩
    have hold := hplace hd
    have hne : e.serviceInstance ≠ address := by
      rintro heq
      rw [heq, hfree] at hold
      cases hold
    exact (Function.update_of_ne hne ..).trans hold

theorem invariant_destroy {s : State M} {address : Nat} {wrapper : Wrapper} (h : Invariant s)
    (hwrapper : s.memory address = some wrapper) : Invariant { s with
      memory := Function.update s.memory address none
      destroyed := s.destroyed ++ [wrapper.number] } := by
  refine ⟨fun a w hw => ?_, fun a a' w w' hw hw' hn => ?_, fun n hn => ?_, fun e he => ?_⟩
  · obtain ⟨hne, hold⟩ := update_none hw
    obtain ⟨hlt, hd⟩ := h.alive a w hold
    refine ⟨hlt, fun hmem => ?_⟩
    rcases List.mem_append.mp hmem with hmem | hmem
    · exact hd hmem
    · exact hne (h.place a address w wrapper hold hwrapper (List.mem_singleton.mp hmem))
  · exact h.place a a' w w' (update_none hw).2 (update_none hw').2 hn
  · rcases List.mem_append.mp hn with hmem | hmem
    · exact h.gone n hmem
    · rw [List.mem_singleton.mp hmem]
      exact (h.alive address wrapper hwrapper).1
  · obtain ⟨hlt, hplace⟩ := h.bound e he
    refine ⟨hlt, fun hd => ?_⟩
    have hold := hplace fun hmem => hd (List.mem_append_left _ hmem)
    have hne : e.serviceInstance ≠ address := by
      rintro heq
      rw [heq, hwrapper] at hold
      rw [← Option.some.inj hold] at hd
      exact hd (List.mem_append_right _ (List.mem_singleton.mpr rfl))
    exact (Function.update_of_ne hne ..).trans hold

theorem invariant_step {s t : State M} {op : Op M} (h : Invariant s)
    (hs : step s op = some t) : Invariant t := by
  have hcallable := fun e (he : Callable t e) => callable_step hs he
  cases step_moves hs with
  | createService hfree => exact invariant_createService h hfree _
  | @registerMethod address remoteMethod wrapper hwrapper =>
    refine ⟨h.alive, h.place, h.gone, fun e he => ?_⟩
    rcases hcallable e he with hold | ⟨_, _, ⟨⟩, hplace, rfl⟩
    · exact h.bound e hold
    · exact ⟨(h.alive _ _ hplace).1, fun _ => hplace⟩
  | destroy hwrapper => exact invariant_destroy h hwrapper
  | lookup _ | call _ | finish _ =>
    refine ⟨h.alive, h.place, h.gone, fun e he => ?_⟩
    rcases hcallable e he with hold | ⟨_, _, ⟨⟩, _⟩
    exact h.bound e hold

theorem invariant_reach {C : State M → Op M → Prop} {s : State M}
    (h : Reach step C empty s) : Invariant s :=
  h.invariant invariant_empty fun _ _ _ hi _ hs => invariant_step hi hs

theorem resolves_iff {s : State M} (h : Invariant s) {entry : Entry M}
    (he : Callable s entry) : Resolves s entry ↔ entry.wrapper.number ∉ s.destroyed := by
  constructor
  · intro hr
    exact (h.alive _ _ hr.wrapper).2
  · intro hd
    have hplace := (h.bound entry he).2 hd
    exact ⟨hplace, .inr ⟨_, _, hplace, rfl⟩⟩

/-- No wrapper is destroyed while a registered handler, or the copy that a thread has, is
bound to it. -/
def Outlives (s : State M) : Op M → Prop
  | .destroy address => ∀ entry wrapper, Callable s entry → s.memory address = some wrapper →
      entry.wrapper.number ≠ wrapper.number
  | _ => True

/-- No handler is bound to a wrapper that is gone, and none that was run has been. -/
structure Safe (s : State M) : Prop where
  bound : ∀ entry, Callable s entry → entry.wrapper.number ∉ s.destroyed
  ran : ∀ r ∈ s.ran, r.found = some r.entry.wrapper

theorem safe_empty : Safe (empty : State M) where
  bound entry h := absurd h (not_callable_empty entry)
  ran _ h := nomatch h

theorem safe_step {s t : State M} {op : Op M} (hi : Invariant s) (h : Safe s)
    (hc : Outlives s op) (hs : step s op = some t) : Safe t := by
  have hcallable := fun e (he : Callable t e) => callable_step hs he
  cases step_moves hs with
  | createService _ => exact ⟨h.bound, h.ran⟩
  | @registerMethod address remoteMethod wrapper hwrapper =>
    refine ⟨fun e he => ?_, h.ran⟩
    rcases hcallable e he with hold | ⟨_, _, ⟨⟩, hplace, rfl⟩
    · exact h.bound e hold
    · exact (hi.alive _ _ hplace).2
  | destroy hwrapper =>
    refine ⟨fun e he hmem => ?_, h.ran⟩
    rcases List.mem_append.mp hmem with hmem | hmem
    · exact h.bound e he hmem
    · exact hc e _ he hwrapper (List.mem_singleton.mp hmem)
  | lookup _ | finish _ =>
    refine ⟨fun e he => ?_, h.ran⟩
    rcases hcallable e he with hold | ⟨_, _, ⟨⟩, _⟩
    exact h.bound e hold
  | @call thread method hthread =>
    refine ⟨fun e he => ?_, fun r hr => ?_⟩
    · rcases hcallable e he with hold | ⟨_, _, ⟨⟩, _⟩
      exact h.bound e hold
    · have hmethod : Callable s method := .inr ⟨thread, by rw [hthread]; rfl⟩
      rcases List.mem_append.mp hr with hold | hnew
      · exact h.ran r hold
      · rw [List.mem_singleton.mp hnew]
        exact ((resolves_iff hi hmethod).mpr (h.bound _ hmethod)).wrapper

/-- In a run in which no wrapper is destroyed while a handler is bound to it that may still
be run, every handler run has found its wrapper, and every one registered or in the hand of a
thread would find it and its service object. In any run at all such a handler finds them
exactly as long as the wrapper it was registered through has not been destroyed. -/
theorem handlers_resolve :
    (∀ s : State M, Reach step Outlives empty s →
      (∀ r ∈ s.ran, r.found = some r.entry.wrapper) ∧
        ∀ entry, Callable s entry → Resolves s entry) ∧
    ∀ s : State M, Reach step Any empty s → ∀ entry, Callable s entry →
      (Resolves s entry ↔ entry.wrapper.number ∉ s.destroyed) := by
  refine ⟨fun s h => ?_, fun s h entry he => resolves_iff (invariant_reach h) he⟩
  have hboth : Invariant s ∧ Safe s := by
    refine h.invariant (I := fun s => Invariant s ∧ Safe s)
      ⟨invariant_empty, safe_empty⟩ ?_
    intro u op v hu hc hs
    exact ⟨invariant_step hu.1 hs, safe_step hu.1 hu.2 hc hs⟩
  exact ⟨hboth.2.ran, fun entry he =>
    (resolves_iff hboth.1 he).mpr (hboth.2.bound entry he)⟩

/-- The binding of an entry whose wrapper is alive. -/
def Entry.toBound (entry : Entry M) : Bound M := ⟨entry.wrapper.serviceObject, entry.method⟩

/-- While wrappers outlive their entries, a request finds the handler, on the service object,
that the registry without wrappers gives. -/
structure Agrees (s : State M) (r : Registry M) : Prop where
  methods : ∀ m, r.registeredMethods m = (s.registeredMethods m).map Entry.toBound
  services : r.createdServices = s.createdServices
  count : r.serviceNames.length = s.created
  objects : ∀ address wrapper, s.memory address = some wrapper → wrapper.serviceObject < s.created

theorem agrees_step {s t : State M} {op : Op M} {r : Registry M} (h : Agrees s r)
    (hs : step s op = some t) :
    Agrees t r ∨ ∃ op' r', Services.step r op' = some r' ∧ Agrees t r' := by
  cases step_moves hs with
  | @createService serviceName _ _ =>
    refine .inr ⟨.createService serviceName, _, rfl, h.methods, ?_, ?_, fun a w hw => ?_⟩
    · rw [h.services, h.count]
    · simp [h.count]
    · rcases update_some hw with ⟨rfl, rfl⟩ | ⟨_, hold⟩
      · exact Nat.lt_succ_self _
      · exact Nat.lt_succ_of_lt (h.objects a w hold)
  | @registerMethod address remoteMethod wrapper hwrapper =>
    have hlt : wrapper.serviceObject < r.serviceNames.length :=
      h.count ▸ h.objects address wrapper hwrapper
    refine .inr ⟨.registerMethod wrapper.serviceObject remoteMethod, _,
      Option.map_eq_some_iff.mpr ⟨_, List.getElem?_eq_getElem hlt, rfl⟩,
      fun m => ?_, h.services, h.count, h.objects⟩
    by_cases hm : m = remoteMethod.methodName
    · subst hm
      simp [Entry.toBound]
    · simp only [Function.update_of_ne hm, h.methods m]
  | destroy _ =>
    exact .inl ⟨h.methods, h.services, h.count, fun a w hw => h.objects a w (update_none hw).2⟩
  | lookup _ | call _ | finish _ => exact .inl ⟨h.methods, h.services, h.count, h.objects⟩

/-- Every executor is a registry with the wrappers added to it. -/
theorem agrees_reach {C : State M → Op M → Prop} {s : State M}
    (h : Reach step C empty s) : ∃ r : Registry M, Built r ∧ Agrees s r := by
  refine h.simulate (R := Agrees) ⟨fun _ => rfl, rfl, rfl, fun _ _ h => nomatch h⟩ ?_
  intro u op v r hr _ hs
  rcases agrees_step hr hs with hkeep | ⟨op', r', hstep, hr'⟩
  · exact .inl hkeep
  · exact .inr ⟨op', r', trivial, hstep, hr'⟩

/-- `Echoer` is created as `E` at address 0 and registers `e` in its block, as the test
server does it. The request comes after the end of the block. -/
def closedScope : List (Op Nat) :=
  [.createService [69] 0, .registerMethod 0 ⟨[101], 10⟩, .destroy 0, .lookup 0 [101], .call 0]

/-- The handler finds no wrapper at its address. -/
theorem closedScope_dangles : ∃ s, run step empty closedScope = some s ∧
    s.ran = [⟨⟨10, 0, ⟨0, 0⟩⟩, none⟩] ∧
    s.registeredMethods [101] = some ⟨10, 0, ⟨0, 0⟩⟩ ∧
    ¬ Resolves s ⟨10, 0, ⟨0, 0⟩⟩ ∧ ¬ ∀ r ∈ s.ran, r.found = some r.entry.wrapper := by
  obtain ⟨s, hs⟩ : ∃ s, run step empty closedScope = some s := ⟨_, rfl⟩
  have hran : s.ran = [⟨⟨10, 0, ⟨0, 0⟩⟩, none⟩] := by cases hs; rfl
  have hentry : s.registeredMethods [101] = some ⟨10, 0, ⟨0, 0⟩⟩ := by cases hs; rfl
  have hgone : s.memory 0 = none := by cases hs; rfl
  refine ⟨s, hs, hran, hentry, fun h => ?_, fun h => ?_⟩
  · exact absurd (hgone.symm.trans h.wrapper) (by simp)
  · have hfound := h _ (by rw [hran]; exact List.mem_singleton.mpr rfl)
    cases hfound

/-- A second wrapper registers `e` again after thread 0 has copied the handler. -/
def replaced : List (Op Nat) :=
  [.createService [69] 0, .registerMethod 0 ⟨[101], 10⟩, .createService [70] 1, .lookup 0 [101],
    .registerMethod 1 ⟨[101], 20⟩, .call 0, .finish 0]

/-- After it nothing is bound to the first wrapper any more. -/
theorem outlives_replaced {u : State Nat} (hu : run step empty replaced = some u) :
    Outlives u (.destroy 0) := by
  have hmethods : u.registeredMethods = Function.update (Function.update (fun _ => none) [101]
      (some ⟨10, 0, ⟨0, 0⟩⟩)) [101] (some ⟨20, 1, ⟨1, 1⟩⟩) := by cases hu; rfl
  have hjobs : u.jobs = Function.update (Function.update (Function.update (fun _ => .idle) 0
      (.bound ⟨10, 0, ⟨0, 0⟩⟩)) 0 (.running ⟨10, 0, ⟨0, 0⟩⟩)) 0 .idle := by cases hu; rfl
  have hmemory : u.memory 0 = some ⟨0, 0⟩ := by cases hu; rfl
  rintro entry wrapper (⟨m, hm⟩ | ⟨thread, hthread⟩) hw
  · obtain rfl : Wrapper.mk 0 0 = wrapper := Option.some.inj (hmemory.symm.trans hw)
    rw [hmethods, Function.update_idem] at hm
    rcases update_some hm with ⟨_, rfl⟩ | ⟨_, hnone⟩
    · decide
    · cases hnone
  · rw [hjobs, Function.update_idem, Function.update_idem, Function.update_apply] at hthread
    split at hthread <;> cases hthread

/-- The first wrapper goes when thread 0 is through with its copy. -/
theorem handlers_resolve_replaced : ∃ s,
    run step empty (replaced ++ [.destroy 0, .lookup 0 [101], .call 0]) = some s ∧
    s.ran = [⟨⟨10, 0, ⟨0, 0⟩⟩, some ⟨0, 0⟩⟩, ⟨⟨20, 1, ⟨1, 1⟩⟩, some ⟨1, 1⟩⟩] ∧
    ((∀ r ∈ s.ran, r.found = some r.entry.wrapper) ∧
      ∀ entry, Callable s entry → Resolves s entry) ∧
    ∀ entry, Callable s entry → (Resolves s entry ↔ entry.wrapper.number ∉ s.destroyed) := by
  obtain ⟨u, hu⟩ : ∃ u, run step empty replaced = some u := ⟨_, rfl⟩
  have hkept : ∀ op ∈ replaced, ∀ address, op ≠ .destroy address := by simp [replaced]
  have hcalm : Reach step Outlives empty u := by
    refine (Reach.of_run_forall hu hkept).weaken fun v op w hop _ => ?_
    cases op with
    | destroy address => exact absurd rfl (hop address)
    | _ => trivial
  obtain ⟨s, hs, hran⟩ : ∃ s, run step u [.destroy 0, .lookup 0 [101], .call 0] = some s ∧
      s.ran = [⟨⟨10, 0, ⟨0, 0⟩⟩, some ⟨0, 0⟩⟩, ⟨⟨20, 1, ⟨1, 1⟩⟩, some ⟨1, 1⟩⟩] := by
    cases hu
    exact ⟨_, rfl, rfl⟩
  obtain ⟨v, hv, hrest⟩ := Option.bind_eq_some_iff.mp hs
  have hafter : Reach step Outlives v s := by
    refine (Reach.of_run_forall (E := fun op => op = .lookup 0 [101] ∨ op = .call 0) hrest
      (by simp)).weaken fun w op x hop _ => ?_
    rcases hop with rfl | rfl <;> trivial
  have hreach := (hcalm.tail (outlives_replaced hu) hv).trans hafter
  refine ⟨s, ?_, hran, handlers_resolve.1 s hreach, handlers_resolve.2 s ?_⟩
  · rw [run_append, hu, Option.bind_some, hs]
  · exact hreach.weaken fun _ _ _ _ _ => trivial

end Dousi.Executor.Lifetimes
