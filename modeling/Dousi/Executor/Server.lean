import Dousi.Executor.Accept
import Dousi.Executor.InvokeHelper
import Dousi.Lib.Pool

/-!
# The Executor: its threads, queues and maps

One step is one visit of one thread to shared state. Frames are numbered in the order
of their callbacks; the number goes with the request and the response as the address
of the heap object does, and no step looks at it. `arrived`, `ran` and `written` are
histories. The queues are linearizable, so a push or a pop is one step.
-/
namespace Dousi.Executor.Server

open Dousi.Lib.Word
open Dousi.Lib.Transition
open Dousi.Core.Msgpack
open Request Services InvokeHelper
open Accept (Acceptor)

/-- `ExecutorOptions` and the constant `write_thread_num`. A pool without io threads
has no `GetNextIOService`. -/
structure ExecutorOptions where
  ioThreadNum : Nat
  workThreadNum : Nat
  writeThreadNum : Nat
  io_pos : 0 < ioThreadNum

abbrev ExecutorOptions.defaults : ExecutorOptions := ⟨8, 4, 8, by decide⟩

/-- The threads that run `InvokeMethod` and `PerformRequest`. -/
abbrev Thread (o : ExecutorOptions) := Fin o.ioThreadNum ⊕ Fin o.workThreadNum

/-- One callback of a read loop, with the number of the io thread that runs it. -/
structure Frame where
  connection : Nat
  ioThread : Nat
  streamId : UInt64
  objectId : UInt32
  body : Bytes

section
variable {τ : Type} (El : τ → Type) (σ : Type)

/-- The locals of `InvokeMethod` and `PerformRequest`. -/
inductive Job where
  | idle
  | invoking (ticket : Nat) (frame : Frame)
  | request (ticket : Nat) (request : DousiRequest)
  | bound (ticket : Nat) (request : DousiRequest) (method : Option (Bound (MethodType El σ)))
  | returned (ticket : Nat) (request : DousiRequest) (result : Bytes)

/-- A run of a handler to its end. -/
structure Run where
  ticket : Nat
  request : DousiRequest
  method : Bound (MethodType El σ)
  result : Bytes

end

/-- The locals of `LoopToWriteResponse`. -/
inductive WriteJob where
  | idle
  | popped (ticket : Nat) (response : DousiResponse)
  | found (ticket : Nat) (response : DousiResponse) (stream : Nat)

/-- A call of `AsioStream::Write` on the stream of a connection. -/
structure Written where
  ticket : Nat
  stream : Nat
  response : DousiResponse

/-- What ended the process. -/
inductive Fault where
  | exception (ticket : Nat)
  | assertion

section
variable {τ : Type} (El : τ → Type) (σ : Type)

structure State (o : ExecutorOptions) where
  acceptor : Acceptor o.ioThreadNum
  /-- an entry with `none` is an empty `std::function` -/
  registeredMethods : Bytes → Option (Option (Bound (MethodType El σ)))
  objects : Objects El σ
  requestQueue : List (Nat × DousiRequest)
  responseQueue : List (Nat × DousiResponse)
  jobs : Thread o → Job El σ
  writers : Fin o.writeThreadNum → WriteJob
  terminated : Option Fault
  arrived : List Frame
  ran : List (Run El σ)
  written : List Written

end

inductive Action (o : ExecutorOptions) where
  | accept (action : Accept.Action)
  | arrive (connection : Nat) (objectId : UInt32) (body : Bytes)
  | invoke (i : Fin o.ioThreadNum)
  | pop (j : Fin o.workThreadNum)
  | lookup (t : Thread o)
  | call (t : Thread o)
  | respond (t : Thread o)
  | take (n : Fin o.writeThreadNum)
  | find (n : Fin o.writeThreadNum)
  | write (n : Fin o.writeThreadNum)

variable {τ : Type} {El : τ → Type} {σ : Type} {o : ExecutorOptions}

/-- An executor with its registered methods, at the start of `Loop`. -/
def loop (o : ExecutorOptions) (r : Registry (MethodType El σ)) (w : Objects El σ) :
    State El σ o where
  acceptor := Accept.loop o.io_pos
  registeredMethods m := (r.registeredMethods m).map some
  objects := w
  requestQueue := []
  responseQueue := []
  jobs _ := .idle
  writers _ := .idle
  terminated := none
  arrived := []
  ran := []
  written := []

/-- An exception leaves `io_service::run` or a thread function. -/
def throwException (s : State El σ o) (ticket : Nat) : State El σ o :=
  { s with terminated := some (.exception ticket) }

/-- The handler of `DoReadBody` runs the callback on the thread of the stream. -/
def arrive (s : State El σ o) (k : Nat) (objectId : UInt32) (body : Bytes) :
    Option (State El σ o) :=
  (s.acceptor.connections[k]?).bind fun stream =>
    match stream.reading, s.jobs (.inl stream.ioThread) with
    | true, .idle =>
      let frame : Frame := ⟨k, stream.ioThread, stream.streamId, objectId, body⟩
      some { s with
        jobs := Function.update s.jobs (.inl stream.ioThread) (.invoking s.arrived.length frame)
        arrived := s.arrived ++ [frame] }
    | _, _ => none

/-- `Executor::InvokeMethod`: decode, then push the request or go on to perform it. -/
def invokeMethodOn (mp : Codec τ El) (s : State El σ o) (i : Fin o.ioThreadNum) :
    Option (State El σ o) :=
  match s.jobs (.inl i) with
  | .invoking ticket frame =>
    match invokeMethod mp frame.streamId frame.objectId frame.body with
    | none => some (throwException s ticket)
    | some request =>
      if 0 < o.workThreadNum then
        some { s with
          jobs := Function.update s.jobs (.inl i) .idle
          requestQueue := s.requestQueue ++ [(ticket, request)] }
      else some { s with jobs := Function.update s.jobs (.inl i) (.request ticket request) }
  | _ => none

/-- `request_queue_.WaitAndPop` in `LoopToPerformRequest`. -/
def pop (s : State El σ o) (j : Fin o.workThreadNum) : Option (State El σ o) :=
  match s.jobs (.inr j), s.requestQueue with
  | .idle, (ticket, request) :: rest =>
    some { s with
      jobs := Function.update s.jobs (.inr j) (.request ticket request)
      requestQueue := rest }
  | _, _ => none

/-- `method = registered_methods_[request.method_name_]` under `mutex_`. -/
def lookupMethod (s : State El σ o) (t : Thread o) : Option (State El σ o) :=
  match s.jobs t with
  | .request ticket request =>
    -- `operator[]` enters an empty function under a name it does not find
    let method := (s.registeredMethods request.methodName).getD none
    some { s with
      jobs := Function.update s.jobs t (.bound ticket request method)
      registeredMethods := Function.update s.registeredMethods request.methodName (some method) }
  | _ => none

/-- `method(request.unpacked_, return_value_str)`. The decoding of the arguments, the method
and the packing of its result are one step. -/
def callMethod (mp : Codec τ El) (s : State El σ o) (t : Thread o) : Option (State El σ o) :=
  match s.jobs t with
  | .bound ticket _ none => some (throwException s ticket)
  | .bound ticket request (some b) =>
    let called := InvokeHelper.invoke mp b request.unpacked s.objects
    match called.2 with
    | none => some (throwException { s with objects := called.1 } ticket)
    | some result =>
      some { s with
        objects := called.1
        jobs := Function.update s.jobs t (.returned ticket request result)
        ran := s.ran ++ [⟨ticket, request, b, result⟩] }
  | _ => none

/-- `response_queue_.Push`, the end of `PerformRequest`. -/
def respond (s : State El σ o) (t : Thread o) : Option (State El σ o) :=
  match s.jobs t with
  | .returned ticket request result =>
    some { s with
      jobs := Function.update s.jobs t .idle
      responseQueue := s.responseQueue ++
        [(ticket, ⟨request.objectId, request.streamId, result⟩)] }
  | _ => none

/-- `response_queue_.WaitAndPop` in `LoopToWriteResponse`. -/
def take (s : State El σ o) (n : Fin o.writeThreadNum) : Option (State El σ o) :=
  match s.writers n, s.responseQueue with
  | .idle, (ticket, response) :: rest =>
    some { s with
      writers := Function.update s.writers n (.popped ticket response)
      responseQueue := rest }
  | _, _ => none

/-- `streams_.find` under `streams_mutex_`, with the assertion. -/
def find (s : State El σ o) (n : Fin o.writeThreadNum) : Option (State El σ o) :=
  match s.writers n, Accept.unlocked s.acceptor with
  | .popped ticket response, true =>
    match s.acceptor.streams response.streamId with
    | none => some { s with terminated := some .assertion }
    | some k => some { s with writers := Function.update s.writers n (.found ticket response k) }
  | _, _ => none

/-- `stream->Write(...)`. -/
def write (s : State El σ o) (n : Fin o.writeThreadNum) : Option (State El σ o) :=
  match s.writers n with
  | .found ticket response k =>
    some { s with
      writers := Function.update s.writers n .idle
      written := s.written ++ [⟨ticket, k, response⟩] }
  | _ => none

def act (mp : Codec τ El) (s : State El σ o) : Action o → Option (State El σ o)
  | .accept action => (Accept.step s.acceptor action).map fun acceptor => { s with acceptor }
  | .arrive k objectId body => arrive s k objectId body
  | .invoke i => invokeMethodOn mp s i
  | .pop j => pop s j
  | .lookup t => lookupMethod s t
  | .call t => callMethod mp s t
  | .respond t => respond s t
  | .take n => take s n
  | .find n => find s n
  | .write n => write s n

/-- No thread does anything after the end of the process. -/
def step (mp : Codec τ El) (s : State El σ o) (a : Action o) : Option (State El σ o) :=
  match s.terminated with
  | some _ => none
  | none => act mp s a

/-! What each step can do. -/

theorem arrive_cases {s t : State El σ o} {k : Nat} {objectId : UInt32} {body : Bytes}
    (h : arrive s k objectId body = some t) :
    ∃ stream, s.acceptor.connections[k]? = some stream ∧ stream.reading = true ∧
      s.jobs (.inl stream.ioThread) = .idle ∧
      t = { s with
            jobs := Function.update s.jobs (.inl stream.ioThread)
              (.invoking s.arrived.length ⟨k, stream.ioThread, stream.streamId, objectId, body⟩)
            arrived := s.arrived ++ [⟨k, stream.ioThread, stream.streamId, objectId, body⟩] } := by
  obtain ⟨stream, hk, h⟩ := Option.bind_eq_some_iff.mp h
  split at h
  · rename_i hr hj
    exact ⟨stream, hk, hr, hj, (Option.some.inj h).symm⟩
  · cases h

theorem invokeMethodOn_cases {mp : Codec τ El} {s t : State El σ o} {i : Fin o.ioThreadNum}
    (h : invokeMethodOn mp s i = some t) :
    ∃ ticket frame, s.jobs (.inl i) = .invoking ticket frame ∧
      ((invokeMethod mp frame.streamId frame.objectId frame.body = none ∧
          t = throwException s ticket) ∨
        ∃ request, invokeMethod mp frame.streamId frame.objectId frame.body = some request ∧
          ((0 < o.workThreadNum ∧ t = { s with
              jobs := Function.update s.jobs (.inl i) .idle
              requestQueue := s.requestQueue ++ [(ticket, request)] }) ∨
            (o.workThreadNum = 0 ∧ t = { s with
              jobs := Function.update s.jobs (.inl i) (.request ticket request) }))) := by
  unfold invokeMethodOn at h
  split at h
  · rename_i ticket frame hj
    refine ⟨ticket, frame, hj, ?_⟩
    split at h
    · rename_i hn
      exact .inl ⟨hn, (Option.some.inj h).symm⟩
    · rename_i request hr
      refine .inr ⟨request, hr, ?_⟩
      split at h
      · rename_i hw
        exact .inl ⟨hw, (Option.some.inj h).symm⟩
      · rename_i hw
        exact .inr ⟨by omega, (Option.some.inj h).symm⟩
  · cases h

theorem pop_cases {s t : State El σ o} {j : Fin o.workThreadNum} (h : pop s j = some t) :
    ∃ ticket request rest, s.jobs (.inr j) = .idle ∧
      s.requestQueue = (ticket, request) :: rest ∧
      t = { s with
            jobs := Function.update s.jobs (.inr j) (.request ticket request)
            requestQueue := rest } := by
  unfold pop at h
  split at h
  · rename_i ticket request rest hj hq
    exact ⟨ticket, request, rest, hj, hq, (Option.some.inj h).symm⟩
  · cases h

theorem lookupMethod_cases {s u : State El σ o} {t : Thread o} (h : lookupMethod s t = some u) :
    ∃ ticket request, s.jobs t = .request ticket request ∧
      u = { s with
            jobs := Function.update s.jobs t (.bound ticket request
              ((s.registeredMethods request.methodName).getD none))
            registeredMethods := Function.update s.registeredMethods request.methodName
              (some ((s.registeredMethods request.methodName).getD none)) } := by
  unfold lookupMethod at h
  split at h
  · rename_i ticket request hj
    exact ⟨ticket, request, hj, (Option.some.inj h).symm⟩
  · cases h

theorem callMethod_cases {mp : Codec τ El} {s u : State El σ o} {t : Thread o}
    (h : callMethod mp s t = some u) :
    ∃ ticket request method, s.jobs t = .bound ticket request method ∧
      ((∃ w, u = throwException { s with objects := w } ticket ∧
          ∀ b, method = some b → invoke mp b request.unpacked s.objects = (w, none)) ∨
        ∃ b w result, method = some b ∧
          invoke mp b request.unpacked s.objects = (w, some result) ∧
          u = { s with
                objects := w
                jobs := Function.update s.jobs t (.returned ticket request result)
                ran := s.ran ++ [⟨ticket, request, b, result⟩] }) := by
  unfold callMethod at h
  split at h
  · rename_i ticket request hj
    refine ⟨ticket, request, none, hj, .inl ⟨s.objects, (Option.some.inj h).symm, ?_⟩⟩
    intro b hb
    cases hb
  · rename_i ticket request b hj
    refine ⟨ticket, request, some b, hj, ?_⟩
    cases hi : invoke mp b request.unpacked s.objects with
    | mk w returned =>
      rw [hi] at h
      cases returned with
      | none =>
        refine .inl ⟨w, (Option.some.inj h).symm, ?_⟩
        rintro b' ⟨⟩
        exact hi
      | some result => exact .inr ⟨b, w, result, rfl, hi, (Option.some.inj h).symm⟩
  · cases h

theorem respond_cases {s u : State El σ o} {t : Thread o} (h : respond s t = some u) :
    ∃ ticket request result, s.jobs t = .returned ticket request result ∧
      u = { s with
            jobs := Function.update s.jobs t .idle
            responseQueue := s.responseQueue ++
              [(ticket, ⟨request.objectId, request.streamId, result⟩)] } := by
  unfold respond at h
  split at h
  · rename_i ticket request result hj
    exact ⟨ticket, request, result, hj, (Option.some.inj h).symm⟩
  · cases h

theorem take_cases {s t : State El σ o} {n : Fin o.writeThreadNum} (h : take s n = some t) :
    ∃ ticket response rest, s.writers n = .idle ∧
      s.responseQueue = (ticket, response) :: rest ∧
      t = { s with
            writers := Function.update s.writers n (.popped ticket response)
            responseQueue := rest } := by
  unfold take at h
  split at h
  · rename_i ticket response rest hn hq
    exact ⟨ticket, response, rest, hn, hq, (Option.some.inj h).symm⟩
  · cases h

theorem find_cases {s t : State El σ o} {n : Fin o.writeThreadNum} (h : find s n = some t) :
    ∃ ticket response, s.writers n = .popped ticket response ∧
      ((s.acceptor.streams response.streamId = none ∧
          t = { s with terminated := some .assertion }) ∨
        ∃ k, s.acceptor.streams response.streamId = some k ∧
          t = { s with
                writers := Function.update s.writers n (.found ticket response k) }) := by
  unfold find at h
  split at h
  · rename_i ticket response hn _
    refine ⟨ticket, response, hn, ?_⟩
    cases hk : s.acceptor.streams response.streamId with
    | none => rw [hk] at h; exact .inl ⟨rfl, (Option.some.inj h).symm⟩
    | some k => rw [hk] at h; exact .inr ⟨k, rfl, (Option.some.inj h).symm⟩
  · cases h

theorem write_cases {s t : State El σ o} {n : Fin o.writeThreadNum} (h : write s n = some t) :
    ∃ ticket response k, s.writers n = .found ticket response k ∧
      t = { s with
            writers := Function.update s.writers n .idle
            written := s.written ++ [⟨ticket, k, response⟩] } := by
  unfold write at h
  split at h
  · rename_i ticket response k hn
    exact ⟨ticket, response, k, hn, (Option.some.inj h).symm⟩
  · cases h

theorem step_cases {mp : Codec τ El} {s t : State El σ o} {a : Action o}
    (h : step mp s a = some t) : s.terminated = none ∧ act mp s a = some t := by
  unfold step at h
  split at h
  · cases h
  · rename_i ht
    exact ⟨ht, h⟩

/-- A step that adds to the histories and leaves the service objects alone. -/
structure Added (s t : State El σ o) (frames : List Frame) (runs : List (Run El σ))
    (writes : List Written) : Prop where
  arrived : t.arrived = s.arrived ++ frames
  ran : t.ran = s.ran ++ runs
  written : t.written = s.written ++ writes
  objects : t.objects = s.objects

theorem added_nothing {s t : State El σ o} (ha : t.arrived = s.arrived) (hr : t.ran = s.ran)
    (hw : t.written = s.written) (ho : t.objects = s.objects) : Added s t [] [] [] :=
  ⟨by simp [ha], by simp [hr], by simp [hw], ho⟩

/-- Each history grows in one kind of step only. -/
theorem added_step {mp : Codec τ El} {s t : State El σ o} {a : Action o}
    (h : step mp s a = some t) :
    match a with
    | .arrive k objectId body => ∃ stream, s.acceptor.connections[k]? = some stream ∧
        Added s t [⟨k, stream.ioThread, stream.streamId, objectId, body⟩] [] []
    | .call _ => ∃ w runs, Added { s with objects := w } t [] runs []
    | .write n => ∃ ticket response k, s.writers n = .found ticket response k ∧
        Added s t [] [] [⟨ticket, k, response⟩]
    | _ => Added s t [] [] [] := by
  obtain ⟨_, h⟩ := step_cases h
  cases a with
  | accept action =>
    obtain ⟨acceptor, _, rfl⟩ := Option.map_eq_some_iff.mp h
    exact added_nothing rfl rfl rfl rfl
  | arrive k objectId body =>
    obtain ⟨stream, hk, _, _, rfl⟩ := arrive_cases h
    exact ⟨stream, hk, rfl, by simp, by simp, rfl⟩
  | invoke i =>
    obtain ⟨ticket, frame, _, ⟨_, rfl⟩ | ⟨request, _, ⟨_, rfl⟩ | ⟨_, rfl⟩⟩⟩ :=
      invokeMethodOn_cases h
    all_goals exact added_nothing rfl rfl rfl rfl
  | pop j =>
    obtain ⟨ticket, request, rest, _, _, rfl⟩ := pop_cases h
    exact added_nothing rfl rfl rfl rfl
  | lookup u =>
    obtain ⟨ticket, request, _, rfl⟩ := lookupMethod_cases h
    exact added_nothing rfl rfl rfl rfl
  | call u =>
    obtain ⟨ticket, request, method, _, ⟨w, rfl, _⟩ | ⟨b, w, result, _, _, rfl⟩⟩ :=
      callMethod_cases h
    · exact ⟨w, [], added_nothing rfl rfl rfl rfl⟩
    · exact ⟨w, [⟨ticket, request, b, result⟩], by simp, rfl, by simp, rfl⟩
  | respond u =>
    obtain ⟨ticket, request, result, _, rfl⟩ := respond_cases h
    exact added_nothing rfl rfl rfl rfl
  | take n =>
    obtain ⟨ticket, response, rest, _, _, rfl⟩ := take_cases h
    exact added_nothing rfl rfl rfl rfl
  | find n =>
    obtain ⟨ticket, response, _, ⟨_, rfl⟩ | ⟨k, _, rfl⟩⟩ := find_cases h
    all_goals exact added_nothing rfl rfl rfl rfl
  | write n =>
    obtain ⟨ticket, response, k, hn, rfl⟩ := write_cases h
    exact ⟨ticket, response, k, hn, by simp, by simp, rfl, rfl⟩

/-- The frames that have arrived stay, and only `arrive` adds one. -/
theorem arrived_step {mp : Codec τ El} {s t : State El σ o} {a : Action o}
    (h : step mp s a = some t) (ha : ∀ k objectId body, a ≠ .arrive k objectId body) :
    t.arrived = s.arrived := by
  have hadd := added_step h
  cases a with
  | arrive k objectId body => exact absurd rfl (ha k objectId body)
  | call u =>
    obtain ⟨w, runs, hadd⟩ := hadd
    exact hadd.arrived.trans (List.append_nil _)
  | write n =>
    obtain ⟨ticket, response, k, _, hadd⟩ := hadd
    exact hadd.arrived.trans (List.append_nil _)
  | _ => exact hadd.arrived.trans (List.append_nil _)

/-- The histories only grow. -/
theorem prefix_step {mp : Codec τ El} {s t : State El σ o} {a : Action o}
    (h : step mp s a = some t) :
    s.arrived <+: t.arrived ∧ s.ran <+: t.ran ∧ s.written <+: t.written := by
  have hprefix : ∀ {w frames runs writes}, Added { s with objects := w } t frames runs writes →
      s.arrived <+: t.arrived ∧ s.ran <+: t.ran ∧ s.written <+: t.written :=
    fun hadd => ⟨⟨_, hadd.arrived.symm⟩, ⟨_, hadd.ran.symm⟩, ⟨_, hadd.written.symm⟩⟩
  have hadd := added_step h
  cases a with
  | arrive k objectId body => obtain ⟨stream, _, hadd⟩ := hadd; exact hprefix hadd
  | call u => obtain ⟨w, runs, hadd⟩ := hadd; exact hprefix hadd
  | write n => obtain ⟨ticket, response, k, _, hadd⟩ := hadd; exact hprefix hadd
  | _ => exact hprefix hadd

/-- Only the acceptor and the handlers of its streams change the connections. -/
theorem acceptor_step {mp : Codec τ El} {s t : State El σ o} {a : Action o}
    (h : step mp s a = some t) : t.acceptor = s.acceptor ∨
      ∃ action, a = .accept action ∧ Accept.step s.acceptor action = some t.acceptor := by
  obtain ⟨_, h⟩ := step_cases h
  cases a with
  | accept action =>
    obtain ⟨acceptor, ha, rfl⟩ := Option.map_eq_some_iff.mp h
    exact .inr ⟨action, rfl, ha⟩
  | arrive k objectId body =>
    obtain ⟨stream, _, _, _, rfl⟩ := arrive_cases h
    exact .inl rfl
  | invoke i =>
    obtain ⟨ticket, frame, _, ⟨_, rfl⟩ | ⟨request, _, ⟨_, rfl⟩ | ⟨_, rfl⟩⟩⟩ :=
      invokeMethodOn_cases h
    all_goals exact .inl rfl
  | pop j =>
    obtain ⟨ticket, request, rest, _, _, rfl⟩ := pop_cases h
    exact .inl rfl
  | lookup u =>
    obtain ⟨ticket, request, _, rfl⟩ := lookupMethod_cases h
    exact .inl rfl
  | call u =>
    obtain ⟨ticket, request, method, _, ⟨w, rfl, _⟩ | ⟨b, w, result, _, _, rfl⟩⟩ :=
      callMethod_cases h
    all_goals exact .inl rfl
  | respond u =>
    obtain ⟨ticket, request, result, _, rfl⟩ := respond_cases h
    exact .inl rfl
  | take n =>
    obtain ⟨ticket, response, rest, _, _, rfl⟩ := take_cases h
    exact .inl rfl
  | find n =>
    obtain ⟨ticket, response, _, ⟨_, rfl⟩ | ⟨k, _, rfl⟩⟩ := find_cases h
    all_goals exact .inl rfl
  | write n =>
    obtain ⟨ticket, response, k, _, rfl⟩ := write_cases h
    exact .inl rfl

end Dousi.Executor.Server
