import Dousi.Executor.Delivery
import Dousi.Lib.Ownership

/-!
# The requests and responses on the heap

Both queues are queues of raw pointers. `InvokeMethod` makes a `DousiRequest` with `new`, and
the worker that pops its address deletes it when `PerformRequest` has returned; a
`DousiResponse` is made by `PerformRequest` and deleted by the writer that pops it. Without
workers the request is a temporary. An address can be given out again once its object is
deleted. The values that the addresses stand for are those of the executor with values.
-/
namespace Dousi.Executor.HeapObjects

open Dousi.Lib.Word
open Dousi.Lib.Transition
open Dousi.Lib.Pool
open Dousi.Lib.Ownership
open Dousi.Core.Msgpack
open Request Services InvokeHelper
open Server (ExecutorOptions Thread Frame Run Written Fault)
open Accept (Acceptor)

/-- An object made by `new`, with the number of its frame. -/
inductive Cell where
  | request (ticket : Nat) (request : DousiRequest)
  | response (ticket : Nat) (response : DousiResponse)

inductive Kind where
  | request
  | response

def Cell.kind : Cell → Kind
  | .request .. => .request
  | .response .. => .response

section
variable (A : Type)

/-- `const DousiRequest &request` of `PerformRequest`. -/
inductive Ref where
  | temporary (ticket : Nat) (request : DousiRequest)
  | pointer (a : A)

variable {τ : Type} (El : τ → Type) (σ : Type)

inductive Job where
  | idle
  | invoking (ticket : Nat) (frame : Frame)
  | request (r : Ref A)
  | bound (r : Ref A) (method : Option (Bound (MethodType El σ)))
  | returned (r : Ref A) (result : Bytes)
  /-- before `delete request` -/
  | performed (a : A)

inductive WriteJob where
  | idle
  | popped (a : A)
  | found (a : A) (stream : Nat)
  /-- before the log line and `delete response` -/
  | written (a : A)

structure State (o : ExecutorOptions) where
  acceptor : Acceptor o.ioThreadNum
  registeredMethods : Bytes → Option (Option (Bound (MethodType El σ)))
  objects : Objects El σ
  heap : A → Option Cell
  requestQueue : List A
  responseQueue : List A
  jobs : Thread o → Job A El σ
  writers : Fin o.writeThreadNum → WriteJob A
  /-- a pointer to no object of its type was used -/
  invalid : Bool
  terminated : Option Fault
  arrived : List Frame
  ran : List (Run El σ)
  written : List Written

/-- `a` is the address that `new` returns. -/
inductive Action (o : ExecutorOptions) where
  | accept (action : Accept.Action)
  | arrive (connection : Nat) (objectId : UInt32) (body : Bytes)
  | invoke (i : Fin o.ioThreadNum) (a : A)
  | pop (j : Fin o.workThreadNum)
  | lookup (t : Thread o)
  | call (t : Thread o)
  | respond (t : Thread o) (a : A)
  | deleteRequest (t : Thread o)
  | take (n : Fin o.writeThreadNum)
  | find (n : Fin o.writeThreadNum)
  | write (n : Fin o.writeThreadNum)
  | deleteResponse (n : Fin o.writeThreadNum)

end

variable {A τ : Type} {El : τ → Type} {σ : Type} {o : ExecutorOptions}

def loop (A : Type) (o : ExecutorOptions) (r : Registry (MethodType El σ)) (w : Objects El σ) :
    State A El σ o where
  acceptor := Accept.loop o.io_pos
  registeredMethods m := (r.registeredMethods m).map some
  objects := w
  heap _ := none
  requestQueue := []
  responseQueue := []
  jobs _ := .idle
  writers _ := .idle
  invalid := false
  terminated := none
  arrived := []
  ran := []
  written := []

/-- The request at an address. -/
def requestAt (heap : A → Option Cell) (a : A) : Option (Nat × DousiRequest) :=
  match heap a with
  | some (.request ticket request) => some (ticket, request)
  | _ => none

def responseAt (heap : A → Option Cell) (a : A) : Option (Nat × DousiResponse) :=
  match heap a with
  | some (.response ticket response) => some (ticket, response)
  | _ => none

def deref (heap : A → Option Cell) : Ref A → Option (Nat × DousiRequest)
  | .temporary ticket request => some (ticket, request)
  | .pointer a => requestAt heap a

def throwException (s : State A El σ o) (ticket : Nat) : State A El σ o :=
  { s with terminated := some (.exception ticket) }

section
variable [DecidableEq A]

def arrive (s : State A El σ o) (k : Nat) (objectId : UInt32) (body : Bytes) :
    Option (State A El σ o) :=
  (s.acceptor.connections[k]?).bind fun stream =>
    match stream.reading, s.jobs (.inl stream.ioThread) with
    | true, .idle =>
      let frame : Frame := ⟨k, stream.ioThread, stream.streamId, objectId, body⟩
      some { s with
        jobs := Function.update s.jobs (.inl stream.ioThread) (.invoking s.arrived.length frame)
        arrived := s.arrived ++ [frame] }
    | _, _ => none

/-- `request_queue_.Push(new DousiRequest {...})`, or a temporary without workers. -/
def invokeMethodOn (mp : Codec τ El) (s : State A El σ o) (i : Fin o.ioThreadNum) (a : A) :
    Option (State A El σ o) :=
  match s.jobs (.inl i) with
  | .invoking ticket frame =>
    match invokeMethod mp frame.streamId frame.objectId frame.body with
    | none => some (throwException s ticket)
    | some request =>
      if 0 < o.workThreadNum then
        match s.heap a with
        | some _ => none
        | none => some { s with
            heap := Function.update s.heap a (some (.request ticket request))
            jobs := Function.update s.jobs (.inl i) .idle
            requestQueue := s.requestQueue ++ [a] }
      else some { s with
        jobs := Function.update s.jobs (.inl i) (.request (.temporary ticket request)) }
  | _ => none

def pop (s : State A El σ o) (j : Fin o.workThreadNum) : Option (State A El σ o) :=
  match s.jobs (.inr j), s.requestQueue with
  | .idle, a :: rest =>
    some { s with
      jobs := Function.update s.jobs (.inr j) (.request (.pointer a))
      requestQueue := rest }
  | _, _ => none

/-- `registered_methods_[request.method_name_]`. -/
def lookupMethod (s : State A El σ o) (t : Thread o) : Option (State A El σ o) :=
  match s.jobs t with
  | .request r =>
    match deref s.heap r with
    | none => some { s with invalid := true }
    | some (_, request) =>
      let method := (s.registeredMethods request.methodName).getD none
      some { s with
        jobs := Function.update s.jobs t (.bound r method)
        registeredMethods :=
          Function.update s.registeredMethods request.methodName (some method) }
  | _ => none

/-- `method(request.unpacked_, return_value_str)`. -/
def callMethod (mp : Codec τ El) (s : State A El σ o) (t : Thread o) :
    Option (State A El σ o) :=
  match s.jobs t with
  | .bound r method =>
    match deref s.heap r, method with
    | none, _ => some { s with invalid := true }
    | some (ticket, _), none => some (throwException s ticket)
    | some (ticket, request), some b =>
      let called := InvokeHelper.invoke mp b request.unpacked s.objects
      match called.2 with
      | none => some (throwException { s with objects := called.1 } ticket)
      | some result =>
        some { s with
          objects := called.1
          jobs := Function.update s.jobs t (.returned r result)
          ran := s.ran ++ [⟨ticket, request, b, result⟩] }
  | _ => none

/-- What is left to do with a request that has been performed. -/
def Ref.afterPerform : Ref A → Job A El σ
  | .temporary .. => .idle
  | .pointer a => .performed a

/-- `response_queue_.Push(new DousiResponse {...})`. -/
def respond (s : State A El σ o) (t : Thread o) (a : A) : Option (State A El σ o) :=
  match s.jobs t with
  | .returned r result =>
    match deref s.heap r with
    | none => some { s with invalid := true }
    | some (ticket, request) =>
      match s.heap a with
      | some _ => none
      | none => some { s with
          heap := Function.update s.heap a
            (some (.response ticket ⟨request.objectId, request.streamId, result⟩))
          jobs := Function.update s.jobs t r.afterPerform
          responseQueue := s.responseQueue ++ [a] }
  | _ => none

/-- `delete request`. -/
def deleteRequest (s : State A El σ o) (t : Thread o) : Option (State A El σ o) :=
  match s.jobs t with
  | .performed a =>
    match requestAt s.heap a with
    | none => some { s with invalid := true }
    | some _ => some { s with
        heap := Function.update s.heap a none
        jobs := Function.update s.jobs t .idle }
  | _ => none

def take (s : State A El σ o) (n : Fin o.writeThreadNum) : Option (State A El σ o) :=
  match s.writers n, s.responseQueue with
  | .idle, a :: rest =>
    some { s with
      writers := Function.update s.writers n (.popped a)
      responseQueue := rest }
  | _, _ => none

/-- `streams_.find(response->stream_id_)`. -/
def find (s : State A El σ o) (n : Fin o.writeThreadNum) : Option (State A El σ o) :=
  match s.writers n, Accept.unlocked s.acceptor with
  | .popped a, true =>
    match responseAt s.heap a with
    | none => some { s with invalid := true }
    | some (_, response) =>
      match s.acceptor.streams response.streamId with
      | none => some { s with terminated := some .assertion }
      | some k => some { s with writers := Function.update s.writers n (.found a k) }
  | _, _ => none

/-- `stream->Write(response->object_id_, response->result_)`. -/
def write (s : State A El σ o) (n : Fin o.writeThreadNum) : Option (State A El σ o) :=
  match s.writers n with
  | .found a k =>
    match responseAt s.heap a with
    | none => some { s with invalid := true }
    | some (ticket, response) =>
      some { s with
        writers := Function.update s.writers n (.written a)
        written := s.written ++ [⟨ticket, k, response⟩] }
  | _ => none

/-- The log line reads `response->result_` before `delete response`. -/
def deleteResponse (s : State A El σ o) (n : Fin o.writeThreadNum) : Option (State A El σ o) :=
  match s.writers n with
  | .written a =>
    match responseAt s.heap a with
    | none => some { s with invalid := true }
    | some _ => some { s with
        heap := Function.update s.heap a none
        writers := Function.update s.writers n .idle }
  | _ => none

def act (mp : Codec τ El) (s : State A El σ o) : Action A o → Option (State A El σ o)
  | .accept action => (Accept.step s.acceptor action).map fun acceptor => { s with acceptor }
  | .arrive k objectId body => arrive s k objectId body
  | .invoke i a => invokeMethodOn mp s i a
  | .pop j => pop s j
  | .lookup t => lookupMethod s t
  | .call t => callMethod mp s t
  | .respond t a => respond s t a
  | .deleteRequest t => deleteRequest s t
  | .take n => take s n
  | .find n => find s n
  | .write n => write s n
  | .deleteResponse n => deleteResponse s n

/-- Nothing is said of what comes after the use of an invalid pointer. -/
def step (mp : Codec τ El) (s : State A El σ o) (a : Action A o) : Option (State A El σ o) :=
  match s.invalid, s.terminated with
  | false, none => act mp s a
  | _, _ => none

end

/-! What a step can do -/

/-- The request that a thread has in hand. -/
def Job.ref : Job A El σ → Option (Ref A)
  | .idle => none
  | .invoking .. => none
  | .request r => some r
  | .bound r _ => some r
  | .returned r _ => some r
  | .performed a => some (.pointer a)

def WriteJob.address : WriteJob A → Option A
  | .idle => none
  | .popped a => some a
  | .found a _ => some a
  | .written a => some a

section
variable [DecidableEq A]

inductive Moves (mp : Codec τ El) (s : State A El σ o) : Action A o → State A El σ o → Prop
  | accept {action : Accept.Action} {acceptor : Acceptor o.ioThreadNum} :
      Accept.step s.acceptor action = some acceptor →
      Moves mp s (.accept action) { s with acceptor }
  | arrive {k : Nat} {objectId : UInt32} {body : Bytes} {stream : Accept.AsioStream o.ioThreadNum} :
      s.acceptor.connections[k]? = some stream → stream.reading = true →
      s.jobs (.inl stream.ioThread) = .idle → Moves mp s (.arrive k objectId body) { s with
        jobs := Function.update s.jobs (.inl stream.ioThread)
          (.invoking s.arrived.length ⟨k, stream.ioThread, stream.streamId, objectId, body⟩)
        arrived := s.arrived ++ [⟨k, stream.ioThread, stream.streamId, objectId, body⟩] }
  | malformed {i : Fin o.ioThreadNum} {a : A} {ticket : Nat} {frame : Frame} :
      s.jobs (.inl i) = .invoking ticket frame →
      invokeMethod mp frame.streamId frame.objectId frame.body = none →
      Moves mp s (.invoke i a) (throwException s ticket)
  | pushed {i : Fin o.ioThreadNum} {a : A} {ticket : Nat} {frame : Frame}
      {request : DousiRequest} : s.jobs (.inl i) = .invoking ticket frame →
      invokeMethod mp frame.streamId frame.objectId frame.body = some request →
      0 < o.workThreadNum → s.heap a = none → Moves mp s (.invoke i a) { s with
        heap := Function.update s.heap a (some (.request ticket request))
        jobs := Function.update s.jobs (.inl i) .idle
        requestQueue := s.requestQueue ++ [a] }
  | performing {i : Fin o.ioThreadNum} {a : A} {ticket : Nat} {frame : Frame}
      {request : DousiRequest} : s.jobs (.inl i) = .invoking ticket frame →
      invokeMethod mp frame.streamId frame.objectId frame.body = some request →
      ¬ 0 < o.workThreadNum → Moves mp s (.invoke i a) { s with
        jobs := Function.update s.jobs (.inl i) (.request (.temporary ticket request)) }
  | pop {j : Fin o.workThreadNum} {a : A} {rest : List A} : s.jobs (.inr j) = .idle →
      s.requestQueue = a :: rest → Moves mp s (.pop j) { s with
        jobs := Function.update s.jobs (.inr j) (.request (.pointer a))
        requestQueue := rest }
  | lookup {t : Thread o} {r : Ref A} {ticket : Nat} {request : DousiRequest} :
      s.jobs t = .request r → deref s.heap r = some (ticket, request) →
      Moves mp s (.lookup t) { s with
        jobs := Function.update s.jobs t
          (.bound r ((s.registeredMethods request.methodName).getD none))
        registeredMethods := Function.update s.registeredMethods request.methodName
          (some ((s.registeredMethods request.methodName).getD none)) }
  | emptyFunction {t : Thread o} {r : Ref A} {ticket : Nat} {request : DousiRequest} :
      s.jobs t = .bound r none → deref s.heap r = some (ticket, request) →
      Moves mp s (.call t) (throwException s ticket)
  | thrown {t : Thread o} {r : Ref A} {ticket : Nat} {request : DousiRequest}
      {b : Bound (MethodType El σ)} {w : Objects El σ} : s.jobs t = .bound r (some b) →
      deref s.heap r = some (ticket, request) →
      InvokeHelper.invoke mp b request.unpacked s.objects = (w, none) →
      Moves mp s (.call t) (throwException { s with objects := w } ticket)
  | called {t : Thread o} {r : Ref A} {ticket : Nat} {request : DousiRequest}
      {b : Bound (MethodType El σ)} {w : Objects El σ} {result : Bytes} :
      s.jobs t = .bound r (some b) → deref s.heap r = some (ticket, request) →
      InvokeHelper.invoke mp b request.unpacked s.objects = (w, some result) →
      Moves mp s (.call t) { s with
        objects := w
        jobs := Function.update s.jobs t (.returned r result)
        ran := s.ran ++ [⟨ticket, request, b, result⟩] }
  | respond {t : Thread o} {a : A} {r : Ref A} {result : Bytes} {ticket : Nat}
      {request : DousiRequest} : s.jobs t = .returned r result →
      deref s.heap r = some (ticket, request) → s.heap a = none →
      Moves mp s (.respond t a) { s with
        heap := Function.update s.heap a
          (some (.response ticket ⟨request.objectId, request.streamId, result⟩))
        jobs := Function.update s.jobs t r.afterPerform
        responseQueue := s.responseQueue ++ [a] }
  | deleteRequest {t : Thread o} {a : A} {e : Nat × DousiRequest} : s.jobs t = .performed a →
      requestAt s.heap a = some e → Moves mp s (.deleteRequest t) { s with
        heap := Function.update s.heap a none
        jobs := Function.update s.jobs t .idle }
  | take {n : Fin o.writeThreadNum} {a : A} {rest : List A} : s.writers n = .idle →
      s.responseQueue = a :: rest → Moves mp s (.take n) { s with
        writers := Function.update s.writers n (.popped a)
        responseQueue := rest }
  | notFound {n : Fin o.writeThreadNum} {a : A} {e : Nat × DousiResponse} :
      s.writers n = .popped a → Accept.unlocked s.acceptor = true →
      responseAt s.heap a = some e → s.acceptor.streams e.2.streamId = none →
      Moves mp s (.find n) { s with terminated := some .assertion }
  | found {n : Fin o.writeThreadNum} {a : A} {e : Nat × DousiResponse} {k : Nat} :
      s.writers n = .popped a → Accept.unlocked s.acceptor = true →
      responseAt s.heap a = some e → s.acceptor.streams e.2.streamId = some k →
      Moves mp s (.find n) { s with writers := Function.update s.writers n (.found a k) }
  | write {n : Fin o.writeThreadNum} {a : A} {k ticket : Nat} {response : DousiResponse} :
      s.writers n = .found a k → responseAt s.heap a = some (ticket, response) →
      Moves mp s (.write n) { s with
        writers := Function.update s.writers n (.written a)
        written := s.written ++ [⟨ticket, k, response⟩] }
  | deleteResponse {n : Fin o.writeThreadNum} {a : A} {e : Nat × DousiResponse} :
      s.writers n = .written a → responseAt s.heap a = some e →
      Moves mp s (.deleteResponse n) { s with
        heap := Function.update s.heap a none
        writers := Function.update s.writers n .idle }
  | invalidRequest {act : Action A o} {t : Thread o} {r : Ref A} : (s.jobs t).ref = some r →
      deref s.heap r = none → Moves mp s act { s with invalid := true }
  | invalidResponse {act : Action A o} {n : Fin o.writeThreadNum} {a : A} :
      (s.writers n).address = some a → responseAt s.heap a = none →
      Moves mp s act { s with invalid := true }

theorem arrive_moves {mp : Codec τ El} {s t : State A El σ o} {k : Nat} {objectId : UInt32}
    {body : Bytes} (h : arrive s k objectId body = some t) :
    Moves mp s (.arrive k objectId body) t := by
  obtain ⟨stream, hk, h⟩ := Option.bind_eq_some_iff.mp h
  split at h
  · next hr hj =>
    cases h
    exact .arrive hk hr hj
  · cases h

theorem invoke_moves {mp : Codec τ El} {s t : State A El σ o} {i : Fin o.ioThreadNum} {a : A}
    (h : invokeMethodOn mp s i a = some t) : Moves mp s (.invoke i a) t := by
  unfold invokeMethodOn at h
  split at h
  · next ticket frame hj =>
    split at h
    · next hn =>
      cases h
      exact .malformed hj hn
    · next request hr =>
      split at h
      · next hw =>
        split at h
        · cases h
        · next ha =>
          cases h
          exact .pushed hj hr hw ha
      · next hw =>
        cases h
        exact .performing hj hr hw
  · cases h

theorem call_moves {mp : Codec τ El} {s u : State A El σ o} {t : Thread o}
    (h : callMethod mp s t = some u) : Moves mp s (.call t) u := by
  unfold callMethod at h
  split at h
  · next r method hj =>
    split at h
    · next hr =>
      cases h
      exact .invalidRequest (by rw [hj]; rfl) hr
    · next ticket request hr =>
      cases h
      exact .emptyFunction hj hr
    · next ticket request b hr =>
      cases hi : InvokeHelper.invoke mp b request.unpacked s.objects with
      | mk w returned =>
        rw [hi] at h
        cases returned with
        | none =>
          cases h
          exact .thrown hj hr hi
        | some result =>
          cases h
          exact .called hj hr hi
  · cases h

theorem respond_moves {mp : Codec τ El} {s u : State A El σ o} {t : Thread o} {a : A}
    (h : respond s t a = some u) : Moves mp s (.respond t a) u := by
  unfold respond at h
  split at h
  · next r result hj =>
    split at h
    · next hr =>
      cases h
      exact .invalidRequest (by rw [hj]; rfl) hr
    · next ticket request hr =>
      split at h
      · cases h
      · next ha =>
        cases h
        exact .respond hj hr ha
  · cases h

theorem find_moves {mp : Codec τ El} {s t : State A El σ o} {n : Fin o.writeThreadNum}
    (h : find s n = some t) : Moves mp s (.find n) t := by
  unfold find at h
  split at h
  · next a hn hunlocked =>
    split at h
    · next hr =>
      cases h
      exact .invalidResponse (by rw [hn]; rfl) hr
    · next ticket response hr =>
      split at h
      · next hk =>
        cases h
        exact .notFound hn hunlocked hr hk
      · next k hk =>
        cases h
        exact .found hn hunlocked hr hk
  · cases h

theorem pop_moves {mp : Codec τ El} {s t : State A El σ o} {j : Fin o.workThreadNum}
    (h : pop s j = some t) : Moves mp s (.pop j) t := by
  unfold pop at h
  split at h
  · next hj hq =>
    cases h
    exact .pop hj hq
  · cases h

theorem lookup_moves {mp : Codec τ El} {s u : State A El σ o} {t : Thread o}
    (h : lookupMethod s t = some u) : Moves mp s (.lookup t) u := by
  unfold lookupMethod at h
  split at h
  · next r hj =>
    split at h
    · next hr =>
      cases h
      exact .invalidRequest (by rw [hj]; rfl) hr
    · next ticket request hr =>
      cases h
      exact .lookup hj hr
  · cases h

theorem deleteRequest_moves {mp : Codec τ El} {s u : State A El σ o} {t : Thread o}
    (h : deleteRequest s t = some u) : Moves mp s (.deleteRequest t) u := by
  unfold deleteRequest at h
  split at h
  · next a hj =>
    split at h
    · next hr =>
      cases h
      exact .invalidRequest (r := .pointer a) (by rw [hj]; rfl) hr
    · next hr =>
      cases h
      exact .deleteRequest hj hr
  · cases h

theorem take_moves {mp : Codec τ El} {s t : State A El σ o} {n : Fin o.writeThreadNum}
    (h : take s n = some t) : Moves mp s (.take n) t := by
  unfold take at h
  split at h
  · next hn hq =>
    cases h
    exact .take hn hq
  · cases h

theorem write_moves {mp : Codec τ El} {s t : State A El σ o} {n : Fin o.writeThreadNum}
    (h : write s n = some t) : Moves mp s (.write n) t := by
  unfold write at h
  split at h
  · next a k hn =>
    split at h
    · next hr =>
      cases h
      exact .invalidResponse (by rw [hn]; rfl) hr
    · next ticket response hr =>
      cases h
      exact .write hn hr
  · cases h

theorem deleteResponse_moves {mp : Codec τ El} {s t : State A El σ o}
    {n : Fin o.writeThreadNum} (h : deleteResponse s n = some t) :
    Moves mp s (.deleteResponse n) t := by
  unfold deleteResponse at h
  split at h
  · next a hn =>
    split at h
    · next hr =>
      cases h
      exact .invalidResponse (by rw [hn]; rfl) hr
    · next hr =>
      cases h
      exact .deleteResponse hn hr
  · cases h

theorem step_moves {mp : Codec τ El} {s t : State A El σ o} {act : Action A o}
    (h : step mp s act = some t) :
    s.invalid = false ∧ s.terminated = none ∧ Moves mp s act t := by
  unfold step at h
  split at h
  · next hvalid halive =>
    refine ⟨hvalid, halive, ?_⟩
    cases act with
    | accept action =>
      obtain ⟨acceptor, ha, rfl⟩ := Option.map_eq_some_iff.mp h
      exact .accept ha
    | arrive k objectId body => exact arrive_moves h
    | invoke i a => exact invoke_moves h
    | pop j => exact pop_moves h
    | lookup t => exact lookup_moves h
    | call t => exact call_moves h
    | respond t a => exact respond_moves h
    | deleteRequest t => exact deleteRequest_moves h
    | take n => exact take_moves h
    | find n => exact find_moves h
    | write n => exact write_moves h
    | deleteResponse n => exact deleteResponse_moves h
  · cases h

end

/-! Who holds the objects -/

def Ref.holds : Ref A → Multiset (A × Kind)
  | .temporary .. => 0
  | .pointer a => {(a, .request)}

def Job.holds (job : Job A El σ) : Multiset (A × Kind) :=
  match job.ref with
  | some r => r.holds
  | none => 0

def WriteJob.holds (job : WriteJob A) : Multiset (A × Kind) :=
  match job.address with
  | some a => {(a, .response)}
  | none => 0

/-- The queues and the threads. -/
def holders (s : State A El σ o) : Multiset (A × Kind) :=
  contents (fun a => (a, .request)) s.requestQueue + held Job.holds s.jobs +
    contents (fun a => (a, .response)) s.responseQueue + held WriteJob.holds s.writers

/-- No invalid pointer was used, and every object is in one queue or in one hand. -/
structure Safe (s : State A El σ o) : Prop where
  valid : s.invalid = false
  owned : Owned Cell.kind s.heap (holders s)

theorem safe_loop (r : Registry (MethodType El σ)) (w : Objects El σ) :
    Safe (loop A o r w) := by
  have hj : held Job.holds (fun _ : Thread o => (.idle : Job A El σ)) = 0 := held_idle rfl
  have hw : held WriteJob.holds (fun _ : Fin o.writeThreadNum => (.idle : WriteJob A)) = 0 :=
    held_idle rfl
  refine ⟨rfl, ?_⟩
  have hnone : holders (loop A o r w) = 0 := by simp [holders, loop, hj, hw]
  rw [hnone]
  exact owned_nothing _

theorem requestAt_of_held {heap : A → Option Cell} {holders : Multiset (A × Kind)}
    (h : Owned Cell.kind heap holders) {a : A} (ha : (a, .request) ∈ holders) :
    ∃ e, requestAt heap a = some e := by
  obtain ⟨c, hc, hkind⟩ := h.get ha
  cases c with
  | request ticket request => exact ⟨(ticket, request), by rw [requestAt, hc]⟩
  | response ticket response => cases hkind

theorem responseAt_of_held {heap : A → Option Cell} {holders : Multiset (A × Kind)}
    (h : Owned Cell.kind heap holders) {a : A} (ha : (a, .response) ∈ holders) :
    ∃ e, responseAt heap a = some e := by
  obtain ⟨c, hc, hkind⟩ := h.get ha
  cases c with
  | response ticket response => exact ⟨(ticket, response), by rw [responseAt, hc]⟩
  | request ticket request => cases hkind

/-- A request in hand can be used. -/
theorem Safe.deref {s : State A El σ o} (h : Safe s) {t : Thread o} {r : Ref A}
    (hr : (s.jobs t).ref = some r) : ∃ e, deref s.heap r = some e := by
  cases r with
  | temporary ticket request => exact ⟨(ticket, request), rfl⟩
  | pointer a =>
    refine requestAt_of_held h.owned ?_
    have hmem : (a, Kind.request) ∈ (s.jobs t).holds := by
      rw [Job.holds, hr]
      exact Multiset.mem_singleton_self _
    simp only [holders, Multiset.mem_add]
    exact .inl (.inl (.inr (mem_held hmem)))

theorem Safe.response {s : State A El σ o} (h : Safe s) {n : Fin o.writeThreadNum} {a : A}
    (hn : (s.writers n).address = some a) : ∃ e, responseAt s.heap a = some e := by
  refine responseAt_of_held h.owned ?_
  have hmem : (a, Kind.response) ∈ (s.writers n).holds := by
    rw [WriteJob.holds, hn]
    exact Multiset.mem_singleton_self _
  simp only [holders, Multiset.mem_add]
  exact .inr (mem_held hmem)

theorem Safe.queued {s : State A El σ o} (h : Safe s) {a : A} (ha : a ∈ s.requestQueue) :
    ∃ e, requestAt s.heap a = some e := by
  refine requestAt_of_held h.owned ?_
  simp only [holders, Multiset.mem_add]
  exact .inl (.inl (.inl (Multiset.mem_coe.mpr (List.mem_map_of_mem ha))))

theorem Safe.answered {s : State A El σ o} (h : Safe s) {a : A} (ha : a ∈ s.responseQueue) :
    ∃ e, responseAt s.heap a = some e := by
  refine responseAt_of_held h.owned ?_
  simp only [holders, Multiset.mem_add]
  exact .inl (.inr (Multiset.mem_coe.mpr (List.mem_map_of_mem ha)))

/-- A step that makes and deletes nothing, and hands the objects on. -/
theorem safe_keep {s t : State A El σ o} (h : Safe s) (hvalid : t.invalid = s.invalid)
    (hheap : t.heap = s.heap) (hholders : holders t = holders s) : Safe t := by
  refine ⟨hvalid.trans h.valid, ?_⟩
  rw [hheap, hholders]
  exact h.owned

/-- A thread that lets go of its request. -/
theorem holders_letGo {s : State A El σ o} {t : Thread o} {a : A} (hj : s.jobs t = .performed a) :
    holders { s with jobs := Function.update s.jobs t .idle } + {(a, .request)} = holders s := by
  have hrelease := held_release Job.holds s.jobs t .idle rfl
  rw [hj] at hrelease
  rw [holders, holders, ← hrelease]
  simp only [Job.holds, Job.ref, Ref.holds]
  abel

theorem holders_written {s : State A El σ o} {n : Fin o.writeThreadNum} {a : A}
    (hn : s.writers n = .written a) :
    holders { s with writers := Function.update s.writers n .idle } + {(a, .response)} =
      holders s := by
  have hrelease := held_release WriteJob.holds s.writers n .idle rfl
  rw [hn] at hrelease
  rw [holders, holders, ← hrelease]
  simp only [WriteJob.holds, WriteJob.address]
  abel

theorem safe_step [DecidableEq A] {mp : Codec τ El} {s t : State A El σ o} {act : Action A o}
    (h : Safe s) (hs : step mp s act = some t) : Safe t := by
  obtain ⟨-, -, hm⟩ := step_moves hs
  cases hm with
  | accept _ => exact safe_keep h rfl rfl rfl
  | @arrive k objectId body stream _ _ hj =>
    refine safe_keep h rfl rfl ?_
    rw [holders, held_keep (by rw [hj]; rfl)]
    rfl
  | malformed _ _ => exact safe_keep h rfl rfl rfl
  | @pushed i a ticket frame request hj _ _ ha =>
    refine ⟨h.valid, ?_⟩
    have hholders : holders { s with
        heap := Function.update s.heap a (some (.request ticket request))
        jobs := Function.update s.jobs (.inl i) .idle
        requestQueue := s.requestQueue ++ [a] } = holders s + {(a, .request)} := by
      simp only [holders, contents_append, contents_cons, contents_nil]
      rw [held_keep (by rw [hj]; rfl)]
      abel
    rw [hholders]
    exact h.owned.alloc ha (.request ticket request)
  | @performing i a ticket frame request hj _ _ =>
    refine safe_keep h rfl rfl ?_
    rw [holders, held_keep (by rw [hj]; rfl)]
    rfl
  | @pop j a rest hj hq =>
    refine safe_keep h rfl rfl ?_
    simp only [holders, hq, contents_cons]
    rw [held_take _ _ _ _ (by rw [hj]; rfl)]
    simp only [Job.holds, Job.ref, Ref.holds]
    abel
  | @lookup t r ticket request hj _ =>
    refine safe_keep h rfl rfl ?_
    rw [holders, held_keep (by rw [hj]; rfl)]
    rfl
  | emptyFunction _ _ => exact safe_keep h rfl rfl rfl
  | thrown _ _ _ => exact safe_keep h rfl rfl rfl
  | @called t r ticket request b w result hj _ _ =>
    refine safe_keep h rfl rfl ?_
    rw [holders, held_keep (by rw [hj]; rfl)]
    rfl
  | @respond t a r result ticket request hj _ ha =>
    refine ⟨h.valid, ?_⟩
    have hholders : holders { s with
        heap := Function.update s.heap a
          (some (.response ticket ⟨request.objectId, request.streamId, result⟩))
        jobs := Function.update s.jobs t r.afterPerform
        responseQueue := s.responseQueue ++ [a] } = holders s + {(a, .response)} := by
      simp only [holders, contents_append, contents_cons, contents_nil]
      rw [held_keep (by rw [hj]; cases r <;> rfl)]
      abel
    rw [hholders]
    exact h.owned.alloc ha (.response ticket ⟨request.objectId, request.streamId, result⟩)
  | @deleteRequest t a e hj _ =>
    have howned := h.owned
    rw [← holders_letGo hj] at howned
    exact ⟨h.valid, howned.free⟩
  | @take n a rest hn hq =>
    refine safe_keep h rfl rfl ?_
    simp only [holders, hq, contents_cons]
    rw [held_take _ _ _ _ (by rw [hn]; rfl)]
    simp only [WriteJob.holds, WriteJob.address]
    abel
  | notFound _ _ _ _ => exact safe_keep h rfl rfl rfl
  | @found n a e k hn _ _ _ =>
    refine safe_keep h rfl rfl ?_
    rw [holders, held_keep (by rw [hn]; rfl)]
    rfl
  | @write n a k ticket response hn _ =>
    refine safe_keep h rfl rfl ?_
    rw [holders, held_keep (by rw [hn]; rfl)]
    rfl
  | @deleteResponse n a e hn _ =>
    have howned := h.owned
    rw [← holders_written hn] at howned
    exact ⟨h.valid, howned.free⟩
  | invalidRequest hr hnone =>
    obtain ⟨e, he⟩ := h.deref hr
    rw [hnone] at he
    cases he
  | invalidResponse hn hnone =>
    obtain ⟨e, he⟩ := h.response hn
    rw [hnone] at he
    cases he

/-! The values that the addresses stand for -/

def viewJob (heap : A → Option Cell) : Job A El σ → Server.Job El σ
  | .idle => .idle
  | .invoking ticket frame => .invoking ticket frame
  | .request r =>
    match deref heap r with
    | some (ticket, request) => .request ticket request
    | none => .idle
  | .bound r method =>
    match deref heap r with
    | some (ticket, request) => .bound ticket request method
    | none => .idle
  | .returned r result =>
    match deref heap r with
    | some (ticket, request) => .returned ticket request result
    | none => .idle
  | .performed _ => .idle

def viewWriter (heap : A → Option Cell) : WriteJob A → Server.WriteJob
  | .idle => .idle
  | .popped a =>
    match responseAt heap a with
    | some (ticket, response) => .popped ticket response
    | none => .idle
  | .found a k =>
    match responseAt heap a with
    | some (ticket, response) => .found ticket response k
    | none => .idle
  | .written _ => .idle

def view (s : State A El σ o) : Server.State El σ o where
  acceptor := s.acceptor
  registeredMethods := s.registeredMethods
  objects := s.objects
  requestQueue := s.requestQueue.filterMap (requestAt s.heap)
  responseQueue := s.responseQueue.filterMap (responseAt s.heap)
  jobs := viewJob s.heap ∘ s.jobs
  writers := viewWriter s.heap ∘ s.writers
  terminated := s.terminated
  arrived := s.arrived
  ran := s.ran
  written := s.written

theorem view_loop (r : Registry (MethodType El σ)) (w : Objects El σ) :
    view (loop A o r w) = Server.loop o r w := rfl

/-- What a thread takes in hand, and what is pushed, as values. -/
theorem view_hand (s : State A El σ o) (t : Thread o) (job : Job A El σ)
    (requestQueue responseQueue : List A) :
    view { s with jobs := Function.update s.jobs t job, requestQueue, responseQueue } =
      { view s with
        jobs := Function.update (view s).jobs t (viewJob s.heap job)
        requestQueue := requestQueue.filterMap (requestAt s.heap)
        responseQueue := responseQueue.filterMap (responseAt s.heap) } := by
  simp only [view, Function.comp_update]

theorem view_write (s : State A El σ o) (n : Fin o.writeThreadNum) (job : WriteJob A)
    (responseQueue : List A) :
    view { s with writers := Function.update s.writers n job, responseQueue } =
      { view s with
        writers := Function.update (view s).writers n (viewWriter s.heap job)
        responseQueue := responseQueue.filterMap (responseAt s.heap) } := by
  simp only [view, Function.comp_update]

theorem server_step {mp : Codec τ El} {s : State A El σ o} (h : s.terminated = none)
    (a : Server.Action o) : Server.step mp (view s) a = Server.act mp (view s) a := by
  rw [Server.step, show (view s).terminated = none from h]

section
variable [DecidableEq A]

theorem viewJob_update {heap : A → Option Cell} {job : Job A El σ} {a : A}
    (h : ∀ k, (a, k) ∉ job.holds) (c : Option Cell) :
    viewJob (Function.update heap a c) job = viewJob heap job := by
  have hderef : ∀ r, job.ref = some r → deref (Function.update heap a c) r = deref heap r := by
    intro r hr
    cases r with
    | temporary ticket request => rfl
    | pointer b =>
      have hne : b ≠ a := by
        rintro rfl
        refine h .request ?_
        rw [Job.holds, hr]
        exact Multiset.mem_singleton_self _
      rw [deref, deref, requestAt, requestAt, Function.update_of_ne hne]
  cases job with
  | idle => rfl
  | invoking ticket frame => rfl
  | request r => rw [viewJob, viewJob, hderef r rfl]
  | bound r method => rw [viewJob, viewJob, hderef r rfl]
  | returned r result => rw [viewJob, viewJob, hderef r rfl]
  | performed b => rfl

theorem viewWriter_update {heap : A → Option Cell} {job : WriteJob A} {a : A}
    (h : ∀ k, (a, k) ∉ job.holds) (c : Option Cell) :
    viewWriter (Function.update heap a c) job = viewWriter heap job := by
  have hresponse : ∀ b, job.address = some b →
      responseAt (Function.update heap a c) b = responseAt heap b := by
    intro b hb
    have hne : b ≠ a := by
      rintro rfl
      refine h .response ?_
      rw [WriteJob.holds, hb]
      exact Multiset.mem_singleton_self _
    rw [responseAt, responseAt, Function.update_of_ne hne]
  cases job with
  | idle => rfl
  | popped b => rw [viewWriter, viewWriter, hresponse b rfl]
  | found b k => rw [viewWriter, viewWriter, hresponse b rfl]
  | written b => rfl

/-- What is made or deleted where nobody looks is not seen. -/
theorem view_heap {s : State A El σ o} {a : A} (h : ∀ k, (a, k) ∉ holders s)
    (c : Option Cell) : view { s with heap := Function.update s.heap a c } = view s := by
  have hrequest : ∀ b ∈ s.requestQueue, b ≠ a := by
    rintro b hb rfl
    refine h .request ?_
    simp only [holders, Multiset.mem_add]
    exact .inl (.inl (.inl (Multiset.mem_coe.mpr (List.mem_map_of_mem hb))))
  have hresponse : ∀ b ∈ s.responseQueue, b ≠ a := by
    rintro b hb rfl
    refine h .response ?_
    simp only [holders, Multiset.mem_add]
    exact .inl (.inr (Multiset.mem_coe.mpr (List.mem_map_of_mem hb)))
  have hjobs : ∀ t k, (a, k) ∉ (s.jobs t).holds := by
    intro t k hmem
    refine h k ?_
    simp only [holders, Multiset.mem_add]
    exact .inl (.inl (.inr (mem_held hmem)))
  have hwriters : ∀ n k, (a, k) ∉ (s.writers n).holds := by
    intro n k hmem
    refine h k ?_
    simp only [holders, Multiset.mem_add]
    exact .inr (mem_held hmem)
  simp only [view, Server.State.mk.injEq, true_and, and_true]
  refine ⟨?_, ?_, funext fun t => viewJob_update (hjobs t) c,
    funext fun n => viewWriter_update (hwriters n) c⟩
  · refine List.filterMap_congr fun b hb => ?_
    rw [requestAt, requestAt, Function.update_of_ne (hrequest b hb)]
  · refine List.filterMap_congr fun b hb => ?_
    rw [responseAt, responseAt, Function.update_of_ne (hresponse b hb)]

/-- A deleted object was seen by nobody any more. -/
theorem view_deleteRequest {s : State A El σ o} (h : Safe s) {t : Thread o} {a : A}
    (hj : s.jobs t = .performed a) : view { s with
      heap := Function.update s.heap a none
      jobs := Function.update s.jobs t .idle } = view s := by
  have howned := h.owned
  rw [← holders_letGo hj] at howned
  have hidle : (view s).jobs t = .idle := congrArg (viewJob s.heap) hj
  calc view { s with
        heap := Function.update s.heap a none
        jobs := Function.update s.jobs t .idle }
      = view { s with jobs := Function.update s.jobs t .idle } :=
        view_heap howned.not_held_rest none
    _ = { view s with jobs := Function.update (view s).jobs t (viewJob s.heap .idle) } :=
        view_hand s t .idle s.requestQueue s.responseQueue
    _ = view s := by rw [viewJob, ← hidle, Function.update_eq_self]

theorem view_deleteResponse {s : State A El σ o} (h : Safe s) {n : Fin o.writeThreadNum} {a : A}
    (hn : s.writers n = .written a) : view { s with
      heap := Function.update s.heap a none
      writers := Function.update s.writers n .idle } = view s := by
  have howned := h.owned
  rw [← holders_written hn] at howned
  have hidle : (view s).writers n = .idle := congrArg (viewWriter s.heap) hn
  calc view { s with
        heap := Function.update s.heap a none
        writers := Function.update s.writers n .idle }
      = view { s with writers := Function.update s.writers n .idle } :=
        view_heap howned.not_held_rest none
    _ = { view s with writers := Function.update (view s).writers n (viewWriter s.heap .idle) } :=
        view_write s n .idle s.responseQueue
    _ = view s := by rw [viewWriter, ← hidle, Function.update_eq_self]

theorem view_pushRequest {s : State A El σ o} (h : Safe s) {t : Thread o} {a : A}
    (ha : s.heap a = none) (ticket : Nat) (request : DousiRequest) : view { s with
      heap := Function.update s.heap a (some (.request ticket request))
      jobs := Function.update s.jobs t .idle
      requestQueue := s.requestQueue ++ [a] } = { view s with
      jobs := Function.update (view s).jobs t .idle
      requestQueue := (view s).requestQueue ++ [(ticket, request)] } := by
  have hnew : [a].filterMap
      (requestAt (Function.update s.heap a (some (.request ticket request)))) =
      [(ticket, request)] := by
    simp [requestAt]
  rw [← view_heap (h.owned.not_held ha) (some (.request ticket request))]
  refine (view_hand { s with heap := Function.update s.heap a (some (.request ticket request)) }
    t .idle (s.requestQueue ++ [a]) s.responseQueue).trans ?_
  rw [List.filterMap_append, hnew]
  rfl

theorem view_pushResponse {s : State A El σ o} (h : Safe s) {t : Thread o} {a : A}
    (ha : s.heap a = none) (r : Ref A) (ticket : Nat) (response : DousiResponse) :
    view { s with
      heap := Function.update s.heap a (some (.response ticket response))
      jobs := Function.update s.jobs t r.afterPerform
      responseQueue := s.responseQueue ++ [a] } = { view s with
      jobs := Function.update (view s).jobs t .idle
      responseQueue := (view s).responseQueue ++ [(ticket, response)] } := by
  have hnew : [a].filterMap
      (responseAt (Function.update s.heap a (some (.response ticket response)))) =
      [(ticket, response)] := by
    simp [responseAt]
  have hidle (heap : A → Option Cell) : viewJob heap (r.afterPerform : Job A El σ) = .idle := by
    cases r <;> rfl
  rw [← view_heap (h.owned.not_held ha) (some (.response ticket response))]
  refine (view_hand { s with heap := Function.update s.heap a (some (.response ticket response)) }
    t r.afterPerform s.requestQueue (s.responseQueue ++ [a])).trans ?_
  rw [List.filterMap_append, hnew, hidle]
  rfl

/-- Every step is one of the executor with values, but a `delete` is none. -/
theorem view_step {mp : Codec τ El} {s t : State A El σ o} {act : Action A o} (h : Safe s)
    (hs : step mp s act = some t) :
    view t = view s ∨ ∃ a, Server.step mp (view s) a = some (view t) := by
  obtain ⟨-, halive, hm⟩ := step_moves hs
  cases hm with
  | @accept action acceptor ha =>
    refine .inr ⟨.accept action, ?_⟩
    rw [server_step halive, Server.act, show (view s).acceptor = s.acceptor from rfl, ha]
    rfl
  | @arrive k objectId body stream hk hread hj =>
    have hidle : (view s).jobs (.inl stream.ioThread) = .idle := congrArg (viewJob s.heap) hj
    refine .inr ⟨.arrive k objectId body, ?_⟩
    rw [server_step halive, Server.act, Server.arrive,
      show (view s).acceptor.connections[k]? = some stream from hk, Option.bind_some]
    simp only [hread, hidle]
    simp only [view, Function.comp_update]
    rfl
  | @malformed i a ticket frame hj hn =>
    have hinvoking : (view s).jobs (.inl i) = .invoking ticket frame :=
      congrArg (viewJob s.heap) hj
    refine .inr ⟨.invoke i, ?_⟩
    rw [server_step halive, Server.act, Server.invokeMethodOn]
    simp only [hinvoking, hn]
    rfl
  | @pushed i a ticket frame request hj hr hw ha =>
    have hinvoking : (view s).jobs (.inl i) = .invoking ticket frame :=
      congrArg (viewJob s.heap) hj
    refine .inr ⟨.invoke i, ?_⟩
    rw [server_step halive, Server.act, Server.invokeMethodOn]
    simp only [hinvoking, hr, hw, if_true]
    rw [view_pushRequest h ha]
  | @performing i a ticket frame request hj hr hw =>
    have hinvoking : (view s).jobs (.inl i) = .invoking ticket frame :=
      congrArg (viewJob s.heap) hj
    refine .inr ⟨.invoke i, ?_⟩
    rw [server_step halive, Server.act, Server.invokeMethodOn]
    simp only [hinvoking, hr, if_neg hw]
    exact congrArg some (view_hand s (.inl i) (.request (.temporary ticket request))
      s.requestQueue s.responseQueue).symm
  | @pop j a rest hj hq =>
    obtain ⟨⟨ticket, request⟩, ha⟩ := h.queued (by rw [hq]; exact List.mem_cons_self)
    have hidle : (view s).jobs (.inr j) = .idle := congrArg (viewJob s.heap) hj
    have hqueue : (view s).requestQueue =
        (ticket, request) :: rest.filterMap (requestAt s.heap) := by
      simp only [view, hq, List.filterMap_cons, ha]
    refine .inr ⟨.pop j, ?_⟩
    rw [server_step halive, Server.act, Server.pop]
    simp only [hidle, hqueue]
    refine congrArg some ((view_hand s _ _ rest s.responseQueue).trans ?_).symm
    simp only [viewJob, deref, ha]
    rfl
  | @lookup t r ticket request hj hr =>
    have hrequest : (view s).jobs t = .request ticket request := by
      simp only [view, Function.comp, hj, viewJob, hr]
    refine .inr ⟨.lookup t, ?_⟩
    rw [server_step halive, Server.act, Server.lookupMethod]
    simp only [hrequest]
    simp only [view, Function.comp_update, viewJob, hr]
  | @emptyFunction t r ticket request hj hr =>
    have hbound : (view s).jobs t = .bound ticket request none := by
      simp only [view, Function.comp, hj, viewJob, hr]
    refine .inr ⟨.call t, ?_⟩
    rw [server_step halive, Server.act, Server.callMethod]
    simp only [hbound]
    rfl
  | @thrown t r ticket request b w hj hr hi =>
    have hbound : (view s).jobs t = .bound ticket request (some b) := by
      simp only [view, Function.comp, hj, viewJob, hr]
    refine .inr ⟨.call t, ?_⟩
    rw [server_step halive, Server.act, Server.callMethod]
    simp only [hbound, show (view s).objects = s.objects from rfl, hi]
    rfl
  | @called t r ticket request b w result hj hr hi =>
    have hbound : (view s).jobs t = .bound ticket request (some b) := by
      simp only [view, Function.comp, hj, viewJob, hr]
    refine .inr ⟨.call t, ?_⟩
    rw [server_step halive, Server.act, Server.callMethod]
    simp only [hbound, show (view s).objects = s.objects from rfl, hi]
    simp only [view, Function.comp_update, viewJob, hr]
  | @respond t a r result ticket request hj hr ha =>
    have hreturned : (view s).jobs t = .returned ticket request result := by
      simp only [view, Function.comp, hj, viewJob, hr]
    refine .inr ⟨.respond t, ?_⟩
    rw [server_step halive, Server.act, Server.respond]
    simp only [hreturned]
    rw [view_pushResponse h ha]
  | deleteRequest hj _ => exact .inl (view_deleteRequest h hj)
  | @take n a rest hn hq =>
    obtain ⟨⟨ticket, response⟩, ha⟩ := h.answered (by rw [hq]; exact List.mem_cons_self)
    have hidle : (view s).writers n = .idle := congrArg (viewWriter s.heap) hn
    have hqueue : (view s).responseQueue =
        (ticket, response) :: rest.filterMap (responseAt s.heap) := by
      simp only [view, hq, List.filterMap_cons, ha]
    refine .inr ⟨.take n, ?_⟩
    rw [server_step halive, Server.act, Server.take]
    simp only [hidle, hqueue]
    refine congrArg some ((view_write s _ _ rest).trans ?_).symm
    simp only [viewWriter, ha]
  | @notFound n a e hn hunlocked ha hk =>
    have hpopped : (view s).writers n = .popped e.1 e.2 := by
      simp only [view, Function.comp, hn, viewWriter, ha]
    refine .inr ⟨.find n, ?_⟩
    rw [server_step halive, Server.act, Server.find]
    simp only [hpopped, show (view s).acceptor = s.acceptor from rfl, hunlocked, hk]
    rfl
  | @found n a e k hn hunlocked ha hk =>
    have hpopped : (view s).writers n = .popped e.1 e.2 := by
      simp only [view, Function.comp, hn, viewWriter, ha]
    refine .inr ⟨.find n, ?_⟩
    rw [server_step halive, Server.act, Server.find]
    simp only [hpopped, show (view s).acceptor = s.acceptor from rfl, hunlocked, hk]
    refine congrArg some ((view_write s _ _ s.responseQueue).trans ?_).symm
    simp only [viewWriter, ha]
    rfl
  | @write n a k ticket response hn ha =>
    have hfound : (view s).writers n = .found ticket response k := by
      simp only [view, Function.comp, hn, viewWriter, ha]
    refine .inr ⟨.write n, ?_⟩
    rw [server_step halive, Server.act, Server.write]
    simp only [hfound]
    simp only [view, Function.comp_update, viewWriter]
  | deleteResponse hn _ => exact .inl (view_deleteResponse h hn)
  | invalidRequest hr hnone =>
    obtain ⟨e, he⟩ := h.deref hr
    rw [hnone] at he
    cases he
  | invalidResponse hn hnone =>
    obtain ⟨e, he⟩ := h.response hn
    rw [hnone] at he
    cases he

end

/-- Nothing is queued and nobody has anything in hand. -/
structure Idle (s : State A El σ o) : Prop where
  requests : s.requestQueue = []
  responses : s.responseQueue = []
  jobs : ∀ t, s.jobs t = .idle
  writers : ∀ n, s.writers n = .idle

theorem holders_idle {s : State A El σ o} (h : Idle s) : holders s = 0 := by
  have hj : held Job.holds s.jobs = 0 := Finset.sum_eq_zero fun t _ => by rw [h.jobs t]; rfl
  have hw : held WriteJob.holds s.writers = 0 :=
    Finset.sum_eq_zero fun n _ => by rw [h.writers n]; rfl
  rw [holders, h.requests, h.responses, hj, hw]
  rfl

/-- Whatever addresses `new` returns and whatever the order of the steps: no pointer to a
deleted object or one of the other type is used or deleted, an object is there as long as it
is in a queue or in a hand and no longer, and what the addresses stand for is a state that
the executor with values reaches. -/
theorem pointers_are_values [DecidableEq A] {mp : Codec τ El} {r : Registry (MethodType El σ)}
    {w : Objects El σ} {s : State A El σ o} (h : Reach (step mp) Any (loop A o r w) s) :
    Safe s ∧ Reach (Server.step mp) Any (Server.loop o r w) (view s) ∧
      (Idle s → ∀ a, s.heap a = none) := by
  have hsafe : Safe s := h.invariant (safe_loop r w) fun _ _ _ hu _ hs => safe_step hu hs
  obtain ⟨v, hv, -, rfl⟩ : ∃ v, Reach (Server.step mp) Any (Server.loop o r w) v ∧
      Safe s ∧ view s = v := by
    refine h.simulate (R := fun u v => Safe u ∧ view u = v) ⟨safe_loop r w, view_loop r w⟩ ?_
    rintro u a t v ⟨hu, rfl⟩ - hs
    rcases view_step hu hs with hsame | ⟨b, hb⟩
    · exact .inl ⟨safe_step hu hs, hsame⟩
    · exact .inr ⟨b, view t, trivial, hb, safe_step hu hs, rfl⟩
  refine ⟨hsafe, hv, fun hidle a => hsafe.owned.none_of_not_held fun k => ?_⟩
  rw [holders_idle hidle]
  exact Multiset.notMem_zero _

open SignatureValidation (add calculator)
open Delivery (single)

/-- The call of `add` with the arguments 1 and 2: its request is made at the address 5 and its
response at the address 6. -/
def callAdd (objectId : UInt32) : List (Action Nat single) :=
  [.arrive 0 objectId [0x94, 0xa1, 67, 0xa3, 97, 100, 100, 1, 2], .invoke 0 5, .pop 0,
    .lookup (.inr 0), .call (.inr 0), .respond (.inr 0) 6, .deleteRequest (.inr 0), .take 0,
    .find 0, .write 0, .deleteResponse 0]

/-- A second call is given the same addresses. -/
def reused : List (Action Nat single) :=
  [.accept .accept, .accept .insert, .accept .start] ++ callAdd 7 ++ callAdd 8

theorem pointers_are_values_reused : ∃ r, run Services.step empty calculator = some r ∧
    ∃ s, run (step fixCodec) (loop Nat single r ⟨fun _ => (), []⟩) reused = some s ∧
      s.written = [⟨0, 0, ⟨7, 0, [3]⟩⟩, ⟨1, 0, ⟨8, 0, [3]⟩⟩] ∧
      Safe s ∧ Reach (Server.step fixCodec) Any (Server.loop single r ⟨fun _ => (), []⟩) (view s) ∧
      (Idle s → ∀ a, s.heap a = none) := by
  obtain ⟨r, hr⟩ : ∃ r, run Services.step empty calculator = some r := ⟨_, rfl⟩
  obtain ⟨s, hs, hw⟩ : ∃ s,
      run (step fixCodec) (loop Nat single r ⟨fun _ => (), []⟩) reused = some s ∧
      s.written = [⟨0, 0, ⟨7, 0, [3]⟩⟩, ⟨1, 0, ⟨8, 0, [3]⟩⟩] := by
    cases hr
    exact ⟨_, rfl, rfl⟩
  exact ⟨r, hr, s, hs, hw, pointers_are_values (Reach.of_run hs)⟩

end Dousi.Executor.HeapObjects
