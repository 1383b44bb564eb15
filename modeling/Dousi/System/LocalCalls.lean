import Dousi.System.Linearizability
import Dousi.System.RemoteCall

/-!
# Remote calls are local calls

A client sees of the server what it would see of the service objects themselves. When its
calls are packed by `ServiceHandle::Call`, the handlers run so far are calls made on the
objects one after another, with the arguments given by the clients; what has been stored or
called back is what these calls returned, and `Get` decodes it.
-/
namespace Dousi.System.LocalCalls

open Dousi.Lib.Word
open Dousi.Lib.Transition
open Dousi.Lib.Atomic (Entry Sequential Before linearized_of_reach)
open Dousi.Core.Msgpack
open Dousi.Executor.Services (Registry Built lastNamed lastFor lastNamed_mem
  lastFor_eq_lastNamed consistent_built)
open Dousi.Executor.InvokeHelper
open Dousi.Executor.Server (ExecutorOptions)
open Dousi.Client.Calls (Submitter ClientLanguage Buffers Called called_init called_step)
open Network Wires CallIds RemoteCall
open Linearizability (entryOf OneService Simulates simulated stored_of_log committed_of_delivered)

variable {τ : Type} {El : τ → Type} {σ : Type} {o : ExecutorOptions} {order : ByteOrder}

/-- The buffer of a call of a method that is registered for the service of the handle, and
for no other one. -/
structure Packs (mp : Codec τ El) (r : Registry (MethodType El σ)) (service : Nat)
    (c : Call El σ) (buffer : Bytes) : Prop where
  buffer : buffer = c.body mp
  undone : Undone mp c
  registered : r.registeredMethods c.remoteMethod.methodName =
    some ⟨service, c.remoteMethod.method⟩
  oneService : ∀ e ∈ r.registrations, e.methodName = c.remoteMethod.methodName →
    e.serviceName = c.serviceName

def Packed (mp : Codec τ El) (r : Registry (MethodType El σ)) (buffer : Bytes) : Prop :=
  ∃ service c, Packs mp r service c buffer

/-- Every request is made by `ServiceHandle::Call`. -/
def Handled (mp : Codec τ El) (r : Registry (MethodType El σ)) : Action o → Prop
  | .requestObjectID _ buffer _ => Packed mp r buffer
  | _ => True

/-- A call made on service object `service`, and what it returned. -/
structure LocalCall (El : τ → Type) (σ : Type) where
  id : CallId
  service : Nat
  call : Call El σ
  ret : Returned El call.remoteMethod.method.returnType

/-- The bytes that a result is sent back as. -/
def LocalCall.result (mp : Codec τ El) (x : LocalCall El σ) : Bytes :=
  serialize mp x.call.remoteMethod.method.returnType x.ret []

def LocalCall.entry (mp : Codec τ El) (x : LocalCall El σ) : Entry CallId Bytes Bytes :=
  ⟨x.id, x.call.body mp, x.result mp⟩

/-- What the proofs of a run carry from step to step, beside what the server's object needs. -/
structure Invariant (mp : Codec τ El) (r : Registry (MethodType El σ))
    (s : Config El σ o order) : Prop where
  packed : ∀ client ∈ s.clients, Buffers (Packed mp r) client
  called : ∀ client ∈ s.clients, Called client

theorem invariant_step {mp : Codec τ El} {r : Registry (MethodType El σ)}
    {s t : Config El σ o order} {a : Action o} (h : Invariant mp r s) (hc : Handled mp r a)
    (hs : step mp s a = some t) : Invariant mp r t := by
  refine ⟨buffers_step h.packed (by rintro k buffer decodes rfl; exact hc) hs, ?_⟩
  exact clients_invariant h.called called_init
    (fun _ _ _ _ _ hclient _ hstep => called_step hclient hstep) hs

open ProgramOrder (perform get voidReturnService data)
open Linearizability (answered)

end Dousi.System.LocalCalls
