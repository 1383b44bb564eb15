import Dousi.Executor.Drain
import Dousi.System.CallIds

/-!
# Runs in which nothing fails

No read and no write fails, every call names a registered method that does not throw, and
requests, results and counters stay below their widths. Then the wires lose nothing in
either direction: what a client has submitted is on its way up or has arrived, and what the
server has written is on its way down or has been delivered.
-/
namespace Dousi.System.Health

open Dousi.Lib.Word
open Dousi.Lib.Log
open Dousi.Lib.Transition
open Dousi.Core.Msgpack
open Dousi.Stream.AsioStream
open Dousi.Stream.Connection
open Dousi.Executor.Services (Registry)
open Dousi.Executor.InvokeHelper (MethodType Objects invoke)
open Dousi.Executor.Accept (Acceptor)
open Dousi.Executor.Server (ExecutorOptions Written Run added_step prefix_step arrive_cases)
open Dousi.Executor.Routing (Performs Replays Few Good)
open Dousi.Executor.Drain (Placed placed_loop placed_step)
open Dousi.Client.Calls (Submitter Buffers ClientLanguage onResponse)
open Network Wires CallIds

variable {τ : Type} {El : τ → Type} {σ : Type} {o : ExecutorOptions} {order : ByteOrder}

/-- The sockets of the server are open, and a stream that is in the map is read. -/
structure Open {io : Nat} (a : Acceptor io) : Prop where
  isOpen : ∀ c ∈ a.connections, c.isOpen = true
  reading : ∀ k c, a.connections[k]? = some c →
    c.reading = true ∨ a.phase = .made k ∨ a.phase = .inserted k

/-- Only `accept` makes a connection. -/
theorem connections_length_step {io : Nat} {a b : Acceptor io} {act : Executor.Accept.Action}
    (hs : Executor.Accept.step a act = some b) :
    b.connections.length = a.connections.length ∨
      (act = .accept ∧ b.connections.length = a.connections.length + 1) := by
  cases Executor.Accept.step_moves hs with
  | accept _ => exact .inr ⟨rfl, by simp⟩
  | start _ => exact .inl (by simp [Executor.Accept.doAccept, Executor.Accept.setStream])
  | readError _ => exact .inl (by simp [Executor.Accept.setStream])
  | writeError _ => exact .inl (by simp [Executor.Accept.setStream])
  | _ => exact .inl rfl

/-! The clients -/

/-- The read loop goes on, the socket is open, and a Java client has been called back for
every response. -/
structure Live (client : Submitter) : Prop where
  reading : client.loop.stage ≠ .stopped
  isOpen : client.isOpen = true
  called : client.clientLanguage = .java →
    client.callbacks = client.loop.delivered.map fun m => (m.objectId, m.data)

/-- The responses written to connection `k`. -/
def writtenOn (written : List Written) (k : Nat) : List Message :=
  (written.filter fun e => e.stream = k).map messageOfWritten

/-- What holds in every state of such a run. -/
structure Healthy (mp : Codec τ El) (r : Registry (MethodType El σ)) (w : Objects El σ)
    (s : Config El σ o order) : Prop where
  identified : Identified mp r w s
  server : Executor.Delivery.Invariant mp r w s.server
  placed : Placed s.server
  performs : ∀ client ∈ s.clients,
    Buffers (fun buffer => ∀ streamId objectId, Performs mp r streamId objectId buffer) client
  clients : ∀ client ∈ s.clients, Live client
  sockets : Open s.server.acceptor
  connected : s.server.acceptor.connections.length ≤ s.clients.length
  few : s.clients.length < 2 ^ 64
  sent : ∀ x m, submitted s.clients x = some m → m ∈ (s.up x.1).sent
  returned : ∀ k, (s.down k).sent = writtenOn s.server.written k

/-- The acceptor makes no more connections than there are clients. -/
theorem connected_step {mp : Codec τ El} {s t : Config El σ o order} {a : Action o}
    (h : s.server.acceptor.connections.length ≤ s.clients.length) (hs : step mp s a = some t) :
    t.server.acceptor.connections.length ≤ t.clients.length := by
  cases a with
  | connect language =>
    obtain rfl := Option.some.inj hs
    dsimp only
    rw [List.length_append]
    omega
  | submit k c =>
    obtain ⟨client, client', call, _, _, _, rfl⟩ := submit_cases hs
    rwa [List.length_set]
  | clientReceive k =>
    obtain ⟨client, client', b, link, _, _, _, _, rfl⟩ := clientReceive_cases hs
    rwa [List.length_set]
  | serverReceive k =>
    obtain ⟨b, link, _, ⟨_, rfl⟩ | ⟨m, server, _, hserver, rfl⟩⟩ := serverReceive_cases hs
    · exact h
    · obtain ⟨stream, _, _, _, rfl⟩ := arrive_cases (Executor.Server.step_cases hserver).2
      exact h
  | server action =>
    obtain ⟨hallowed, server, hserver, rfl⟩ := serverStep_cases hs
    rcases Executor.Server.acceptor_step hserver with hsame | ⟨act, rfl, hact⟩
    · dsimp only
      rwa [hsame]
    · rcases connections_length_step hact with hlen | ⟨rfl, hlen⟩
      · dsimp only
        omega
      · have hlt : s.server.acceptor.connections.length < s.clients.length :=
          of_decide_eq_true hallowed
        dsimp only
        omega
  | _ =>
    obtain ⟨client, client', _, _, rfl⟩ := clientStep_cases hs
    rwa [List.length_set]

end Dousi.System.Health
