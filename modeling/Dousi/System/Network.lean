import Dousi.Client.Calls
import Dousi.Executor.BadRequests
import Dousi.Lib.Atomic
import Dousi.Stream.Connection

/-!
# Clients and server together

Connection `k` of the server belongs to client `k`: the acceptor takes the clients in
the order they connect. A client may write before its connection is accepted. The
history records when a call is submitted, when its handler runs and when its response
is stored; no step reads it.
-/
namespace Dousi.System.Network

open Dousi.Lib.Word
open Dousi.Lib.Transition
open Dousi.Core.Msgpack
open Dousi.Stream.AsioStream
open Dousi.Stream.Connection
open Dousi.Executor.Services (Registry)
open Dousi.Executor.InvokeHelper (MethodType Objects)
open Dousi.Executor.Server (ExecutorOptions Frame Run)
open Dousi.Client.Calls (ClientLanguage Submitter delivered)
open Dousi.Lib.Atomic (Event)

/-- A call by the number of its client and its number at the client. -/
abbrev CallId := Nat × Nat

/-- The call that a message of client `k` belongs to. -/
def callOfMessage (k : Nat) (m : Message) : CallId := (k, m.objectId.toNat)

/-- The call that a frame belongs to. -/
def callOfFrame (f : Frame) : CallId := (f.connection, f.objectId.toNat)

def callOfRun {τ : Type} {El : τ → Type} {σ : Type} (arrived : List Frame) (run : Run El σ) :
    Option CallId :=
  (arrived[run.ticket]?).map callOfFrame

structure Config {τ : Type} (El : τ → Type) (σ : Type) (o : ExecutorOptions)
    (order : ByteOrder) where
  server : Executor.Server.State El σ o
  clients : List Submitter
  up : Nat → Link order
  down : Nat → Link order
  history : List (Event CallId)

inductive Action (o : ExecutorOptions) where
  | connect (language : ClientLanguage)
  | requestObjectID (k : Nat) (buffer : Bytes) (decodes : Bytes → Bool)
  | submit (k c : Nat)
  | get (k c : Nat)
  | clientReceive (k : Nat)
  | clientReadError (k : Nat)
  | clientWriteError (k : Nat)
  | serverReceive (k : Nat)
  | server (action : Executor.Server.Action o)

variable {τ : Type} {El : τ → Type} {σ : Type} {o : ExecutorOptions} {order : ByteOrder}

/-- A server in `Loop`, and no client yet. -/
def start (o : ExecutorOptions) (order : ByteOrder) (r : Registry (MethodType El σ))
    (w : Objects El σ) : Config El σ o order :=
  ⟨Executor.Server.loop o r w, [], fun _ => .unused, fun _ => .unused, []⟩

/-- A step of client `k` on its own. -/
def clientStep (s : Config El σ o order) (k : Nat) (a : Client.Calls.Action) :
    Option (Config El σ o order) :=
  (s.clients[k]?).bind fun client => (Client.Calls.step order client a).map fun client' =>
    { s with clients := s.clients.set k client' }

/-- `Submit` of call `c`: the frame goes on the wire unless the socket is closed. -/
def submit (s : Config El σ o order) (k c : Nat) : Option (Config El σ o order) :=
  (s.clients[k]?).bind fun client => (client.calls[c]?).bind fun call =>
    (Client.Calls.step order client (.submit c)).map fun client' =>
      { s with
        clients := s.clients.set k client'
        up := if client.isOpen then
          Function.update s.up k ((s.up k).write (Client.Calls.message call)) else s.up
        history := s.history ++ [.invoke (k, c)] }

/-- One byte for the read loop of client `k`. -/
def clientReceive (s : Config El σ o order) (k : Nat) : Option (Config El σ o order) :=
  (s.clients[k]?).bind fun client => ((s.down k).receive).bind fun (b, link) =>
    if client.loop.stage = .stopped then none
    else (Client.Calls.step order client (.receive b)).map fun client' =>
      { s with
        clients := s.clients.set k client'
        down := Function.update s.down k link
        history := s.history ++ (delivered client.loop client'.loop).map fun m =>
          .respond (callOfMessage k m) }

/-- The read loop of connection `k` goes on. -/
def reading (s : Config El σ o order) (k : Nat) : Bool :=
  (s.server.acceptor.connections[k]?).any Executor.Accept.AsioStream.reading

/-- One byte for the read loop of connection `k`; a complete frame runs the callback. -/
def serverReceive (mp : Codec τ El) (s : Config El σ o order) (k : Nat) :
    Option (Config El σ o order) :=
  ((s.up k).receive).bind fun (_, link) =>
    match delivered (s.up k).loop link.loop with
    | [] => if reading s k then some { s with up := Function.update s.up k link } else none
    | m :: _ => (Executor.Server.step mp s.server (.arrive k m.objectId m.data)).map
        fun server => { s with server, up := Function.update s.up k link }

/-- The acceptor needs a client that has connected; frames come off the wire only. -/
def allowed (s : Config El σ o order) : Executor.Server.Action o → Bool
  | .accept .accept => s.server.acceptor.connections.length < s.clients.length
  | .arrive .. => false
  | _ => true

/-- The responses of new `Write` calls go on the wires of the open sockets. -/
def send (connections : List (Executor.Accept.AsioStream o.ioThreadNum))
    (down : Nat → Link order) (w : Executor.Server.Written) : Nat → Link order :=
  if (connections[w.stream]?).any Executor.Accept.AsioStream.isOpen then
    Function.update down w.stream
      ((down w.stream).write ⟨w.response.objectId, w.response.result⟩)
  else down

def serverStep (mp : Codec τ El) (s : Config El σ o order) (a : Executor.Server.Action o) :
    Option (Config El σ o order) :=
  if allowed s a then
    (Executor.Server.step mp s.server a).map fun server =>
      { s with
        server
        down := (server.written.drop s.server.written.length).foldl
          (send s.server.acceptor.connections) s.down
        history := s.history ++ (server.ran.drop s.server.ran.length).filterMap fun run =>
          (callOfRun server.arrived run).map .commit }
  else none

def step (mp : Codec τ El) (s : Config El σ o order) : Action o → Option (Config El σ o order)
  | .connect language => some { s with clients := s.clients ++ [Client.Calls.init language] }
  | .requestObjectID k buffer decodes => clientStep s k (.requestObjectID buffer decodes)
  | .submit k c => submit s k c
  | .get k c => clientStep s k (.get c)
  | .clientReceive k => clientReceive s k
  | .clientReadError k => clientStep s k .readError
  | .clientWriteError k => clientStep s k .writeError
  | .serverReceive k => serverReceive mp s k
  | .server action => serverStep mp s action

/-! What each step can do. -/

theorem clientStep_cases {s t : Config El σ o order} {k : Nat} {a : Client.Calls.Action}
    (h : clientStep s k a = some t) :
    ∃ client client', s.clients[k]? = some client ∧
      Client.Calls.step order client a = some client' ∧
      t = { s with clients := s.clients.set k client' } := by
  obtain ⟨client, hk, h⟩ := Option.bind_eq_some_iff.mp h
  obtain ⟨client', hc, rfl⟩ := Option.map_eq_some_iff.mp h
  exact ⟨client, client', hk, hc, rfl⟩

theorem submit_cases {s t : Config El σ o order} {k c : Nat} (h : submit s k c = some t) :
    ∃ client client' call, s.clients[k]? = some client ∧ client.calls[c]? = some call ∧
      Client.Calls.step order client (.submit c) = some client' ∧
      t = { s with
            clients := s.clients.set k client'
            up := if client.isOpen then
              Function.update s.up k ((s.up k).write (Client.Calls.message call)) else s.up
            history := s.history ++ [.invoke (k, c)] } := by
  obtain ⟨client, hk, h⟩ := Option.bind_eq_some_iff.mp h
  obtain ⟨call, hc, h⟩ := Option.bind_eq_some_iff.mp h
  obtain ⟨client', hs, rfl⟩ := Option.map_eq_some_iff.mp h
  exact ⟨client, client', call, hk, hc, hs, rfl⟩

theorem clientReceive_cases {s t : Config El σ o order} {k : Nat}
    (h : clientReceive s k = some t) :
    ∃ client client' b link, s.clients[k]? = some client ∧
      (s.down k).receive = some (b, link) ∧ client.loop.stage ≠ .stopped ∧
      Client.Calls.step order client (.receive b) = some client' ∧
      t = { s with
            clients := s.clients.set k client'
            down := Function.update s.down k link
            history := s.history ++ (delivered client.loop client'.loop).map fun m =>
              .respond (callOfMessage k m) } := by
  obtain ⟨client, hk, h⟩ := Option.bind_eq_some_iff.mp h
  obtain ⟨⟨b, link⟩, hl, h⟩ := Option.bind_eq_some_iff.mp h
  dsimp only at h
  split at h
  · cases h
  · rename_i hstage
    obtain ⟨client', hs, rfl⟩ := Option.map_eq_some_iff.mp h
    exact ⟨client, client', b, link, hk, hl, hstage, hs, rfl⟩

/-- A byte from the wire either goes to the buffer only or completes one message. -/
theorem serverReceive_cases {mp : Codec τ El} {s t : Config El σ o order} {k : Nat}
    (h : serverReceive mp s k = some t) :
    ∃ b link, (s.up k).receive = some (b, link) ∧
      ((link.loop.delivered = (s.up k).loop.delivered ∧
          t = { s with up := Function.update s.up k link }) ∨
        ∃ m server, link.loop.delivered = (s.up k).loop.delivered ++ [m] ∧
          Executor.Server.step mp s.server (.arrive k m.objectId m.data) = some server ∧
          t = { s with server, up := Function.update s.up k link }) := by
  obtain ⟨⟨b, link⟩, hl, h⟩ := Option.bind_eq_some_iff.mp h
  have hloop := (Link.receive_cases hl).2
  refine ⟨b, link, hl, ?_⟩
  dsimp only at h
  rw [hloop] at h ⊢
  rcases ReadLoop.receive_delivered order (s.up k).loop b with hsame | ⟨m, hm⟩
  · simp only [delivered, hsame, List.drop_length] at h
    split at h
    · exact .inl ⟨hsame, (Option.some.inj h).symm⟩
    · cases h
  · simp only [delivered, hm, List.drop_left] at h
    obtain ⟨server, hs, rfl⟩ := Option.map_eq_some_iff.mp h
    exact .inr ⟨m, server, hm, hs, rfl⟩

theorem serverStep_cases {mp : Codec τ El} {s t : Config El σ o order}
    {a : Executor.Server.Action o} (h : serverStep mp s a = some t) :
    allowed s a = true ∧ ∃ server, Executor.Server.step mp s.server a = some server ∧
      t = { s with
            server
            down := (server.written.drop s.server.written.length).foldl
              (send s.server.acceptor.connections) s.down
            history := s.history ++ (server.ran.drop s.server.ran.length).filterMap fun run =>
              (callOfRun server.arrived run).map .commit } := by
  unfold serverStep at h
  split at h
  · rename_i ha
    obtain ⟨server, hs, rfl⟩ := Option.map_eq_some_iff.mp h
    exact ⟨ha, server, hs, rfl⟩
  · cases h

/-- The server changes by steps of its own only, and frames come off the wire. -/
theorem server_step {mp : Codec τ El} {s t : Config El σ o order} {a : Action o}
    (h : step mp s a = some t) :
    t.server = s.server ∨ ∃ act, Executor.Server.step mp s.server act = some t.server ∧
      (a = .server act ∨ ∃ k objectId body, act = .arrive k objectId body) := by
  cases a with
  | connect language => obtain rfl := Option.some.inj h; exact .inl rfl
  | submit k c =>
    obtain ⟨client, client', call, _, _, _, rfl⟩ := submit_cases h
    exact .inl rfl
  | clientReceive k =>
    obtain ⟨client, client', b, link, _, _, _, _, rfl⟩ := clientReceive_cases h
    exact .inl rfl
  | serverReceive k =>
    obtain ⟨b, link, _, ⟨_, rfl⟩ | ⟨m, server, _, hs, rfl⟩⟩ := serverReceive_cases h
    · exact .inl rfl
    · exact .inr ⟨_, hs, .inr ⟨_, _, _, rfl⟩⟩
  | server action =>
    obtain ⟨_, server, hs, rfl⟩ := serverStep_cases h
    exact .inr ⟨action, hs, .inl rfl⟩
  | _ =>
    obtain ⟨client, client', _, _, rfl⟩ := clientStep_cases h
    exact .inl rfl

/-- What the server's own steps keep. -/
theorem server_invariant {mp : Codec τ El} {s t : Config El σ o order} {a : Action o}
    {I : Executor.Server.State El σ o → Prop} (h : I s.server)
    (hstep : ∀ act u, (a = .server act ∨ ∃ k objectId body, act = .arrive k objectId body) →
      Executor.Server.step mp s.server act = some u → I u)
    (hs : step mp s a = some t) : I t.server := by
  rcases server_step hs with hsame | ⟨act, hact, hkind⟩
  · rw [hsame]
    exact h
  · exact hstep act _ hkind hact

/-- Clients change by steps of their own only. -/
theorem clients_step {mp : Codec τ El} {s t : Config El σ o order} {a : Action o}
    (h : step mp s a = some t) :
    (∃ language, t.clients = s.clients ++ [Client.Calls.init language]) ∨
      t.clients = s.clients ∨
      ∃ k client client' act, s.clients[k]? = some client ∧
        Client.Calls.step order client act = some client' ∧
        t.clients = s.clients.set k client' ∧
        ∀ buffer decodes, act = .requestObjectID buffer decodes →
          a = .requestObjectID k buffer decodes := by
  cases a with
  | connect language => obtain rfl := Option.some.inj h; exact .inl ⟨language, rfl⟩
  | requestObjectID k buffer decodes =>
    obtain ⟨client, client', hk, hc, rfl⟩ := clientStep_cases h
    exact .inr (.inr ⟨k, client, client', _, hk, hc, rfl, by rintro _ _ ⟨⟩; rfl⟩)
  | submit k c =>
    obtain ⟨client, client', call, hk, _, hc, rfl⟩ := submit_cases h
    exact .inr (.inr ⟨k, client, client', _, hk, hc, rfl, nofun⟩)
  | get k c =>
    obtain ⟨client, client', hk, hc, rfl⟩ := clientStep_cases h
    exact .inr (.inr ⟨k, client, client', _, hk, hc, rfl, nofun⟩)
  | clientReceive k =>
    obtain ⟨client, client', b, link, hk, _, _, hc, rfl⟩ := clientReceive_cases h
    exact .inr (.inr ⟨k, client, client', _, hk, hc, rfl, nofun⟩)
  | clientReadError k =>
    obtain ⟨client, client', hk, hc, rfl⟩ := clientStep_cases h
    exact .inr (.inr ⟨k, client, client', _, hk, hc, rfl, nofun⟩)
  | clientWriteError k =>
    obtain ⟨client, client', hk, hc, rfl⟩ := clientStep_cases h
    exact .inr (.inr ⟨k, client, client', _, hk, hc, rfl, nofun⟩)
  | serverReceive k =>
    obtain ⟨b, link, _, ⟨_, rfl⟩ | ⟨m, server, _, _, rfl⟩⟩ := serverReceive_cases h
    all_goals exact .inr (.inl rfl)
  | server action =>
    obtain ⟨_, server, _, rfl⟩ := serverStep_cases h
    exact .inr (.inl rfl)

/-- What holds of a new client and is kept by its own steps holds of every client. -/
theorem clients_invariant {mp : Codec τ El} {s t : Config El σ o order} {a : Action o}
    {I : Submitter → Prop} (h : ∀ client ∈ s.clients, I client)
    (hinit : ∀ language, I (Client.Calls.init language))
    (hstep : ∀ k client client' act, s.clients[k]? = some client → I client →
      (∀ buffer decodes, act = .requestObjectID buffer decodes →
          a = .requestObjectID k buffer decodes) →
      Client.Calls.step order client act = some client' → I client')
    (hs : step mp s a = some t) : ∀ client ∈ t.clients, I client := by
  intro client hmem
  rcases clients_step hs with ⟨language, hnew⟩ | hsame | ⟨k, old, new, act, hk, hc, hset, hact⟩
  · rw [hnew] at hmem
    rcases List.mem_append.mp hmem with hold | hlast
    · exact h client hold
    · rw [List.mem_singleton.mp hlast]
      exact hinit language
  · exact h client (hsame ▸ hmem)
  · rw [hset] at hmem
    rcases List.mem_or_eq_of_mem_set hmem with hold | rfl
    · exact h client hold
    · exact hstep k old client act hk (h old (List.mem_of_getElem? hk)) hact hc

/-- Reading a response leaves the languages of the clients. -/
theorem languages_clientReceive {mp : Codec τ El} {s t : Config El σ o order} {k : Nat}
    (hs : step mp s (.clientReceive k) = some t) :
    t.clients.map Submitter.clientLanguage = s.clients.map Submitter.clientLanguage := by
  obtain ⟨client, client', b, link, hk, _, _, hc, rfl⟩ := clientReceive_cases hs
  obtain rfl := Option.some.inj hc
  dsimp only
  rw [List.map_set, Client.Calls.foldl_onResponse_language]
  refine List.ext_getElem? fun j => ?_
  rw [List.getElem?_set]
  split
  · next hj =>
    subst hj
    obtain ⟨hlt, rfl⟩ := List.getElem?_eq_some_iff.mp hk
    rw [if_pos (by rwa [List.length_map]), List.getElem?_map, hk, Option.map_some]
  · rfl

end Dousi.System.Network
