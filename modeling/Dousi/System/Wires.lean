import Dousi.Executor.Pipeline
import Dousi.System.Network

/-!
# What is on the wires

The calls submitted by a client, the frames on its way up, the callbacks of the
server's read loop, and back. Whatever the steps taken, a server's frames are the first
of the messages its client has sent, and a client's responses are the first of those
written on its stream.
-/
namespace Dousi.System.Wires

open Dousi.Lib.Word
open Dousi.Lib.Log
open Dousi.Lib.Transition
open Dousi.Lib.Pool (update_keep)
open Dousi.Core.Msgpack
open Dousi.Stream.AsioStream
open Dousi.Stream.Connection
open Dousi.Executor.Services (Registry)
open Dousi.Executor.InvokeHelper (MethodType Objects)
open Dousi.Executor.Server (ExecutorOptions Frame Written added_step arrived_step prefix_step)
open Dousi.Executor.Pipeline (arrivedOn)
open Dousi.Executor.Routing (Replayed replayed_step)
open Dousi.Executor.BadRequests (Always always_loop always_step)
open Dousi.Client.Calls (Submitter submittedMessage Counted counted_init counted_step
  Stored stored_init stored_step Kept kept_init kept_step)
open Network

variable {τ : Type} {El : τ → Type} {σ : Type} {o : ExecutorOptions} {order : ByteOrder}

/-- The message of a call that was submitted. -/
def submitted (clients : List Submitter) (x : CallId) : Option Message :=
  (clients[x.1]?).bind fun client => submittedMessage client x.2

def messageOfFrame (f : Frame) : Message := ⟨f.objectId, f.body⟩

def messageOfWritten (w : Written) : Message := ⟨w.response.objectId, w.response.result⟩

/-- The read loop of a client has read what its link says, unless it was stopped. -/
def Reads (link : Link order) (client : Submitter) : Prop :=
  client.loop = link.loop ∨
    (client.loop.stage = .stopped ∧ client.loop.delivered = link.loop.delivered)

/-- What was received is the first of what was sent, on every wire and in both directions. -/
structure Wired (s : Config El σ o order) : Prop where
  sent : ∀ k, ∀ m ∈ (s.up k).sent, ∃ c, submitted s.clients (k, c) = some m
  arrived : ∀ k, (arrivedOn s.server.arrived k).map messageOfFrame = (s.up k).loop.delivered
  returned : ∀ k, ∀ m ∈ (s.down k).sent,
    ∃ w ∈ s.server.written, w.stream = k ∧ messageOfWritten w = m
  reads : ∀ k client, s.clients[k]? = some client → Reads (s.down k) client
  unread : ∀ k, s.clients.length ≤ k → (s.down k).loop = .start

theorem submitted_connect (clients : List Submitter) (language : Client.Calls.ClientLanguage) :
    submitted (clients ++ [Client.Calls.init language]) = submitted clients := by
  funext ⟨k, c⟩
  rw [submitted, submitted, List.getElem?_append]
  split
  · rfl
  · rename_i hlt
    rw [List.getElem?_eq_none (Nat.le_of_not_lt hlt)]
    cases k - clients.length <;> rfl

theorem submitted_set {clients : List Submitter} {k : Nat} {client client' : Submitter}
    (hk : clients[k]? = some client) (h : submittedMessage client' = submittedMessage client) :
    submitted (clients.set k client') = submitted clients := by
  funext ⟨j, c⟩
  rw [submitted, submitted, List.getElem?_set]
  split
  · rename_i hj
    subst hj
    have hlt := (List.getElem?_eq_some_iff.mp hk).1
    simp only [if_pos hlt, hk, Option.bind_some, h]
  · rfl

theorem submitted_update {clients : List Submitter} {k c : Nat} {client client' : Submitter}
    {m : Message} (hk : clients[k]? = some client)
    (h : submittedMessage client' = Function.update (submittedMessage client) c (some m)) :
    submitted (clients.set k client') = Function.update (submitted clients) (k, c) (some m) := by
  funext ⟨j, d⟩
  have hlt := (List.getElem?_eq_some_iff.mp hk).1
  rw [submitted, List.getElem?_set]
  by_cases hj : k = j
  · subst hj
    simp only [if_pos hlt, if_true, Option.bind_some, h]
    by_cases hd : d = c
    · subst hd
      rw [Function.update_self, Function.update_self]
    · rw [Function.update_of_ne hd, Function.update_of_ne (by simp [hd]), submitted, hk]
      rfl
  · rw [if_neg hj, Function.update_of_ne (by simp [Ne.symm hj]), submitted]

theorem submitted_cases {clients : List Submitter} {x : CallId} {m : Message}
    (hm : submitted clients x = some m) :
    ∃ client call, clients[x.1]? = some client ∧ client.calls[x.2]? = some call ∧
      Client.Calls.message call = m := by
  obtain ⟨client, hk, hm⟩ := Option.bind_eq_some_iff.mp hm
  obtain ⟨call, hc, hm⟩ := Option.bind_eq_some_iff.mp hm
  split at hm
  · exact ⟨client, call, hk, hc, Option.some.inj hm⟩
  · cases hm

/-- The message of a submitted call has one of the client's buffers. -/
theorem submitted_buffer {P : Bytes → Prop} {clients : List Submitter}
    (h : ∀ client ∈ clients, Client.Calls.Buffers P client) {x : CallId} {m : Message}
    (hm : submitted clients x = some m) : P m.data := by
  obtain ⟨client, call, hk, hc, rfl⟩ := submitted_cases hm
  exact h client (List.mem_of_getElem? hk) call (List.mem_of_getElem? hc)

/-- What holds of every new buffer holds of all buffers. -/
theorem buffers_step {mp : Codec τ El} {P : Bytes → Prop} {s t : Config El σ o order}
    {a : Action o} (h : ∀ client ∈ s.clients, Client.Calls.Buffers P client)
    (hc : ∀ k buffer decodes, a = .requestObjectID k buffer decodes → P buffer)
    (hs : step mp s a = some t) :
    ∀ client ∈ t.clients, Client.Calls.Buffers P client := by
  refine clients_invariant h (fun _ call hcall => by cases hcall) ?_ hs
  intro k client client' act _ hclient hact hstep
  exact Client.Calls.buffers_step hclient
    (fun buffer decodes hb => hc k buffer decodes (hact buffer decodes hb)) hstep

/-- A client's own step other than `Submit` leaves what was submitted and sent. -/
theorem submitted_clientStep {s t : Config El σ o order} {k : Nat} {a : Client.Calls.Action}
    (ha : ∀ c, a ≠ .submit c) (h : clientStep s k a = some t) :
    submitted t.clients = submitted s.clients ∧ ∀ j, (t.up j).sent = (s.up j).sent := by
  obtain ⟨client, client', hk, hc, rfl⟩ := clientStep_cases h
  have hsub := Client.Calls.submitted_step hc
  refine ⟨?_, fun _ => rfl⟩
  cases a with
  | submit c => exact absurd rfl (ha c)
  | _ => exact submitted_set hk hsub

/-- A call is submitted once, and goes on the wire at that time or never. -/
theorem submitted_step {mp : Codec τ El} {s t : Config El σ o order} {a : Action o}
    (h : step mp s a = some t) :
    match a with
    | .submit k c => ∃ m, submitted s.clients (k, c) = none ∧
        submitted t.clients = Function.update (submitted s.clients) (k, c) (some m) ∧
        (t.up = s.up ∨ t.up = Function.update s.up k ((s.up k).write m))
    | _ => submitted t.clients = submitted s.clients ∧ ∀ j, (t.up j).sent = (s.up j).sent := by
  cases a with
  | connect language =>
    obtain rfl := Option.some.inj h
    exact ⟨submitted_connect _ _, fun _ => rfl⟩
  | requestObjectID k buffer decodes => exact submitted_clientStep (by simp) h
  | submit k c =>
    obtain ⟨client, client', call, hk, hcall, hc, rfl⟩ := submit_cases h
    obtain ⟨call', hcall', hnone, hsub⟩ := Client.Calls.submitted_step hc
    obtain rfl := Option.some.inj (hcall.symm.trans hcall')
    refine ⟨Client.Calls.message call, ?_, submitted_update hk hsub, ?_⟩
    · rw [submitted, hk]
      exact hnone
    · dsimp only
      split
      · exact .inr rfl
      · exact .inl rfl
  | get k c => exact submitted_clientStep (by simp) h
  | clientReceive k =>
    obtain ⟨client, client', b, link, hk, _, _, hc, rfl⟩ := clientReceive_cases h
    exact ⟨submitted_set hk (Client.Calls.submitted_step hc), fun _ => rfl⟩
  | clientReadError k => exact submitted_clientStep (by simp) h
  | clientWriteError k => exact submitted_clientStep (by simp) h
  | serverReceive k =>
    obtain ⟨b, link, hl, hcase⟩ := serverReceive_cases h
    have hsent : ∀ j, (Function.update s.up k link j).sent = (s.up j).sent :=
      update_keep Link.sent (Link.receive_cases hl).1
    obtain ⟨_, rfl⟩ | ⟨m, server, _, _, rfl⟩ := hcase
    all_goals exact ⟨rfl, hsent⟩
  | server action =>
    obtain ⟨_, server, _, rfl⟩ := serverStep_cases h
    exact ⟨rfl, fun _ => rfl⟩

theorem sent_step {mp : Codec τ El} {s t : Config El σ o order} {a : Action o} (h : Wired s)
    (hs : step mp s a = some t) :
    ∀ k, ∀ m ∈ (t.up k).sent, ∃ c, submitted t.clients (k, c) = some m := by
  intro k m hmem
  have hsub := submitted_step hs
  cases a with
  | submit j c =>
    obtain ⟨m', hnone, hsub, hup⟩ := hsub
    have hold : m ∈ (s.up k).sent → ∃ c, submitted t.clients (k, c) = some m := by
      intro hm
      obtain ⟨d, hd⟩ := h.sent k m hm
      refine ⟨d, ?_⟩
      have hne : (k, d) ≠ (j, c) := fun he => by rw [he, hnone] at hd; cases hd
      rw [hsub, Function.update_of_ne hne, hd]
    rcases hup with hup | hup
    · rw [hup] at hmem
      exact hold hmem
    · rw [hup] at hmem
      by_cases hj : k = j
      · subst hj
        rw [Function.update_self] at hmem
        rcases List.mem_append.mp hmem with hm | hm
        · exact hold hm
        · exact ⟨c, by rw [hsub, Function.update_self, List.mem_singleton.mp hm]⟩
      · rw [Function.update_of_ne hj] at hmem
        exact hold hmem
  | _ =>
    rw [hsub.2 k] at hmem
    obtain ⟨c, hc⟩ := h.sent k m hmem
    exact ⟨c, by rw [hsub.1]; exact hc⟩

/-- The server's frames are the callbacks made by its read loops. -/
theorem arrived_wires_step {mp : Codec τ El} {s t : Config El σ o order} {a : Action o}
    (h : Wired s) (hs : step mp s a = some t) :
    ∀ k, (arrivedOn t.server.arrived k).map messageOfFrame = (t.up k).loop.delivered := by
  intro k
  cases a with
  | connect language => obtain rfl := Option.some.inj hs; exact h.arrived k
  | submit j c =>
    obtain ⟨client, client', call, _, _, _, rfl⟩ := submit_cases hs
    dsimp only
    split
    · rw [update_keep Link.loop (Link.write_loop ..)]
      exact h.arrived k
    · exact h.arrived k
  | clientReceive j =>
    obtain ⟨client, client', b, link, _, _, _, _, rfl⟩ := clientReceive_cases hs
    exact h.arrived k
  | serverReceive j =>
    obtain ⟨b, link, _, ⟨hsame, rfl⟩ | ⟨m, server, hm, hserver, rfl⟩⟩ := serverReceive_cases hs
    · dsimp only
      rw [update_keep (fun l : Link order => l.loop.delivered) hsame]
      exact h.arrived k
    · obtain ⟨stream, _, hadd⟩ := added_step hserver
      dsimp only
      rw [hadd.arrived, arrivedOn, List.filter_append, List.map_append]
      by_cases hj : k = j
      · subst hj
        rw [Function.update_self, hm, ← h.arrived k]
        simp [arrivedOn, messageOfFrame]
      · rw [Function.update_of_ne hj, ← h.arrived k]
        simp [arrivedOn, Ne.symm hj]
  | server action =>
    obtain ⟨hallowed, server, hserver, rfl⟩ := serverStep_cases hs
    have harrived : server.arrived = s.server.arrived := by
      refine arrived_step hserver ?_
      rintro j objectId body rfl
      cases hallowed
    dsimp only
    rw [harrived]
    exact h.arrived k
  | _ =>
    obtain ⟨client, client', _, _, rfl⟩ := clientStep_cases hs
    exact h.arrived k

/-- Responses only go on the wire of their stream. -/
theorem send_sent {connections : List (Executor.Accept.AsioStream o.ioThreadNum)}
    {down : Nat → Link order} {w : Written} {k : Nat} {m : Message}
    (hm : m ∈ (send connections down w k).sent) :
    m ∈ (down k).sent ∨ (w.stream = k ∧ messageOfWritten w = m) := by
  unfold send at hm
  split at hm
  · by_cases hk : k = w.stream
    · subst hk
      rw [Function.update_self] at hm
      rcases List.mem_append.mp hm with hold | hnew
      · exact .inl hold
      · exact .inr ⟨rfl, (List.mem_singleton.mp hnew).symm⟩
    · rw [Function.update_of_ne hk] at hm
      exact .inl hm
  · exact .inl hm

theorem foldl_send_sent {connections : List (Executor.Accept.AsioStream o.ioThreadNum)}
    {down : Nat → Link order} {ws : List Written} {k : Nat} {m : Message}
    (hm : m ∈ (ws.foldl (send connections) down k).sent) :
    m ∈ (down k).sent ∨ ∃ w ∈ ws, w.stream = k ∧ messageOfWritten w = m := by
  induction ws generalizing down with
  | nil => exact .inl hm
  | cons w rest ih =>
    rcases ih hm with hmem | ⟨w', hmem, hw'⟩
    · rcases send_sent hmem with hold | hw
      · exact .inl hold
      · exact .inr ⟨w, List.mem_cons_self, hw⟩
    · exact .inr ⟨w', List.mem_cons_of_mem _ hmem, hw'⟩

theorem send_loop (connections : List (Executor.Accept.AsioStream o.ioThreadNum))
    (down : Nat → Link order) (w : Written) (k : Nat) :
    (send connections down w k).loop = (down k).loop := by
  unfold send
  split
  · exact update_keep Link.loop (Link.write_loop ..) k
  · rfl

theorem foldl_send_loop (connections : List (Executor.Accept.AsioStream o.ioThreadNum))
    (down : Nat → Link order) (ws : List Written) (k : Nat) :
    (ws.foldl (send connections) down k).loop = (down k).loop := by
  induction ws generalizing down with
  | nil => rfl
  | cons w rest ih => rw [List.foldl_cons, ih, send_loop]

theorem returned_step {mp : Codec τ El} {s t : Config El σ o order} {a : Action o}
    (h : Wired s) (hs : step mp s a = some t) :
    ∀ k, ∀ m ∈ (t.down k).sent,
      ∃ w ∈ t.server.written, w.stream = k ∧ messageOfWritten w = m := by
  intro k m hm
  cases a with
  | connect language => obtain rfl := Option.some.inj hs; exact h.returned k m hm
  | submit j c =>
    obtain ⟨client, client', call, _, _, _, rfl⟩ := submit_cases hs
    exact h.returned k m hm
  | clientReceive j =>
    obtain ⟨client, client', b, link, _, hl, _, _, rfl⟩ := clientReceive_cases hs
    dsimp only at hm
    rw [update_keep Link.sent (Link.receive_cases hl).1] at hm
    exact h.returned k m hm
  | serverReceive j =>
    obtain ⟨b, link, _, ⟨_, rfl⟩ | ⟨m', server, _, hserver, rfl⟩⟩ := serverReceive_cases hs
    · exact h.returned k m hm
    · obtain ⟨w, hw, hk⟩ := h.returned k m hm
      exact ⟨w, (prefix_step hserver).2.2.subset hw, hk⟩
  | server action =>
    obtain ⟨_, server, hserver, rfl⟩ := serverStep_cases hs
    rcases foldl_send_sent hm with hold | ⟨w, hw, hk⟩
    · obtain ⟨w, hw, hk⟩ := h.returned k m hold
      exact ⟨w, (prefix_step hserver).2.2.subset hw, hk⟩
    · exact ⟨w, List.mem_of_mem_drop hw, hk⟩
  | _ =>
    obtain ⟨client, client', _, _, rfl⟩ := clientStep_cases hs
    exact h.returned k m hm

/-- What a client does other than reading a byte keeps what it has read. -/
theorem reads_clientStep {link : Link order} {client client' : Submitter}
    {a : Client.Calls.Action} (ha : ∀ b, a ≠ .receive b) (h : Reads link client)
    (hs : Client.Calls.step order client a = some client') : Reads link client' := by
  have hloop := Client.Calls.loop_step hs
  cases a with
  | receive b => exact absurd rfl (ha b)
  | readError =>
    refine .inr ⟨by rw [hloop]; rfl, ?_⟩
    rw [hloop]
    rcases h with h | ⟨_, h⟩
    · exact h ▸ rfl
    · exact h
  | _ => rw [Reads, hloop]; exact h

/-- The clients other than the one that steps keep what they have read. -/
theorem reads_set {down : Nat → Link order} {clients : List Submitter} {k : Nat}
    {client' : Submitter}
    (h : ∀ j client, j ≠ k → clients[j]? = some client → Reads (down j) client)
    (hk : Reads (down k) client') :
    ∀ j client, (clients.set k client')[j]? = some client → Reads (down j) client := by
  intro j client hj
  rw [List.getElem?_set] at hj
  split at hj
  · rename_i heq
    subst heq
    split at hj
    · exact Option.some.inj hj ▸ hk
    · cases hj
  · rename_i hne
    exact h j client (Ne.symm hne) hj

theorem reads_step {mp : Codec τ El} {s t : Config El σ o order} {a : Action o}
    (h : Wired s) (hs : step mp s a = some t) :
    ∀ k client, t.clients[k]? = some client → Reads (t.down k) client := by
  have hclient : ∀ {k act}, (∀ b, act ≠ .receive b) → clientStep s k act = some t →
      ∀ j client, t.clients[j]? = some client → Reads (t.down j) client := by
    intro k act hact hstep
    obtain ⟨client, client', hk, hc, rfl⟩ := clientStep_cases hstep
    exact reads_set (fun j other _ => h.reads j other)
      (reads_clientStep hact (h.reads k client hk) hc)
  cases a with
  | connect language =>
    obtain rfl := Option.some.inj hs
    intro k client hk
    rcases get_snoc hk with hold | ⟨rfl, rfl⟩
    · exact h.reads k client hold
    · exact .inl (h.unread _ (Nat.le_refl _)).symm
  | requestObjectID k buffer decodes => exact hclient (by simp) hs
  | submit k c =>
    obtain ⟨client, client', call, hk, _, hc, rfl⟩ := submit_cases hs
    exact reads_set (fun j other _ => h.reads j other)
      (reads_clientStep (by simp) (h.reads k client hk) hc)
  | get k c => exact hclient (by simp) hs
  | clientReceive k =>
    obtain ⟨client, client', b, link, hk, hl, hstage, hc, rfl⟩ := clientReceive_cases hs
    refine reads_set (fun j other hjk hj => ?_) ?_ <;> dsimp only
    · rw [Function.update_of_ne hjk]
      exact h.reads j other hj
    · rw [Function.update_self]
      rcases h.reads k client hk with hr | ⟨hr, _⟩
      · exact .inl (by rw [Client.Calls.loop_step hc, (Link.receive_cases hl).2, hr])
      · exact absurd hr hstage
  | clientReadError k => exact hclient (by simp) hs
  | clientWriteError k => exact hclient (by simp) hs
  | serverReceive k =>
    obtain ⟨b, link, _, ⟨_, rfl⟩ | ⟨m, server, _, _, rfl⟩⟩ := serverReceive_cases hs
    all_goals exact h.reads
  | server action =>
    obtain ⟨_, server, _, rfl⟩ := serverStep_cases hs
    intro k client hk
    rw [Reads, foldl_send_loop]
    exact h.reads k client hk

/-- Nobody reads from a connection that has no client. -/
theorem unread_step {mp : Codec τ El} {s t : Config El σ o order} {a : Action o}
    (h : Wired s) (hs : step mp s a = some t) :
    ∀ k, t.clients.length ≤ k → (t.down k).loop = .start := by
  intro k hlen
  cases a with
  | connect language =>
    obtain rfl := Option.some.inj hs
    rw [List.length_append] at hlen
    exact h.unread k (by omega)
  | submit j c =>
    obtain ⟨client, client', call, _, _, _, rfl⟩ := submit_cases hs
    exact h.unread k (by rwa [List.length_set] at hlen)
  | clientReceive j =>
    obtain ⟨client, client', b, link, hj, _, _, _, rfl⟩ := clientReceive_cases hs
    dsimp only at hlen ⊢
    rw [List.length_set] at hlen
    have hlt := (List.getElem?_eq_some_iff.mp hj).1
    rw [Function.update_of_ne (by omega)]
    exact h.unread k hlen
  | serverReceive j =>
    obtain ⟨b, link, _, ⟨_, rfl⟩ | ⟨m, server, _, _, rfl⟩⟩ := serverReceive_cases hs
    all_goals exact h.unread k hlen
  | server action =>
    obtain ⟨_, server, _, rfl⟩ := serverStep_cases hs
    exact (foldl_send_loop ..).trans (h.unread k hlen)
  | _ =>
    obtain ⟨client, client', _, _, rfl⟩ := clientStep_cases hs
    exact h.unread k (by rwa [List.length_set] at hlen)

theorem wires_start (r : Registry (MethodType El σ)) (w : Objects El σ) :
    Wired (start o order r w) := by
  refine ⟨fun k m hm => ?_, fun k => rfl, fun k m hm => ?_, fun k client hk => ?_, fun k _ => rfl⟩
  · cases hm
  · cases hm
  · cases hk

theorem wires_step {mp : Codec τ El} {s t : Config El σ o order} {a : Action o}
    (h : Wired s) (hs : step mp s a = some t) : Wired t :=
  ⟨sent_step h hs, arrived_wires_step h hs, returned_step h hs, reads_step h hs,
    unread_step h hs⟩

theorem reads_delivered {link : Link order} {client : Submitter} (h : Reads link client) :
    client.loop.delivered = link.loop.delivered := by
  rcases h with h | ⟨_, h⟩
  · rw [h]
  · exact h

/-- The frames of a connection are the first of the messages that its client has sent. -/
theorem arrived_prefix_sent {s : Config El σ o order} (h : Wired s) {k : Nat}
    (hshort : ∀ m ∈ (s.up k).sent, m.data.length < 2 ^ 32) :
    (arrivedOn s.server.arrived k).map messageOfFrame <+: (s.up k).sent := by
  rw [h.arrived k]
  exact (s.up k).delivered_prefix_sent hshort

/-- What holds in every state of every run. -/
structure Regular (mp : Codec τ El) (r : Registry (MethodType El σ)) (w : Objects El σ)
    (s : Config El σ o order) : Prop where
  wires : Wired s
  always : Always mp r s.server
  replayed : Replayed mp w s.server
  clients : ∀ client ∈ s.clients, Counted client ∧ Stored client ∧ Kept client

theorem regular_start (mp : Codec τ El) (r : Registry (MethodType El σ)) (w : Objects El σ) :
    Regular mp r w (start o order r w) :=
  ⟨wires_start r w, always_loop mp r w, ⟨w, rfl, fun _ => rfl⟩, by simp [start]⟩

theorem regular_step {mp : Codec τ El} {r : Registry (MethodType El σ)} {w : Objects El σ}
    {s t : Config El σ o order} {a : Action o} (h : Regular mp r w s)
    (hs : step mp s a = some t) : Regular mp r w t := by
  refine ⟨wires_step h.wires hs, server_invariant h.always (fun _ _ _ => always_step h.always) hs,
    server_invariant h.replayed (fun _ _ _ => replayed_step h.replayed) hs,
    clients_invariant h.clients (fun language => ⟨counted_init language, stored_init language,
      kept_init language⟩) ?_ hs⟩
  intro k client client' act _ ⟨hcounted, hstored, hkept⟩ _ hstep
  exact ⟨counted_step hcounted hstep, stored_step hstored hstep, kept_step hkept hstep⟩

theorem regular_of_reach {mp : Codec τ El} {r : Registry (MethodType El σ)} {w : Objects El σ}
    {s : Config El σ o order} (h : Reach (step mp) Any (start o order r w) s) :
    Regular mp r w s :=
  h.invariant (regular_start mp r w) fun _ _ _ hi _ hs => regular_step hi hs

end Dousi.System.Wires
