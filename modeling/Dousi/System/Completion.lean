import Dousi.System.Health
import Mathlib.Order.WellFounded

/-!
# Every call is answered

Clients make no more calls. Acceptor, threads, wires and read loops go on by themselves: a
connection waits to be taken in, a byte waits to be read, a request or a response waits for
its thread. Each of these steps brings the system closer to rest, because a step only makes
new work further down the line. At rest every wire is empty and every submitted call has
its result where its future looks for it.
-/
namespace Dousi.System.Completion

open Dousi.Lib.Word
open Dousi.Lib.Log (filter_key)
open Dousi.Lib.Transition
open Dousi.Lib.Progress
open Dousi.Lib.Pool (contents)
open Dousi.Core.Msgpack
open Dousi.Stream.AsioStream
open Dousi.Stream.Connection
open Dousi.Stream.RoundTrip (idle start_eq receiveAll_writeAll)
open Dousi.Executor.Services (Registry)
open Dousi.Executor.InvokeHelper (MethodType Objects)
open Dousi.Executor.Server (ExecutorOptions)
open Dousi.Executor.Drain (work work_step Drained drained_of_stuck unlocked_of_stuck
  contents_of_drained)
open Dousi.Executor.Pipeline (arrivedOn)
open Dousi.Client.Calls (Submitter nonempty)
open Network Wires CallIds Health

variable {τ : Type} {El : τ → Type} {σ : Type} {o : ExecutorOptions} {order : ByteOrder}

/-- The steps that the system takes by itself. What clients do, and errors, come from
outside. -/
def Internal : Action o → Prop
  | .clientReceive _ => True
  | .serverReceive _ => True
  | .server (.accept .accept) => True
  | .server action => Executor.Drain.Internal action
  | _ => False

/-- The bytes on the first `n` links that are not read yet. -/
def unread (links : Nat → Link order) (n : Nat) : Nat :=
  ∑ k ∈ Finset.range n, (links k).wire.length

theorem receive_wire {l l' : Link order} {b : UInt8} (h : l.receive = some (b, l')) :
    l.wire = b :: l'.wire := by
  unfold Link.receive at h
  split at h
  · cases h
  · next hw =>
    cases h
    exact hw

theorem receive_of_wire {l : Link order} (h : l.wire ≠ []) :
    ∃ b l', l.receive = some (b, l') := by
  unfold Link.receive
  split
  · next hw => exact absurd hw h
  · exact ⟨_, _, rfl⟩

theorem unread_receive {links : Nat → Link order} {k n : Nat} {b : UInt8} {link : Link order}
    (h : (links k).receive = some (b, link)) (hk : k < n) :
    unread (Function.update links k link) n < unread links n := by
  have hwire := receive_wire h
  refine Finset.sum_lt_sum (fun j _ => ?_) ⟨k, Finset.mem_range.mpr hk, ?_⟩
  · by_cases hj : j = k
    · subst hj
      rw [Function.update_self, hwire]
      exact Nat.le_succ _
    · rw [Function.update_of_ne hj]
  · rw [Function.update_self, hwire]
    exact Nat.lt_succ_self _

/-- Nothing is on a wire without a client. -/
structure Within (s : Config El σ o order) : Prop where
  connected : s.server.acceptor.connections.length ≤ s.clients.length
  up : ∀ k, s.clients.length ≤ k → (s.up k).wire = []
  down : ∀ k, s.clients.length ≤ k → (s.down k).wire = []

theorem lt_of_receive {n : Nat} {links : Nat → Link order}
    (h : ∀ k, n ≤ k → (links k).wire = []) {k : Nat} {b : UInt8} {link : Link order}
    (hl : (links k).receive = some (b, link)) : k < n := by
  by_contra hge
  have hwire := receive_wire hl
  rw [h k (Nat.le_of_not_lt hge)] at hwire
  cases hwire

theorem within_receive {n : Nat} {links : Nat → Link order}
    (h : ∀ k, n ≤ k → (links k).wire = []) {k : Nat} {b : UInt8} {link : Link order}
    (hl : (links k).receive = some (b, link)) :
    ∀ j, n ≤ j → (Function.update links k link j).wire = [] := by
  intro j hj
  have hlt := lt_of_receive h hl
  rw [Function.update_of_ne (by omega)]
  exact h j hj

theorem foldl_send_within {connections : List (Executor.Accept.AsioStream o.ioThreadNum)}
    {down : Nat → Link order} {n : Nat} (hlen : connections.length ≤ n)
    (h : ∀ k, n ≤ k → (down k).wire = []) (ws : List Executor.Server.Written) :
    ∀ k, n ≤ k → (ws.foldl (send connections) down k).wire = [] := by
  induction ws generalizing down with
  | nil => exact h
  | cons e rest ih =>
    refine ih fun k hk => ?_
    unfold send
    split
    · next hopen =>
      have hlt : e.stream < connections.length := by
        by_contra hge
        rw [List.getElem?_eq_none (Nat.le_of_not_lt hge)] at hopen
        cases hopen
      rw [Function.update_of_ne (by omega)]
      exact h k hk
    · exact h k hk

theorem within_step {mp : Codec τ El} {s t : Config El σ o order} {a : Action o}
    (h : Within s) (hs : step mp s a = some t) : Within t := by
  refine ⟨connected_step h.connected hs, ?_, ?_⟩
  all_goals cases a with
  | connect language =>
    obtain rfl := Option.some.inj hs
    intro k hk
    dsimp only at hk
    rw [List.length_append] at hk
    first
      | exact h.up k (by omega)
      | exact h.down k (by omega)
  | submit j c =>
    obtain ⟨client, client', call, hj, _, _, rfl⟩ := submit_cases hs
    have hlt := (List.getElem?_eq_some_iff.mp hj).1
    intro k hk
    dsimp only at hk ⊢
    rw [List.length_set] at hk
    first
      | exact h.down k hk
      | split
        · rw [Function.update_of_ne (by omega)]
          exact h.up k hk
        · exact h.up k hk
  | clientReceive j =>
    obtain ⟨client, client', b, link, _, hl, _, _, rfl⟩ := clientReceive_cases hs
    intro k hk
    dsimp only at hk
    rw [List.length_set] at hk
    first
      | exact h.up k hk
      | exact within_receive h.down hl k hk
  | serverReceive j =>
    obtain ⟨b, link, hl, ⟨_, rfl⟩ | ⟨m, server, _, _, rfl⟩⟩ := serverReceive_cases hs
    all_goals first
      | exact within_receive h.up hl
      | exact h.down
  | server action =>
    obtain ⟨_, server, _, rfl⟩ := serverStep_cases hs
    first
      | exact h.up
      | exact foldl_send_within h.connected h.down _
  | _ =>
    obtain ⟨client, client', _, _, rfl⟩ := clientStep_cases hs
    intro k hk
    dsimp only at hk
    rw [List.length_set] at hk
    first
      | exact h.up k hk
      | exact h.down k hk

/-! Less and less is left to do. -/

/-- Connections to take in, bytes for the server, work of its threads, bytes for the
clients: a step at one place makes work only at the places after it. -/
def left (s : Config El σ o order) : Nat × Nat × Nat × Nat :=
  (s.clients.length - s.server.acceptor.connections.length, unread s.up s.clients.length,
    work s.server, unread s.down s.clients.length)

def Less : Nat × Nat × Nat × Nat → Nat × Nat × Nat × Nat → Prop :=
  Prod.Lex (· < ·) (Prod.Lex (· < ·) (Prod.Lex (· < ·) (· < ·)))

theorem less_wf : WellFounded Less :=
  WellFounded.prod_lex Nat.lt_wfRel.wf
    (WellFounded.prod_lex Nat.lt_wfRel.wf (WellFounded.prod_lex Nat.lt_wfRel.wf Nat.lt_wfRel.wf))

theorem less_serverReceive {mp : Codec τ El} {s t : Config El σ o order} {k : Nat}
    (h : Within s) (hs : step mp s (.serverReceive k) = some t) : Less (left t) (left s) := by
  obtain ⟨b, link, hl, ⟨_, rfl⟩ | ⟨m, server, _, hserver, rfl⟩⟩ := serverReceive_cases hs
  all_goals have hlt := unread_receive hl (lt_of_receive h.up hl)
  · exact Prod.Lex.right _ (Prod.Lex.left _ _ hlt)
  · obtain ⟨stream, _, _, _, rfl⟩ :=
      Executor.Server.arrive_cases (Executor.Server.step_cases hserver).2
    exact Prod.Lex.right _ (Prod.Lex.left _ _ hlt)

theorem less_clientReceive {mp : Codec τ El} {s t : Config El σ o order} {k : Nat}
    (h : Within s) (hs : step mp s (.clientReceive k) = some t) : Less (left t) (left s) := by
  obtain ⟨client, client', b, link, _, hl, _, _, rfl⟩ := clientReceive_cases hs
  have hlt := unread_receive hl (lt_of_receive h.down hl)
  simp only [left, List.length_set]
  exact Prod.Lex.right _ (Prod.Lex.right _ (Prod.Lex.right _ hlt))

theorem less_server {mp : Codec τ El} {s t : Config El σ o order}
    {a : Executor.Server.Action o} (hi : Internal (.server a))
    (hs : step mp s (.server a) = some t) : Less (left t) (left s) := by
  obtain ⟨hallowed, server, hserver, rfl⟩ := serverStep_cases hs
  by_cases ha : a = .accept .accept
  · subst ha
    obtain ⟨acceptor, hact, rfl⟩ :=
      Option.map_eq_some_iff.mp (Executor.Server.step_cases hserver).2
    have hlt : s.server.acceptor.connections.length < s.clients.length := of_decide_eq_true hallowed
    refine Prod.Lex.left _ _ ?_
    rcases connections_length_step hact with hlen | ⟨_, hlen⟩
    · cases Executor.Accept.step_moves hact
      simp at hlen
    · dsimp only
      omega
  · have hown : Executor.Drain.Internal a := by
      cases a with
      | accept action =>
        cases action with
        | accept => exact absurd rfl ha
        | _ => exact hi
      | _ => exact hi
    have hlen : server.acceptor.connections.length = s.server.acceptor.connections.length := by
      rcases Executor.Server.acceptor_step hserver with hsame | ⟨act, rfl, hact⟩
      · rw [hsame]
      · rcases connections_length_step hact with hlen | ⟨rfl, _⟩
        · exact hlen
        · exact absurd rfl ha
    simp only [left, hlen]
    exact Prod.Lex.right _ (Prod.Lex.right _ (Prod.Lex.left _ _ (work_step hown hserver)))

theorem less_step {mp : Codec τ El} {s t : Config El σ o order} {a : Action o}
    (h : Within s) (hi : Internal a) (hs : step mp s a = some t) : Less (left t) (left s) := by
  cases a with
  | clientReceive k => exact less_clientReceive h hs
  | serverReceive k => exact less_serverReceive h hs
  | server action => exact less_server hi hs
  | _ => exact hi.elim

/-- However the steps are ordered, a system left to itself comes to rest. -/
theorem terminates {mp : Codec τ El} {s : Config El σ o order} (h : Within s) :
    Terminates (step mp) Internal s := by
  have hdec : ∀ (u : Config El σ o order) a v, Within u → Internal a → step mp u a = some v →
      Within v ∧ Less (left v) (left u) :=
    fun _ _ _ hw hi hs => ⟨within_step hw hs, less_step hw hi hs⟩
  exact terminates_of_measure less_wf left hdec h

/-! What a healthy system looks like at rest -/

section
variable {mp : Codec τ El} {r : Registry (MethodType El σ)} {w : Objects El σ}
variable {s : Config El σ o order}

theorem server_stuck (hstuck : Stuck (step mp) Internal s) :
    Stuck (Executor.Server.step mp) Executor.Drain.Internal s.server := by
  intro a ha
  have hi : Internal (.server a) := by
    match a, ha with
    | .accept .insert, _ | .accept .start, _ | .invoke _, _ | .pop _, _ | .lookup _, _
    | .call _, _ | .respond _, _ | .take _, _ | .find _, _ | .write _, _ => trivial
  have hallowed : allowed s a = true := by
    match a, ha with
    | .accept .insert, _ | .accept .start, _ | .invoke _, _ | .pop _, _ | .lookup _, _
    | .call _, _ | .respond _, _ | .take _, _ | .find _, _ | .write _, _ => rfl
  have hnone := hstuck (.server a) hi
  simpa only [step, serverStep, hallowed, if_true, Option.map_eq_none_iff] using hnone

theorem server_drained (hw : 0 < o.writeThreadNum) (h : Healthy mp r w s)
    (hstuck : Stuck (step mp) Internal s) : Drained s.server :=
  drained_of_stuck h.server.sound.alive h.server.conserved h.placed (server_stuck hstuck) hw

theorem accept_enabled {act : Executor.Accept.Action}
    (ha : allowed s (.accept act) = true) (halive : s.server.terminated = none)
    (hs : Executor.Accept.step s.server.acceptor act ≠ none) :
    step mp s (.server (.accept act)) ≠ none := by
  simpa [step, serverStep, ha, Executor.Server.step, halive, Executor.Server.act] using hs

/-- The acceptor waits for a connection, and there is none to wait for. -/
theorem listening_of_stuck (h : Healthy mp r w s) (hstuck : Stuck (step mp) Internal s) :
    (∃ i, s.server.acceptor.phase = .listening i) ∧
      s.clients.length ≤ s.server.acceptor.connections.length := by
  have halive := h.server.sound.alive
  cases hp : s.server.acceptor.phase with
  | listening i =>
    refine ⟨⟨i, rfl⟩, ?_⟩
    by_contra hlt
    have hallowed : allowed s (.accept .accept) = true := decide_eq_true (by omega)
    exact accept_enabled hallowed halive (by simp [Executor.Accept.step, hp])
      (hstuck (.server (.accept .accept)) trivial)
  | made k =>
    have hlen := h.server.routed.routes.pending k (.inl hp)
    obtain ⟨stream, hget⟩ : ∃ stream, s.server.acceptor.connections[k]? = some stream :=
      ⟨_, List.getElem?_eq_getElem (by omega)⟩
    exact absurd (hstuck (.server (.accept .insert)) trivial)
      (accept_enabled rfl halive (by simp [Executor.Accept.step, hp, hget]))
  | inserted k =>
    exact absurd (hstuck (.server (.accept .start)) trivial)
      (accept_enabled rfl halive (by simp [Executor.Accept.step, hp]))

/-- Every connection is read, its thread has nothing else to do, and so nothing is left on
the wire. -/
theorem up_empty (hw : 0 < o.writeThreadNum) (h : Healthy mp r w s)
    (hstuck : Stuck (step mp) Internal s) {k : Nat} (hk : k < s.clients.length) :
    (s.up k).wire = [] := by
  obtain ⟨⟨i, hphase⟩, hlen⟩ := listening_of_stuck h hstuck
  have hlt : k < s.server.acceptor.connections.length := by omega
  obtain ⟨c, hc⟩ : ∃ c, s.server.acceptor.connections[k]? = some c :=
    ⟨_, List.getElem?_eq_getElem hlt⟩
  have hread : c.reading = true := by
    have hread := h.sockets.reading k c hc
    rw [hphase] at hread
    simpa using hread
  by_contra hwire
  obtain ⟨b, link, hl⟩ := receive_of_wire hwire
  have hnone := hstuck (.serverReceive k) trivial
  simp only [step, serverReceive, hl, Option.bind_some] at hnone
  split at hnone
  · rw [if_pos (by simp [reading, hc, hread])] at hnone
    cases hnone
  · have hidle := (server_drained hw h hstuck).jobs (.inl c.ioThread)
    simp [Executor.Server.step, h.server.sound.alive, Executor.Server.act, Executor.Server.arrive,
      hc, hread, hidle] at hnone

theorem down_empty (h : Healthy mp r w s) (hstuck : Stuck (step mp) Internal s) {k : Nat}
    {client : Submitter} (hk : s.clients[k]? = some client) : (s.down k).wire = [] := by
  by_contra hwire
  obtain ⟨b, link, hl⟩ := receive_of_wire hwire
  have hlive := (h.clients client (List.mem_of_getElem? hk)).reading
  have hnone := hstuck (.clientReceive k) trivial
  simp [step, clientReceive, hk, hl, hlive, Client.Calls.step] at hnone

/-- The peer of an empty wire has been delivered all that was sent. -/
theorem delivered_of_empty {link : Link order} (hwire : link.wire = [])
    (hshort : ∀ m ∈ link.sent, m.data.length < 2 ^ 32) : link.loop.delivered = link.sent := by
  have hread : link.read = writeAll order link.sent := by
    rw [← link.whole, hwire, List.append_nil]
  rw [Link.loop, hread, start_eq, receiveAll_writeAll order [] link.sent hshort]
  rfl

/-- Every submitted call has arrived as a frame. -/
theorem frame_of_stuck (hw : 0 < o.writeThreadNum) (h : Healthy mp r w s)
    (hstuck : Stuck (step mp) Internal s) {k c : Nat} {m : Message}
    (hm : submitted s.clients (k, c) = some m) :
    ∃ f ∈ s.server.arrived, f.connection = k ∧ messageOfFrame f = m := by
  obtain ⟨client, call, hk, _, _⟩ := submitted_cases hm
  have hlt := (List.getElem?_eq_some_iff.mp hk).1
  have hmem := h.sent (k, c) m hm
  rw [← delivered_of_empty (up_empty hw h hstuck hlt) (sent_short h.identified k),
    ← h.identified.regular.wires.arrived k] at hmem
  obtain ⟨f, hf, rfl⟩ := List.mem_map.mp hmem
  obtain ⟨hf, hconn⟩ := List.mem_filter.mp hf
  exact ⟨f, hf, of_decide_eq_true hconn, rfl⟩

/-- Every frame has been answered, and no frame twice. -/
theorem answered_of_stuck (hw : 0 < o.writeThreadNum) (h : Healthy mp r w s)
    (hstuck : Stuck (step mp) Internal s) :
    contents (fun e => (e.stream, e.response.objectId)) s.server.written =
      contents (fun f => (f.connection, f.objectId)) s.server.arrived :=
  contents_of_drained (server_drained hw h hstuck) (Executor.Delivery.delivered_of h.server)

/-- A client has been delivered what was written to its connection. -/
theorem delivered_written (h : Healthy mp r w s) (hstuck : Stuck (step mp) Internal s) {k : Nat}
    {client : Submitter} (hk : s.clients[k]? = some client) :
    client.loop.delivered = writtenOn s.server.written k := by
  have hshort : ∀ m ∈ (s.down k).sent, m.data.length < 2 ^ 32 := by
    intro m hm
    obtain ⟨e, he, _, rfl⟩ := h.identified.regular.wires.returned k m hm
    exact h.identified.results e he
  rw [reads_delivered (h.identified.regular.wires.reads k client hk),
    delivered_of_empty (down_empty h hstuck hk) hshort, h.returned k]

/-- The answer to a frame is delivered. -/
theorem response_of_frame (hw : 0 < o.writeThreadNum) (h : Healthy mp r w s)
    (hstuck : Stuck (step mp) Internal s) {f : Executor.Server.Frame}
    (hf : f ∈ s.server.arrived) {client : Submitter}
    (hk : s.clients[f.connection]? = some client) :
    ∃ m ∈ client.loop.delivered, m.objectId = f.objectId := by
  have hpair : (f.connection, f.objectId) ∈
      contents (fun f => (f.connection, f.objectId)) s.server.arrived :=
    Multiset.mem_coe.mpr (List.mem_map.mpr ⟨f, hf, rfl⟩)
  rw [← answered_of_stuck hw h hstuck] at hpair
  obtain ⟨e, he, heq⟩ := List.mem_map.mp (Multiset.mem_coe.mp hpair)
  obtain ⟨hstream, hid⟩ := Prod.mk.inj heq
  refine ⟨messageOfWritten e, ?_, hid⟩
  rw [delivered_written h hstuck hk]
  exact List.mem_map_of_mem (List.mem_filter.mpr ⟨he, decide_eq_true hstream⟩)

/-- No two responses delivered to a client have one id. -/
theorem delivered_distinct (hw : 0 < o.writeThreadNum) (h : Healthy mp r w s)
    (hstuck : Stuck (step mp) Internal s) {k : Nat} {client : Submitter}
    (hk : s.clients[k]? = some client) : (client.loop.delivered.map Message.objectId).Nodup := by
  have harrived : (s.server.arrived.map fun f => (f.connection, f.objectId)).Nodup := by
    refine List.Nodup.of_map (fun x : Nat × UInt32 => (x.1, x.2.toNat)) ?_
    rw [List.map_map]
    exact calls_pairwise h.identified
  have hwritten : (s.server.written.map fun e => (e.stream, e.response.objectId)).Nodup := by
    refine Multiset.coe_nodup.mp ?_
    have hcontents := answered_of_stuck hw h hstuck
    rw [contents, contents] at hcontents
    rw [hcontents]
    exact Multiset.coe_nodup.mpr harrived
  -- on one connection the ids alone tell the responses apart
  have hids : ((s.server.written.filter fun e => e.stream = k).map
      fun e => (e.stream, e.response.objectId)) =
      ((writtenOn s.server.written k).map Message.objectId).map (Prod.mk k) := by
    rw [writtenOn, List.map_map, List.map_map]
    refine List.map_congr_left fun e he => ?_
    rw [← of_decide_eq_true (List.mem_filter.mp he).2]
    rfl
  rw [delivered_written h hstuck hk]
  refine List.Nodup.of_map (Prod.mk k) ?_
  rw [← hids]
  exact hwritten.sublist (List.filter_sublist.map _)

end

/-- The handler has run for the call, and its result is where the client looks for it:
under the id of the future in C++, in the only callback with this id in Java. -/
def Settled (s : Config El σ o order) (k c : Nat) : Prop :=
  ∃ client call f, s.clients[k]? = some client ∧ client.calls[c]? = some call ∧
    ∃ run ∈ s.server.ran, s.server.arrived[run.ticket]? = some f ∧ callOfFrame f = (k, c) ∧
      match client.clientLanguage with
      | .cpp => client.cachedObjects call.objectId = some run.result
      | .java => client.callbacks.filter (fun e => e.1 = call.objectId.toUInt32) =
          [(call.objectId.toUInt32, run.result)]

theorem settled_of_stuck {mp : Codec τ El} {r : Registry (MethodType El σ)} {w : Objects El σ}
    {s : Config El σ o order} (hw : 0 < o.writeThreadNum) (h : Healthy mp r w s)
    (hstuck : Stuck (step mp) Internal s) {k c : Nat} {m : Message}
    (hm : submitted s.clients (k, c) = some m) : Settled s k c := by
  obtain ⟨client, call, hk, hcall, rfl⟩ := submitted_cases hm
  have hmem := List.mem_of_getElem? hk
  obtain ⟨f, hf, hconn, hmsg⟩ := frame_of_stuck hw h hstuck hm
  subst hconn
  obtain ⟨m, hdelivered, hid⟩ := response_of_frame hw h hstuck hf hk
  have hnum : m.objectId.toNat = c := by
    have hcallnum := submitted_id h.identified.regular h.identified.few hm
    rw [← hmsg] at hcallnum
    rw [hid]
    exact hcallnum
  have hcallid : call.objectId = m.objectId.toUInt64 := by
    rw [(h.identified.regular.clients client hmem).1.ids c call hcall]
    apply UInt64.toNat_inj.mp
    have hlt := m.objectId.toNat_lt
    simp only [UInt64.toNat_ofNat', UInt32.toNat_toUInt64]
    omega
  -- the run of a delivered response with this id
  have hrun : ∀ m' ∈ client.loop.delivered, m'.objectId = m.objectId →
      ∃ run ∈ s.server.ran, ∃ g, s.server.arrived[run.ticket]? = some g ∧
        callOfFrame g = (f.connection, c) ∧ run.result = m'.data := by
    intro m' hm' hsame
    obtain ⟨run, hrun, g, hg, hcallof, hresult⟩ := run_of_delivered h.identified hk hm'
    refine ⟨run, hrun, g, hg, ?_, hresult⟩
    rw [hcallof, callOfMessage, hsame, hnum]
  cases hlang : client.clientLanguage with
  | cpp =>
    have hkept := (h.identified.regular.clients client hmem).2.2 hlang m hdelivered
    obtain ⟨data, hdata⟩ := Option.isSome_iff_exists.mp hkept
    obtain ⟨m', hm', hid', rfl⟩ :=
      (h.identified.regular.clients client hmem).2.1 _ data hdata
    have hsame : m'.objectId = m.objectId := by
      have hnat := congrArg UInt64.toNat hid'
      simpa only [UInt32.toNat_toUInt64, UInt32.toNat_inj] using hnat
    obtain ⟨run, hran, g, hg, hcallof, hresult⟩ := hrun m' hm' hsame
    refine ⟨client, call, g, hk, hcall, run, hran, hg, hcallof, ?_⟩
    simp only [hlang, hcallid, hdata, hresult]
  | java =>
    obtain ⟨run, hran, g, hg, hcallof, hresult⟩ := hrun m hdelivered rfl
    refine ⟨client, call, g, hk, hcall, run, hran, hg, hcallof, ?_⟩
    have honly := filter_key (delivered_distinct hw h hstuck hk) hdelivered
    have hkey : call.objectId.toUInt32 = m.objectId := by rw [hcallid, UInt32.toUInt32_toUInt64]
    simp only [hlang]
    rw [(h.clients client hmem).called hlang, List.filter_map, hkey, hresult]
    exact congrArg (List.map fun m => (m.objectId, m.data)) honly

open Dousi.Executor.SignatureValidation (add calculator)
open Dousi.Executor.Delivery (single performs_add)

/-- A C++ client and a Java client have called `add`, and nothing has been read. -/
def calling : List (Action single) :=
  [.connect .cpp, .connect .java,
    .requestObjectID 0 [0x94, 0xa1, 67, 0xa3, 97, 100, 100, 1, 2] nonempty, .submit 0 0,
    .requestObjectID 1 [0x94, 0xa1, 67, 0xa3, 97, 100, 100, 1, 2] nonempty, .submit 1 0]

end Dousi.System.Completion
