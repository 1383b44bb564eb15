import Dousi.System.Wires

/-!
# Which call a frame, a run and a response belong to

A client's number and the 32-bit object id name a call as long as a client makes no
more than `2 ^ 32` of them. With stream ids left and bodies that fit their headers this
name goes with the frame, the run and the response, back to the client of the call.
-/
namespace Dousi.System.CallIds

open Dousi.Lib.Word
open Dousi.Lib.Log
open Dousi.Core.Msgpack
open Dousi.Stream.AsioStream
open Dousi.Stream.Connection
open Dousi.Executor.Services (Registry)
open Dousi.Executor.InvokeHelper (MethodType Objects)
open Dousi.Executor.Server (ExecutorOptions Frame WriteJob added_step)
open Dousi.Executor.Conservation (invokeMethod_ids)
open Dousi.Executor.Routing (Routed Few routed_loop routed_step)
open Dousi.Executor.Pipeline (arrivedOn)
open Dousi.Client.Calls (Submitter Buffers)
open Network Wires

variable {τ : Type} {El : τ → Type} {σ : Type} {o : ExecutorOptions} {order : ByteOrder}

/-- A client makes no more than `2 ^ 32` calls. -/
def CallsLeft (s : Config El σ o order) : Action o → Prop
  | .requestObjectID k _ _ => ∀ client ∈ s.clients[k]?, client.calls.length < 2 ^ 32
  | _ => True

def ResponseFits (writers : Fin o.writeThreadNum → WriteJob) : Executor.Server.Action o → Prop
  | .write n =>
    match writers n with
    | .found _ response _ => response.result.length < 2 ^ 32
    | _ => True
  | _ => True

/-- Requests and responses are shorter than `2 ^ 32` bytes, and fewer than `2 ^ 64`
connections are accepted. -/
def Fits (s : Config El σ o order) : Action o → Prop
  | .requestObjectID _ buffer _ => buffer.length < 2 ^ 32
  | .server action => Few s.server action ∧ ResponseFits s.server.writers action
  | _ => True

instance (s : Config El σ o order) (a : Action o) : Decidable (CallsLeft s a) := by
  cases a with
  | requestObjectID k buffer decodes =>
    exact inferInstanceAs (Decidable (∀ client ∈ s.clients[k]?, _ < _))
  | _ => exact inferInstanceAs (Decidable True)

instance (writers : Fin o.writeThreadNum → WriteJob) :
    (a : Executor.Server.Action o) → Decidable (ResponseFits writers a)
  | .write n =>
    show Decidable (match writers n with
      | .found _ response _ => response.result.length < 2 ^ 32
      | _ => True) from
    match writers n with
    | .found .. => inferInstanceAs (Decidable (_ < _))
    | .idle | .popped .. => isTrue trivial
  | .accept _ | .arrive .. | .invoke _ | .pop _ | .lookup _ | .call _ | .respond _ | .take _
  | .find _ => isTrue trivial

instance (s : Config El σ o order) (a : Action o) : Decidable (Fits s a) := by
  cases a with
  | requestObjectID k buffer decodes => exact inferInstanceAs (Decidable (_ < _))
  | server action => exact inferInstanceAs (Decidable (_ ∧ _))
  | _ => exact inferInstanceAs (Decidable True)

structure Identified (mp : Codec τ El) (r : Registry (MethodType El σ)) (w : Objects El σ)
    (s : Config El σ o order) : Prop where
  regular : Regular mp r w s
  few : ∀ client ∈ s.clients, client.calls.length ≤ 2 ^ 32
  short : ∀ client ∈ s.clients, Buffers (fun buffer => buffer.length < 2 ^ 32) client
  distinct : ∀ k, ((s.up k).sent.map Message.objectId).Nodup
  routed : Routed s.server
  results : ∀ w ∈ s.server.written, w.response.result.length < 2 ^ 32

/-- The object id of a message is the number of its call. -/
theorem submitted_id {mp : Codec τ El} {r : Registry (MethodType El σ)} {w : Objects El σ}
    {s : Config El σ o order} (h : Regular mp r w s)
    (hfew : ∀ client ∈ s.clients, client.calls.length ≤ 2 ^ 32) {x : CallId} {m : Message}
    (hm : submitted s.clients x = some m) : m.objectId.toNat = x.2 := by
  obtain ⟨client, call, hk, hc, rfl⟩ := submitted_cases hm
  have hmem := List.mem_of_getElem? hk
  have hlen := hfew client hmem
  have hlt := (List.getElem?_eq_some_iff.mp hc).1
  rw [Client.Calls.message, (h.clients client hmem).1.ids x.2 call hc]
  simp only [UInt64.toNat_toUInt32, UInt64.toNat_ofNat']
  omega

theorem few_step {mp : Codec τ El} {s t : Config El σ o order} {a : Action o}
    (h : ∀ client ∈ s.clients, client.calls.length ≤ 2 ^ 32) (hc : CallsLeft s a)
    (hs : step mp s a = some t) : ∀ client ∈ t.clients, client.calls.length ≤ 2 ^ 32 := by
  refine clients_invariant h (fun language => by simp [Client.Calls.init]) ?_ hs
  intro k client client' act hk hclient hact hstep
  rcases Client.Calls.calls_length_step hstep with hsame | ⟨buffer, decodes, hb, hmore⟩
  · rw [hsame]
    exact hclient
  · rw [hact buffer decodes hb] at hc
    have hlt := hc client hk
    omega

/-- A call is sent once, so that the ids on a wire are distinct. -/
theorem distinct_step {mp : Codec τ El} {r : Registry (MethodType El σ)} {w : Objects El σ}
    {s t : Config El σ o order} {a : Action o} (h : Identified mp r w s)
    (ht : Regular mp r w t) (hfew : ∀ client ∈ t.clients, client.calls.length ≤ 2 ^ 32)
    (hs : step mp s a = some t) : ∀ k, ((t.up k).sent.map Message.objectId).Nodup := by
  intro k
  have hsub := submitted_step hs
  cases a with
  | submit j c =>
    obtain ⟨m, hnone, hnew, hup | hup⟩ := hsub
    · rw [hup]
      exact h.distinct k
    · rw [hup]
      by_cases hj : k = j
      · subst hj
        rw [Function.update_self]
        change ((s.up k).sent ++ [m]).map Message.objectId |>.Nodup
        rw [List.map_append, List.nodup_append]
        refine ⟨h.distinct k, List.nodup_singleton _, fun i hi i' hi' heq => ?_⟩
        obtain ⟨m', hmem, rfl⟩ := List.mem_map.mp hi
        obtain rfl := List.mem_singleton.mp hi'
        obtain ⟨d, hd⟩ := h.regular.wires.sent k m' hmem
        have hid := submitted_id h.regular h.few hd
        have hid' := submitted_id ht hfew (show submitted t.clients (k, c) = some m by
          rw [hnew, Function.update_self])
        have hdc : d = c := hid.symm.trans ((congrArg UInt32.toNat heq).trans hid')
        rw [hdc, hnone] at hd
        cases hd
      · rw [Function.update_of_ne hj]
        exact h.distinct k
  | _ =>
    rw [hsub.2 k]
    exact h.distinct k

theorem results_step {mp : Codec τ El} {s t : Config El σ o order} {a : Action o}
    (h : ∀ w ∈ s.server.written, w.response.result.length < 2 ^ 32) (hc : Fits s a)
    (hs : step mp s a = some t) :
    ∀ w ∈ t.server.written, w.response.result.length < 2 ^ 32 := by
  refine server_invariant (I := fun u => ∀ w ∈ u.written, w.response.result.length < 2 ^ 32) h
    (fun act u hact hstep w hw => ?_) hs
  have hadd := added_step hstep
  cases act with
  | write n =>
    obtain ⟨ticket, response, k, hn, hadd⟩ := hadd
    rcases hact with rfl | ⟨k, objectId, body, hact⟩
    · rw [hadd.written] at hw
      rcases List.mem_append.mp hw with hw | hw
      · exact h w hw
      · have hfits := hc.2
        simp only [ResponseFits, hn] at hfits
        rw [List.mem_singleton.mp hw]
        exact hfits
    · cases hact
  | arrive k objectId body =>
    obtain ⟨stream, _, hadd⟩ := hadd
    rw [hadd.written, List.append_nil] at hw
    exact h w hw
  | call u =>
    obtain ⟨v, runs, hadd⟩ := hadd
    rw [hadd.written, List.append_nil] at hw
    exact h w hw
  | _ =>
    rw [hadd.written, List.append_nil] at hw
    exact h w hw

theorem identified_start (mp : Codec τ El) (r : Registry (MethodType El σ)) (w : Objects El σ) :
    Identified mp r w (start o order r w) :=
  ⟨regular_start mp r w, by simp [start], by simp [start], fun _ => List.nodup_nil,
    routed_loop r w, by simp [start, Executor.Server.loop]⟩

theorem identified_step {mp : Codec τ El} {r : Registry (MethodType El σ)} {w : Objects El σ}
    {s t : Config El σ o order} {a : Action o} (h : Identified mp r w s) (hc : CallsLeft s a)
    (hf : Fits s a) (hs : step mp s a = some t) : Identified mp r w t := by
  have hregular := regular_step h.regular hs
  have hfew := few_step h.few hc hs
  refine ⟨hregular, hfew, buffers_step h.short ?_ hs, distinct_step h hregular hfew hs, ?_,
    results_step h.results hf hs⟩
  · rintro k buffer decodes rfl
    exact hf
  · refine server_invariant h.routed (fun act u hact hstep => ?_) hs
    refine routed_step h.regular.always.traced h.routed ?_ hstep
    rcases hact with rfl | ⟨k, objectId, body, rfl⟩
    · exact hf.1
    · trivial

theorem sent_short {mp : Codec τ El} {r : Registry (MethodType El σ)} {w : Objects El σ}
    {s : Config El σ o order} (h : Identified mp r w s) (k : Nat) :
    ∀ m ∈ (s.up k).sent, m.data.length < 2 ^ 32 := by
  intro m hm
  obtain ⟨c, hc⟩ := h.regular.wires.sent k m hm
  exact submitted_buffer h.short hc

/-- A frame is the message of the call it belongs to. -/
theorem submitted_of_frame {mp : Codec τ El} {r : Registry (MethodType El σ)} {w : Objects El σ}
    {s : Config El σ o order} (h : Identified mp r w s) {f : Frame} (hf : f ∈ s.server.arrived) :
    submitted s.clients (callOfFrame f) = some (messageOfFrame f) := by
  have hmem : messageOfFrame f ∈ (arrivedOn s.server.arrived f.connection).map messageOfFrame :=
    List.mem_map_of_mem (List.mem_filter.mpr ⟨hf, by simp⟩)
  obtain ⟨c, hc⟩ := h.regular.wires.sent f.connection _
    ((arrived_prefix_sent h.regular.wires (sent_short h f.connection)).subset hmem)
  have hid : f.objectId.toNat = c := submitted_id h.regular h.few hc
  rw [callOfFrame, hid]
  exact hc

theorem calls_pairwise {mp : Codec τ El} {r : Registry (MethodType El σ)} {w : Objects El σ}
    {s : Config El σ o order} (h : Identified mp r w s) :
    (s.server.arrived.map callOfFrame).Nodup := by
  rw [List.Nodup, List.pairwise_map, List.pairwise_iff_forall_sublist]
  intro f g hsub heq
  have hk : g.connection = f.connection := (congrArg Prod.fst heq).symm
  have hid : f.objectId = g.objectId := UInt32.toNat_inj.mp (congrArg Prod.snd heq)
  have hpair : [f, g].Sublist (arrivedOn s.server.arrived f.connection) := by
    have hfilter := hsub.filter fun x => x.connection = f.connection
    simpa [hk, arrivedOn] using hfilter
  have hids : ((arrivedOn s.server.arrived f.connection).map Frame.objectId).Sublist
      ((s.up f.connection).sent.map Message.objectId) := by
    have hprefix :=
      (arrived_prefix_sent h.regular.wires (sent_short h f.connection)).map Message.objectId
    rw [List.map_map] at hprefix
    exact hprefix.sublist
  have hnodup := (h.distinct f.connection).sublist ((hpair.map Frame.objectId).trans hids)
  simp [hid] at hnodup

/-- No two frames belong to one call. -/
theorem frame_unique {mp : Codec τ El} {r : Registry (MethodType El σ)} {w : Objects El σ}
    {s : Config El σ o order} (h : Identified mp r w s) {i j : Nat} {f g : Frame}
    (hi : s.server.arrived[i]? = some f) (hj : s.server.arrived[j]? = some g)
    (heq : callOfFrame f = callOfFrame g) : i = j := by
  have hlt := (List.getElem?_eq_some_iff.mp hi).1
  refine (List.getElem?_inj (by rwa [List.length_map]) (calls_pairwise h)).mp ?_
  rw [List.getElem?_map, List.getElem?_map, hi, hj, Option.map_some, Option.map_some, heq]

/-- A response delivered to a client is that of the run of its call. -/
theorem run_of_delivered {mp : Codec τ El} {r : Registry (MethodType El σ)} {w : Objects El σ}
    {s : Config El σ o order} (h : Identified mp r w s) {k : Nat} {client : Submitter}
    (hk : s.clients[k]? = some client) {m : Message} (hm : m ∈ client.loop.delivered) :
    ∃ run ∈ s.server.ran, ∃ f, s.server.arrived[run.ticket]? = some f ∧
      callOfFrame f = callOfMessage k m ∧ run.result = m.data := by
  have hsent : m ∈ (s.down k).sent := by
    have hshort : ∀ m ∈ (s.down k).sent, m.data.length < 2 ^ 32 := by
      intro m hm
      obtain ⟨e, he, _, rfl⟩ := h.regular.wires.returned k m hm
      exact h.results e he
    refine ((s.down k).delivered_prefix_sent hshort).subset ?_
    rw [← reads_delivered (h.regular.wires.reads k client hk)]
    exact hm
  obtain ⟨e, he, rfl, rfl⟩ := h.regular.wires.returned k m hsent
  obtain ⟨run, hrun, hticket, hresponse⟩ := h.regular.always.traced.written e he
  obtain ⟨f, hf, hstream⟩ := h.routed.written e he
  rw [← hticket] at hf
  obtain ⟨g, hg, hdec⟩ := h.regular.always.traced.ran run hrun
  obtain rfl := Option.some.inj (hf.symm.trans hg)
  have hid : e.response.objectId = f.objectId := by
    rw [hresponse]
    exact (invokeMethod_ids hdec).2
  refine ⟨run, hrun, f, hf, ?_, ?_⟩
  · rw [callOfFrame, callOfMessage, hstream, messageOfWritten, hid]
  · rw [messageOfWritten, hresponse]

end Dousi.System.CallIds
