import Dousi.System.CallIds
import Dousi.System.ProgramOrder

/-!
# The service calls are linearizable

To its clients the server is one object that serves a call by the service and the method
its body names. Every run of the clients and the server is matched by a run of this
object: a call is invoked when it is submitted, takes effect when its handler runs, and
is answered when its response is stored.
-/
namespace Dousi.System.Linearizability

open Dousi.Lib.Word
open Dousi.Lib.Transition
open Dousi.Lib.Atomic (Entry Machine Committed Sequential Before linearized_of_reach
  step_invoke step_commit step_respond)
open Dousi.Core.Msgpack
open Dousi.Stream.AsioStream
open Dousi.Executor.Request
open Dousi.Executor.Services (Registry Built Bound lastFor)
open Dousi.Executor.InvokeHelper (MethodType Objects invoke)
open Dousi.Executor.Server (ExecutorOptions Frame Run Thread added_step callMethod_cases step_cases)
open Dousi.Executor.Traces (FromFrame)
open Dousi.Client.Calls (Submitter Buffers delivered nonempty)
open Network Wires CallIds

variable {τ : Type} {El : τ → Type} {σ : Type} {o : ExecutorOptions} {order : ByteOrder}

/-- What a call means: the method last registered under the two names of its body is
invoked on the object of its service. -/
def serve (mp : Codec τ El) (r : Registry (MethodType El σ)) (w : Objects El σ) (body : Bytes) :
    Option (Objects El σ × Bytes) :=
  (mp.unpack body).bind fun unpacked =>
    (serviceAndMethodName mp unpacked).bind fun (serviceName, methodName) =>
      (lastFor r serviceName methodName).bind fun e =>
        match invoke mp e.bound unpacked w with
        | (w', some result) => some (w', result)
        | (_, none) => none

/-- The call of a run, with its body and its result. -/
def entryOf (arrived : List Frame) (run : Run El σ) : Option (Entry CallId Bytes Bytes) :=
  (arrived[run.ticket]?).map fun f => ⟨callOfFrame f, f.body, run.result⟩

/-- A sequential order of the executed calls that explains what the clients have seen. -/
structure SequentialOrder (mp : Codec τ El) (r : Registry (MethodType El σ)) (w : Objects El σ)
    (s : Config El σ o order) (log : List (Entry CallId Bytes Bytes)) : Prop where
  executed : (log.map some).Perm (s.server.ran.map (entryOf s.server.arrived))
  once : (log.map Entry.id).Nodup
  calls : ∀ e ∈ log, ∃ m, submitted s.clients e.id = some m ∧ m.data = e.op
  sequential : ∃ w', Sequential (serve mp r) w (log.map fun e => (e.op, e.result)) w'
  /-- a call whose response was stored before another call was submitted precedes it -/
  realTime : ∀ x y, Before s.history (.respond x) (.invoke y) → y ∈ log.map Entry.id →
    Before (log.map Entry.id) x y
  /-- what is stored under the id of a call is its result in this order -/
  stored : ∀ k client key data, s.clients[k]? = some client →
    client.cachedObjects key = some data →
    ∃ c call e, client.calls[c]? = some call ∧ call.objectId = key ∧ e ∈ log ∧
      e.id = (k, c) ∧ e.result = data

def Linearizable (mp : Codec τ El) (r : Registry (MethodType El σ)) (w : Objects El σ)
    (s : Config El σ o order) : Prop := ∃ log, SequentialOrder mp r w s log

/-- The method that a body names is registered by no service but the one it names. -/
def OneService (mp : Codec τ El) (r : Registry (MethodType El σ)) (body : Bytes) : Prop :=
  ∀ names ∈ (mp.unpack body).bind (serviceAndMethodName mp),
    ∀ e ∈ r.registrations, e.methodName = names.2 → e.serviceName = names.1

def NamesOneService (mp : Codec τ El) (r : Registry (MethodType El σ)) : Action o → Prop
  | .requestObjectID _ buffer _ => OneService mp r buffer
  | _ => True

instance (mp : Codec τ El) (r : Registry (MethodType El σ)) :
    (a : Action o) → Decidable (NamesOneService mp r a)
  | .requestObjectID _ buffer _ =>
    inferInstanceAs (Decidable (∀ names ∈ (mp.unpack buffer).bind (serviceAndMethodName mp),
      ∀ e ∈ r.registrations, e.methodName = names.2 → e.serviceName = names.1))
  | .connect _ | .submit .. | .get .. | .clientReceive _ | .clientReadError _
  | .clientWriteError _ | .serverReceive _ | .server _ => isTrue trivial

/-- The lookup by the method's name alone finds the method of the service. -/
theorem serve_of_invoke {mp : Codec τ El} {r : Registry (MethodType El σ)} (hr : Built r)
    {streamId : UInt64} {objectId : UInt32} {body : Bytes} {request : DousiRequest}
    (hd : invokeMethod mp streamId objectId body = some request) (hone : OneService mp r body)
    {b : Bound (MethodType El σ)} (hb : r.registeredMethods request.methodName = some b)
    {w w' : Objects El σ} {result : Bytes}
    (hinv : invoke mp b request.unpacked w = (w', some result)) :
    serve mp r w body = some (w', result) := by
  obtain ⟨unpacked, hu, hd⟩ := Option.bind_eq_some_iff.mp hd
  obtain ⟨⟨serviceName, methodName⟩, hn, rfl⟩ := Option.map_eq_some_iff.mp hd
  rw [(Executor.Services.consistent_built hr).methods] at hb
  obtain ⟨e, he, rfl⟩ := Option.map_eq_some_iff.mp hb
  have hlast : lastFor r serviceName methodName = some e := by
    rw [← he]
    refine Executor.Services.lastFor_eq_lastNamed fun e' he' => ?_
    obtain ⟨hmem, hname⟩ := Executor.Services.lastNamed_mem he'
    exact hone (serviceName, methodName) (by rw [hu]; exact hn) e' hmem hname
  simp only [serve, hu, Option.bind_some, hn, hlast, hinv]

/-- What the proofs of a run carry from step to step. -/
structure Invariant (mp : Codec τ El) (r : Registry (MethodType El σ)) (w : Objects El σ)
    (s : Config El σ o order) : Prop where
  identified : Identified mp r w s
  oneService : ∀ client ∈ s.clients, Buffers (OneService mp r) client

theorem invariant_step {mp : Codec τ El} {r : Registry (MethodType El σ)} {w : Objects El σ}
    {s t : Config El σ o order} {a : Action o} (h : Invariant mp r w s)
    (hc : CallsLeft s a ∧ NamesOneService mp r a ∧ Fits s a) (hs : step mp s a = some t) :
    Invariant mp r w t :=
  ⟨identified_step h.identified hc.1 hc.2.2 hs,
    buffers_step h.oneService (by rintro k buffer decodes rfl; exact hc.2.1) hs⟩

/-- A state of the system and one of the object that serves the calls one by one. -/
structure Simulates (s : Config El σ o order) (m : Machine CallId Bytes Bytes (Objects El σ)) :
    Prop where
  object : s.server.terminated = none → m.object = s.server.objects
  invoked : ∀ x, m.invoked x = (submitted s.clients x).map Message.data
  log : m.log.map some = s.server.ran.map (entryOf s.server.arrived)
  history : m.history = s.history

theorem simulates_start (r : Registry (MethodType El σ)) (w : Objects El σ) :
    Simulates (start o order r w) (Lib.Atomic.start w) :=
  ⟨fun _ => rfl, fun _ => rfl, rfl, rfl⟩

/-- The runs in the log of the object are those of the server. -/
theorem log_run {s : Config El σ o order} {m : Machine CallId Bytes Bytes (Objects El σ)}
    (h : Simulates s m) {e : Entry CallId Bytes Bytes} :
    e ∈ m.log ↔ ∃ run ∈ s.server.ran, entryOf s.server.arrived run = some e := by
  rw [← List.mem_map_of_injective (Option.some_injective _), h.log, List.mem_map]

/-- The call of a response that is delivered has taken effect, with this result. -/
theorem committed_of_delivered {mp : Codec τ El} {r : Registry (MethodType El σ)} {w : Objects El σ}
    {s : Config El σ o order} {m : Machine CallId Bytes Bytes (Objects El σ)}
    (hi : Identified mp r w s)
    (hlog : m.log.map some = s.server.ran.map (entryOf s.server.arrived)) {k : Nat}
    {client : Submitter} (hk : s.clients[k]? = some client) {msg : Message}
    (hmsg : msg ∈ client.loop.delivered) :
    ∃ e ∈ m.log, e.id = callOfMessage k msg ∧ e.result = msg.data := by
  obtain ⟨run, hrun, f, hf, hcall, hresult⟩ := run_of_delivered hi hk hmsg
  have hmem : some (⟨callOfFrame f, f.body, run.result⟩ : Entry CallId Bytes Bytes) ∈
      m.log.map some := by
    rw [hlog]
    exact List.mem_map.mpr ⟨run, hrun, by rw [entryOf, hf]; rfl⟩
  obtain ⟨e, he, heq⟩ := List.mem_map.mp hmem
  obtain rfl := Option.some.inj heq
  exact ⟨_, he, hcall, hresult⟩

/-- A step that neither submits, runs nor stores anything. -/
theorem simulates_quiet {s t : Config El σ o order}
    {m : Machine CallId Bytes Bytes (Objects El σ)} (h : Simulates s m)
    (hobject : t.server.terminated = none →
      s.server.terminated = none ∧ t.server.objects = s.server.objects)
    (hinvoked : submitted t.clients = submitted s.clients)
    (hlog : t.server.ran.map (entryOf t.server.arrived) =
      s.server.ran.map (entryOf s.server.arrived))
    (hhistory : t.history = s.history) : Simulates t m := by
  refine ⟨fun ht => ?_, fun x => by rw [hinvoked, h.invoked], h.log.trans hlog.symm,
    h.history.trans hhistory.symm⟩
  obtain ⟨hs, ho⟩ := hobject ht
  rw [ho, h.object hs]

theorem simulates_clientStep {s t : Config El σ o order} {k : Nat}
    {a : Client.Calls.Action} {m : Machine CallId Bytes Bytes (Objects El σ)}
    (ha : ∀ c, a ≠ .submit c) (h : Simulates s m) (hs : clientStep s k a = some t) :
    Simulates t m := by
  obtain ⟨hsub, -⟩ := submitted_clientStep ha hs
  obtain ⟨client, client', _, _, rfl⟩ := clientStep_cases hs
  exact simulates_quiet h (fun ht => ⟨ht, rfl⟩) hsub rfl rfl

theorem simulates_submit {mp : Codec τ El} {r : Registry (MethodType El σ)}
    {s t : Config El σ o order} {k c : Nat} {m : Machine CallId Bytes Bytes (Objects El σ)}
    (h : Simulates s m) (hs : step mp s (.submit k c) = some t) :
    ∃ b m', Lib.Atomic.step (serve mp r) m b = some m' ∧ Simulates t m' := by
  obtain ⟨msg, hnone, hnew, _⟩ := submitted_step hs
  have hfresh : m.invoked (k, c) = none := by
    rw [h.invoked, hnone]
    rfl
  refine ⟨.invoke (k, c) msg.data, _, step_invoke _ _ hfresh, ?_⟩
  obtain ⟨client, client', call, _, _, _, rfl⟩ := submit_cases hs
  refine ⟨h.object, fun x => ?_, h.log, congrArg (· ++ [.invoke (k, c)]) h.history⟩
  rw [hnew]
  by_cases hx : x = (k, c)
  · subst hx
    simp only [Function.update_self, Option.map_some]
  · simp only [Function.update_of_ne hx, h.invoked]

/-- A response that is delivered answers a call that has taken effect. -/
theorem simulates_clientReceive {mp : Codec τ El} {r : Registry (MethodType El σ)}
    {w : Objects El σ} {s t : Config El σ o order} {k : Nat}
    {m : Machine CallId Bytes Bytes (Objects El σ)}
    (hi : Identified mp r w t) (h : Simulates s m)
    (hs : step mp s (.clientReceive k) = some t) :
    Simulates t m ∨ ∃ b m', Lib.Atomic.step (serve mp r) m b = some m' ∧ Simulates t m' := by
  have hsub := (submitted_step hs).1
  obtain ⟨client, client', b, link, hk, _, _, hc, rfl⟩ := clientReceive_cases hs
  have hloop := Client.Calls.loop_step hc
  dsimp only at hloop
  rcases ReadLoop.receive_delivered order client.loop b with hsame | ⟨msg, hmsg⟩
  · have hnil : delivered client.loop client'.loop = [] := by
      rw [delivered, hloop, hsame, List.drop_length]
    refine .inl (simulates_quiet h (fun ht => ⟨ht, rfl⟩) hsub rfl ?_)
    dsimp only
    rw [hnil, List.map_nil, List.append_nil]
  · have hone : delivered client.loop client'.loop = [msg] := by
      rw [delivered, hloop, hmsg, List.drop_left]
    have hk' : (s.clients.set k client')[k]? = some client' :=
      List.getElem?_set_self (List.getElem?_eq_some_iff.mp hk).1
    have hmem : msg ∈ client'.loop.delivered := by
      rw [hloop, hmsg]
      exact List.mem_append_right _ (List.mem_singleton.mpr rfl)
    obtain ⟨e, he, hid, _⟩ := committed_of_delivered hi h.log hk' hmem
    have hcommitted : Committed m (callOfMessage k msg) := List.mem_map.mpr ⟨e, he, hid⟩
    refine .inr ⟨.respond (callOfMessage k msg), _, step_respond _ hcommitted, h.object,
      fun x => by rw [hsub]; exact h.invoked x, h.log, ?_⟩
    dsimp only
    rw [hone, h.history]
    rfl

/-- The calls of the runs do not depend on frames that arrive later. -/
theorem entries_arrive {mp : Codec τ El} {s : Executor.Server.State El σ o}
    (h : Executor.Traces.Traced mp s) (f : Frame) :
    s.ran.map (entryOf (s.arrived ++ [f])) = s.ran.map (entryOf s.arrived) := by
  refine List.map_congr_left fun run hrun => ?_
  obtain ⟨g, hg, _⟩ := h.ran run hrun
  rw [entryOf, entryOf, Lib.Log.get_append hg, hg]

theorem simulates_serverReceive {mp : Codec τ El} {r : Registry (MethodType El σ)}
    {w : Objects El σ} {s t : Config El σ o order} {k : Nat}
    {m : Machine CallId Bytes Bytes (Objects El σ)}
    (hi : Identified mp r w s) (h : Simulates s m) (hs : serverReceive mp s k = some t) :
    Simulates t m := by
  obtain ⟨b, link, _, ⟨_, rfl⟩ | ⟨msg, server, _, hserver, rfl⟩⟩ := serverReceive_cases hs
  · exact simulates_quiet h (fun ht => ⟨ht, rfl⟩) rfl rfl rfl
  · obtain ⟨stream, _, hadd⟩ := added_step hserver
    refine simulates_quiet h (fun _ => ⟨(step_cases hserver).1, hadd.objects⟩) rfl ?_ rfl
    dsimp only
    rw [hadd.arrived, hadd.ran, List.append_nil, entries_arrive hi.regular.always.traced]

/-- A handler that runs makes its call take effect. -/
theorem simulates_call {mp : Codec τ El} {r : Registry (MethodType El σ)} {w : Objects El σ}
    (hr : Built r)
    {s t : Config El σ o order} {u : Thread o} {m : Machine CallId Bytes Bytes (Objects El σ)}
    (hi : Invariant mp r w s) (hit : Identified mp r w t) (h : Simulates s m)
    (hs : serverStep mp s (.call u) = some t) :
    Simulates t m ∨ ∃ b m', Lib.Atomic.step (serve mp r) m b = some m' ∧ Simulates t m' := by
  obtain ⟨_, server, hserver, rfl⟩ := serverStep_cases hs
  obtain ⟨halive, hact⟩ := step_cases hserver
  obtain ⟨ticket, request, method, hj, ⟨w, rfl, _⟩ | ⟨b, w, result, rfl, hinv, rfl⟩⟩ :=
    callMethod_cases hact
  · refine .inl (simulates_quiet h (fun hdead => by cases hdead) rfl rfl ?_)
    simp [Executor.Server.throwException]
  have hframe : FromFrame mp s.server.arrived ticket request :=
    hi.identified.regular.always.traced.job hj
  have hb : some b = r.registeredMethods request.methodName :=
    hi.identified.regular.always.bindings.job hj
  obtain ⟨f, hf, hdec⟩ := hframe
  have hsub := submitted_of_frame hi.identified (List.mem_of_getElem? hf)
  have hserve := serve_of_invoke hr hdec (submitted_buffer hi.oneService hsub) hb.symm hinv
  have hfresh : ¬ Committed m (callOfFrame f) := by
    intro hc
    obtain ⟨e, he, hid⟩ := List.mem_map.mp hc
    obtain ⟨run, hrun, hentry⟩ := (log_run h).mp he
    obtain ⟨g, hg, rfl⟩ := Option.map_eq_some_iff.mp hentry
    have hticket : run.ticket = ticket := frame_unique hi.identified hg hf hid
    have hnodup := Executor.Conservation.ran_nodup hit.regular.always.conserved
    simp only [List.map_append, List.nodup_append] at hnodup
    exact hnodup.2.2 ticket (hticket ▸ List.mem_map_of_mem hrun) ticket (by simp) rfl
  have hop : m.invoked (callOfFrame f) = some f.body := by
    rw [h.invoked, hsub]
    rfl
  rw [← h.object halive] at hserve
  refine .inr ⟨.commit (callOfFrame f), _, step_commit hfresh hop hserve, fun _ => rfl,
    h.invoked, ?_, ?_⟩
  · simp only [List.map_append, h.log, List.map_cons, List.map_nil, entryOf, hf, Option.map_some]
  · simp [callOfRun, hf, h.history]

theorem simulates_server {mp : Codec τ El} {r : Registry (MethodType El σ)} {w : Objects El σ}
    (hr : Built r)
    {s t : Config El σ o order} {a : Executor.Server.Action o}
    {m : Machine CallId Bytes Bytes (Objects El σ)} (hi : Invariant mp r w s)
    (hit : Identified mp r w t) (h : Simulates s m) (hs : serverStep mp s a = some t) :
    Simulates t m ∨ ∃ b m', Lib.Atomic.step (serve mp r) m b = some m' ∧ Simulates t m' := by
  have hquiet : ∀ {server writes}, Executor.Server.step mp s.server a = some server →
      Executor.Server.Added s.server server [] [] writes →
      t.server = server → t.clients = s.clients → t.history = s.history ++
        (server.ran.drop s.server.ran.length).filterMap (fun run =>
          (callOfRun server.arrived run).map .commit) → Simulates t m := by
    intro server writes hserver hadd hsame hclients hhistory
    refine simulates_quiet h (fun _ => ⟨(step_cases hserver).1, by rw [hsame, hadd.objects]⟩)
      (by rw [hclients]) (by rw [hsame, hadd.arrived, hadd.ran, List.append_nil, List.append_nil])
      ?_
    rw [hhistory, hadd.ran, List.append_nil, List.drop_length]
    exact List.append_nil _
  cases a with
  | call u => exact simulates_call hr hi hit h hs
  | arrive k objectId body =>
    obtain ⟨hallowed, _⟩ := serverStep_cases hs
    cases hallowed
  | write n =>
    obtain ⟨_, server, hserver, rfl⟩ := serverStep_cases hs
    obtain ⟨ticket, response, k, _, hadd⟩ := added_step hserver
    exact .inl (hquiet hserver hadd rfl rfl rfl)
  | _ =>
    obtain ⟨_, server, hserver, rfl⟩ := serverStep_cases hs
    exact .inl (hquiet hserver (added_step hserver) rfl rfl rfl)

/-- Every step of the system is at most one step of the object. -/
theorem simulates_step {mp : Codec τ El} {r : Registry (MethodType El σ)} {w : Objects El σ}
    (hr : Built r)
    {s t : Config El σ o order} {a : Action o} {m : Machine CallId Bytes Bytes (Objects El σ)}
    (hi : Invariant mp r w s) (hit : Invariant mp r w t) (h : Simulates s m)
    (hs : step mp s a = some t) :
    Simulates t m ∨ ∃ b m', Lib.Atomic.step (serve mp r) m b = some m' ∧ Simulates t m' := by
  cases a with
  | connect language =>
    obtain rfl := Option.some.inj hs
    exact .inl (simulates_quiet h (fun ht => ⟨ht, rfl⟩) (submitted_connect _ _) rfl rfl)
  | submit k c => exact .inr (simulates_submit h hs)
  | clientReceive k => exact simulates_clientReceive hit.identified h hs
  | serverReceive k => exact .inl (simulates_serverReceive hi.identified h hs)
  | server action => exact simulates_server hr hi hit.identified h hs
  | requestObjectID k buffer decodes => exact .inl (simulates_clientStep (by simp) h hs)
  | get k c => exact .inl (simulates_clientStep (by simp) h hs)
  | clientReadError k => exact .inl (simulates_clientStep (by simp) h hs)
  | clientWriteError k => exact .inl (simulates_clientStep (by simp) h hs)

/-- Every run of the system is a run of the object. -/
theorem simulated {mp : Codec τ El} {r : Registry (MethodType El σ)} {w : Objects El σ}
    {s : Config El σ o order} (hr : Built r)
    (h : Reach (step mp) (fun s a => CallsLeft s a ∧ NamesOneService mp r a ∧ Fits s a)
      (start o order r w) s) :
    ∃ m, Reach (Lib.Atomic.step (serve mp r)) Any (Lib.Atomic.start w) m ∧
      Invariant mp r w s ∧ Simulates s m := by
  refine h.simulate (R := fun s m => Invariant mp r w s ∧ Simulates s m)
    ⟨⟨identified_start mp r w, by simp [start]⟩, simulates_start r w⟩ ?_
  rintro s₁ a s₂ m ⟨hi, hsim⟩ hc hs
  have hi' := invariant_step hi hc hs
  rcases simulates_step hr hi hi' hsim hs with hquiet | ⟨b, m', hb, hsim'⟩
  · exact .inl ⟨hi', hquiet⟩
  · exact .inr ⟨b, m', trivial, hb, hi', hsim'⟩

/-- What is stored under the id of a call is the result in the log. -/
theorem stored_of_log {mp : Codec τ El} {r : Registry (MethodType El σ)} {w : Objects El σ}
    {s : Config El σ o order} {m : Machine CallId Bytes Bytes (Objects El σ)}
    (hi : Identified mp r w s) (h : Simulates s m)
    (hl : Lib.Atomic.Linearized (serve mp r) w m) {k : Nat} {client : Submitter} {key : UInt64}
    {data : Bytes} (hk : s.clients[k]? = some client)
    (hkey : client.cachedObjects key = some data) :
    ∃ c call e, client.calls[c]? = some call ∧ call.objectId = key ∧ e ∈ m.log ∧
      e.id = (k, c) ∧ e.result = data := by
  have hmem := List.mem_of_getElem? hk
  obtain ⟨msg, hmsg, hid, rfl⟩ := (hi.regular.clients client hmem).2.1 key data hkey
  obtain ⟨e, he, hcall, hresult⟩ := committed_of_delivered hi h.log hk hmsg
  have hop := hl.invoked e he
  rw [h.invoked, hcall] at hop
  obtain ⟨_, hsub, _⟩ := Option.map_eq_some_iff.mp hop
  obtain ⟨client', call, hk', hc, _⟩ := submitted_cases hsub
  obtain rfl := Option.some.inj (hk.symm.trans hk')
  refine ⟨msg.objectId.toNat, call, e, hc, ?_, he, hcall, hresult⟩
  rw [← hid, (hi.regular.clients client hmem).1.ids msg.objectId.toNat call hc]
  apply UInt64.toNat_inj.mp
  have hlt := msg.objectId.toNat_lt
  simp only [UInt64.toNat_ofNat', UInt32.toNat_toUInt64]
  omega

/-- In every state of every run the calls executed so far have a sequential order. -/
theorem linearizable {mp : Codec τ El} {r : Registry (MethodType El σ)} {w : Objects El σ}
    {s : Config El σ o order} (hr : Built r)
    (h : Reach (step mp) (fun s a => CallsLeft s a ∧ NamesOneService mp r a ∧ Fits s a)
      (start o order r w) s) : Linearizable mp r w s := by
  obtain ⟨m, hm, hi, hsim⟩ := simulated hr h
  have hl := linearized_of_reach hm
  refine ⟨m.log, by rw [hsim.log], hl.nodup, fun e he => ?_, ⟨m.object, hl.sequential⟩,
    fun x y hxy hy => hl.real_time x y (by rw [hsim.history]; exact hxy) hy,
    fun k client key data hk hkey => stored_of_log hi.identified hsim hl hk hkey⟩
  have hop := hl.invoked e he
  rw [hsim.invoked] at hop
  exact Option.map_eq_some_iff.mp hop

open ProgramOrder (get voidReturnService data twoCalls)
open Dousi.Executor.Delivery (single)

/-- The only worker performs the two requests one after the other. -/
def inTurn : List (Action single) :=
  twoCalls _ ++ [.server (.pop 0), .server (.lookup (.inr 0)), .server (.call (.inr 0)),
    .server (.respond (.inr 0)), .server (.pop 0), .server (.lookup (.inr 0)),
    .server (.call (.inr 0))]

/-- `Perform("456")` and `Get()` with their responses. -/
def answered : List (Action single) :=
  inTurn ++ [.server (.respond (.inr 0)), .server (.take 0), .server (.find 0),
    .server (.write 0), .server (.take 0), .server (.find 0), .server (.write 0)] ++
  List.replicate 20 (.clientReceive 0)

theorem linearizable_answered : ∃ r,
    run Executor.Services.step Executor.Services.empty voidReturnService = some r ∧ Built r ∧
    ∃ s, run (guarded (step fixCodec) fun s a =>
        CallsLeft s a ∧ NamesOneService fixCodec r a ∧ Fits s a)
      (start single .little r data) answered = some s ∧
      s.clients.map (fun client => client.cachedObjects 1) = [some [0xa3, 52, 53, 54]] ∧
      Linearizable fixCodec r data s := by
  obtain ⟨r, hr⟩ : ∃ r,
      run Executor.Services.step Executor.Services.empty voidReturnService = some r := ⟨_, rfl⟩
  have hbuilt : Built r := Reach.of_run hr
  have hrun : (run (guarded (step fixCodec) fun s a =>
        CallsLeft s a ∧ NamesOneService fixCodec r a ∧ Fits s a)
      (start single .little r data) answered).map
      (fun s => s.clients.map fun client => client.cachedObjects 1) =
      some [some [0xa3, 52, 53, 54]] := by
    cases hr
    decide +kernel
  obtain ⟨s, hs, hcached⟩ := Option.map_eq_some_iff.mp hrun
  exact ⟨r, hr, hbuilt, s, hs, hcached, linearizable hbuilt (Reach.of_guarded hs)⟩

/-- A `data_` whose packed form has `2 ^ 32` bytes. -/
def longData : Bytes := List.replicate (2 ^ 32 - 5) 48

def long : Objects (fun _ : Unit => Int) Bytes := ⟨fun _ => longData, []⟩

/-- `Get()` up to the writing of its response. -/
def getWritten : List (Action single) :=
  [.connect .cpp, .server (.accept .accept), .server (.accept .insert), .server (.accept .start),
    .requestObjectID 0 [0x92, 0xa1, 86, 0xa1, 71] nonempty, .submit 0 0] ++
  List.replicate 13 (.serverReceive 0) ++
  [.server (.invoke 0), .server (.pop 0), .server (.lookup (.inr 0)), .server (.call (.inr 0)),
    .server (.respond (.inr 0)), .server (.take 0), .server (.find 0), .server (.write 0)]

/-- The client reads the object id and the header of the response. -/
def headerRead : List (Action single) := List.replicate 8 (.clientReceive 0)

theorem longData_length : longData.length = 2 ^ 32 - 5 := List.length_replicate

/-- The response body of `Get()`. -/
theorem packed_length : (wideCodec.pack (.str longData)).length = 2 ^ 32 := by
  have hlong := longData_length
  rw [wideCodec_pack_length (by omega)]
  omega

theorem unpack_pack_long :
    wideCodec.unpack (wideCodec.pack (.str longData)) = some (.str longData) := by
  have hlong := longData_length
  exact wideCodec_unpack_pack (by omega) (by omega)

theorem invoke_get (text : Bytes) :
    (invoke wideCodec ⟨0, get⟩ (.array [.str [86], .str [71]]) ⟨fun _ => text, []⟩).2 =
      some (wideCodec.pack (.str text)) := rfl

/-- What the schedule leaves, without its long strings. -/
def Cut (s : Config (fun _ : Unit => Int) Bytes single .little) : Prop :=
  (s.down 0).read.length = 8 ∧ (s.down 0).sent.map Message.objectId = [0] ∧
    s.server.arrived.map Frame.body = [[0x92, 0xa1, 86, 0xa1, 71]] ∧
    s.server.ran.map Run.ticket = [0]

instance (s : Config (fun _ : Unit => Int) Bytes single .little) : Decidable (Cut s) :=
  inferInstanceAs (Decidable (_ ∧ _))

/-- The only handler run was that of `Get()`. -/
theorem cut_result {r : Registry (MethodType (fun _ : Unit => Int) Bytes)}
    (hget : r.registeredMethods [71] = some ⟨0, get⟩)
    {s : Config (fun _ : Unit => Int) Bytes single .little} (h : Regular wideCodec r long s)
    (hcut : Cut s) : ∀ run ∈ s.server.ran, run.result = wideCodec.pack (.str longData) := by
  obtain ⟨-, -, hbodies, htickets⟩ := hcut
  obtain ⟨⟨ticket, request, method, result⟩, hran, hticket⟩ := List.map_eq_singleton_iff.mp htickets
  obtain ⟨f, hf, hbody⟩ := List.map_eq_singleton_iff.mp hbodies
  have hmem : Run.mk ticket request method result ∈ s.server.ran := by
    rw [hran]
    exact List.mem_singleton.mpr rfl
  obtain ⟨g, hg, hdec⟩ := h.always.traced.ran _ hmem
  dsimp only at hticket hdec hg
  rw [hticket, hf] at hg
  obtain rfl := Option.some.inj hg
  have hunpack : wideCodec.unpack f.body = some (.array (.str [86] :: .str [71] :: [])) := by
    rw [hbody]
    rfl
  rw [invokeMethod_array wideCodec_documented _ _ hunpack] at hdec
  obtain rfl := Option.some.inj hdec
  have hmethod := (h.always.bindings.ran _ hmem).1
  rw [hget] at hmethod
  obtain rfl := Option.some.inj hmethod
  obtain ⟨w', hrep, -⟩ := h.replayed
  rw [hran] at hrep
  obtain ⟨u, hinvoke, -⟩ := hrep
  have hresult := congrArg Prod.snd hinvoke
  rw [long, invoke_get] at hresult
  intro run hrun
  rw [hran] at hrun
  rw [List.mem_singleton.mp hrun]
  exact (Option.some.inj hresult).symm

/-- The client has stored an empty response for its call. -/
theorem cut_stored {r : Registry (MethodType (fun _ : Unit => Int) Bytes)}
    (hget : r.registeredMethods [71] = some ⟨0, get⟩)
    {s : Config (fun _ : Unit => Int) Bytes single .little} (h : Regular wideCodec r long s)
    (hcut : Cut s) (hlanguages : s.clients.map Submitter.clientLanguage = [.cpp]) :
    ∃ client, s.clients[0]? = some client ∧ client.cachedObjects 0 = some [] := by
  have hresults := cut_result hget h hcut
  obtain ⟨hread, hids, -, -⟩ := hcut
  obtain ⟨m, hsent, hid⟩ := List.map_eq_singleton_iff.mp hids
  obtain ⟨client, hclients, hcpp⟩ := List.map_eq_singleton_iff.mp hlanguages
  have hclient : s.clients[0]? = some client := by rw [hclients]; rfl
  have hmem : client ∈ s.clients := List.mem_of_getElem? hclient
  obtain ⟨w, hw, -, hmessage⟩ :=
    h.wires.returned 0 m (by rw [hsent]; exact List.mem_singleton.mpr rfl)
  obtain ⟨run, hrun, -, hresponse⟩ := h.always.traced.written w hw
  have hdata : m.data = wideCodec.pack (.str longData) := by
    rw [← hmessage, messageOfWritten, hresponse]
    exact hresults run hrun
  have hheader : header m.data = 0 := by
    rw [header, hdata, packed_length]
    rfl
  have hdelivered : client.loop.delivered = [⟨0, []⟩] := by
    rw [reads_delivered (h.wires.reads 0 client hclient),
      Stream.Connection.Link.loop_of_zero_header hsent hheader hread, hid]
    rfl
  obtain ⟨-, hstored, hkept⟩ := h.clients client hmem
  have hsome := hkept hcpp ⟨0, []⟩ (by rw [hdelivered]; exact List.mem_singleton.mpr rfl)
  obtain ⟨data, hcached⟩ := Option.isSome_iff_exists.mp hsome
  obtain ⟨m', hm', -, rfl⟩ := hstored _ _ hcached
  rw [hdelivered] at hm'
  rw [List.mem_singleton.mp hm'] at hcached
  exact ⟨client, hclient, hcached⟩

theorem cut_not_linearizable {r : Registry (MethodType (fun _ : Unit => Int) Bytes)}
    (hget : r.registeredMethods [71] = some ⟨0, get⟩)
    {s : Config (fun _ : Unit => Int) Bytes single .little} (h : Regular wideCodec r long s)
    (hcut : Cut s) (hlanguages : s.clients.map Submitter.clientLanguage = [.cpp]) :
    ¬ Linearizable wideCodec r long s := by
  rintro ⟨log, hlog⟩
  obtain ⟨client, hclient, hcached⟩ := cut_stored hget h hcut hlanguages
  obtain ⟨_, _, e, _, _, he, _, hempty⟩ := hlog.stored 0 client 0 [] hclient hcached
  have hmem := hlog.executed.subset (List.mem_map_of_mem he)
  obtain ⟨run, hrun, hentry⟩ := List.mem_map.mp hmem
  obtain ⟨f, _, rfl⟩ := Option.map_eq_some_iff.mp hentry
  have hlen := congrArg List.length ((cut_result hget h hcut run hrun).symm.trans hempty)
  rw [packed_length, List.length_nil] at hlen
  cases hlen

/-- The response of `2 ^ 32` bytes has the header 0: an empty one is stored. -/
theorem headerRead_violates : ∃ r,
    run Executor.Services.step Executor.Services.empty voidReturnService = some r ∧ Built r ∧
    wideCodec.Documented ∧
    wideCodec.unpack (wideCodec.pack (.str longData)) = some (.str longData) ∧
    ∃ s, run (guarded (step wideCodec) fun s a => CallsLeft s a ∧ NamesOneService wideCodec r a)
      (start single .little r long) (getWritten ++ headerRead) = some s ∧
      (∃ client, s.clients[0]? = some client ∧ client.cachedObjects 0 = some []) ∧
      ¬ Linearizable wideCodec r long s := by
  obtain ⟨r, hr⟩ : ∃ r,
      run Executor.Services.step Executor.Services.empty voidReturnService = some r := ⟨_, rfl⟩
  have hget : r.registeredMethods [71] = some ⟨0, get⟩ := by cases hr; rfl
  have hcut : (run (guarded (step wideCodec) fun s a =>
      CallsLeft s a ∧ NamesOneService wideCodec r a)
      (start single .little r long) (getWritten ++ headerRead)).map (fun s => decide (Cut s)) =
      some true := by
    cases hr
    decide +kernel
  have hwritten : (run (guarded (step wideCodec) fun s a =>
      CallsLeft s a ∧ NamesOneService wideCodec r a)
      (start single .little r long) getWritten).map
      (fun s => s.clients.map Submitter.clientLanguage) = some [.cpp] := by
    cases hr
    decide +kernel
  obtain ⟨s, hs, hs'⟩ := Option.map_eq_some_iff.mp hcut
  obtain ⟨u, hu, hcpp⟩ := Option.map_eq_some_iff.mp hwritten
  have hlanguages : s.clients.map Submitter.clientLanguage = [.cpp] := by
    rw [run_append, hu, Option.bind_some] at hs
    have hread : ∀ a ∈ headerRead, a = .clientReceive 0 := fun _ ha => List.eq_of_mem_replicate ha
    rw [← hcpp]
    refine (Reach.of_guarded_and hs hread).invariant
      (I := fun v => v.clients.map Submitter.clientLanguage =
        u.clients.map Submitter.clientLanguage) rfl ?_
    rintro v a v' hv ⟨_, rfl⟩ hstep
    exact (languages_clientReceive hstep).trans hv
  have hregular : Regular wideCodec r long s :=
    regular_of_reach ((Reach.of_guarded hs).weaken fun _ _ _ _ _ => trivial)
  have hshape : Cut s := of_decide_eq_true hs'
  exact ⟨r, hr, Reach.of_run hr, wideCodec_documented, unpack_pack_long, s, hs,
    cut_stored hget hregular hshape hlanguages,
    cut_not_linearizable hget hregular hshape hlanguages⟩

end Dousi.System.Linearizability
