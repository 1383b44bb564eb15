import Dousi.Executor.Delivery

/-!
# What a bad request does to the server

A body can fail at four points: `unpack`, the decoding of the two names, the lookup
that makes an empty function, and the decoding of the arguments. None of the threads
catches what is thrown there, so a frame with such a body never gets past that point,
and the thread that comes to it ends the process.
-/
namespace Dousi.Executor.BadRequests

open Dousi.Lib.Word
open Dousi.Lib.Log
open Dousi.Lib.Transition
open Dousi.Lib.Pool
open Dousi.Core.Msgpack
open Request Services InvokeHelper Server Conservation Traces Routing Delivery

variable {τ : Type} {El : τ → Type} {σ : Type} {o : ExecutorOptions}

/-- A body that is not msgpack, does not start with two strings, names a method never
registered, or has arguments that do not convert to the parameter types. -/
inductive Bad (mp : Codec τ El) (r : Registry (MethodType El σ)) (body : Bytes) : Prop
  | unpack (h : mp.unpack body = none)
  | names {unpacked : Obj} (hb : mp.unpack body = some unpacked)
      (h : serviceAndMethodName mp unpacked = none)
  | method {unpacked : Obj} {s m : Bytes} (hb : mp.unpack body = some unpacked)
      (hn : serviceAndMethodName mp unpacked = some (s, m)) (h : r.registeredMethods m = none)
  | arguments {unpacked : Obj} {s m : Bytes} {b : Bound (MethodType El σ)}
      (hb : mp.unpack body = some unpacked)
      (hn : serviceAndMethodName mp unpacked = some (s, m))
      (hr : r.registeredMethods m = some b)
      (h : mp.asTuple (serviceNameAndMethodNameWithArgs b.method.params) unpacked = none)

/-- The request of a bad body has no method, or one whose call throws. -/
theorem bad_request {mp : Codec τ El} {r : Registry (MethodType El σ)} {body : Bytes}
    (h : Bad mp r body) {streamId : UInt64} {objectId : UInt32} {request : DousiRequest}
    (hd : invokeMethod mp streamId objectId body = some request)
    {b : Bound (MethodType El σ)} (hr : r.registeredMethods request.methodName = some b)
    (w : Objects El σ) : invoke mp b request.unpacked w = (w, none) := by
  obtain ⟨unpacked, hu, hd⟩ := Option.bind_eq_some_iff.mp hd
  obtain ⟨⟨s, m⟩, hn, rfl⟩ := Option.map_eq_some_iff.mp hd
  cases h with
  | unpack h => rw [hu] at h; cases h
  | names hb h =>
    obtain rfl := Option.some.inj (hu.symm.trans hb)
    rw [hn] at h; cases h
  | method hb hn' h =>
    obtain rfl := Option.some.inj (hu.symm.trans hb)
    cases Option.some.inj (hn.symm.trans hn')
    rw [h] at hr; cases hr
  | arguments hb hn' hr' h =>
    obtain rfl := Option.some.inj (hu.symm.trans hb)
    cases Option.some.inj (hn.symm.trans hn')
    obtain rfl := Option.some.inj (hr.symm.trans hr')
    exact invoke_none h w

/-- What every run keeps of the registered methods: entries that `operator[]` adds are
empty functions, and a run is the run of the handler registered under its name. -/
structure Bindings (mp : Codec τ El) (r : Registry (MethodType El σ)) (s : State El σ o) :
    Prop where
  methods : ∀ m, (s.registeredMethods m).getD none = r.registeredMethods m
  jobs : ∀ t, SoundJob r (s.jobs t)
  ran : ∀ run ∈ s.ran, r.registeredMethods run.request.methodName = some run.method ∧
    ∃ w, (invoke mp run.method run.request.unpacked w).2 = some run.result

theorem Bindings.job {mp : Codec τ El} {r : Registry (MethodType El σ)} {s : State El σ o}
    (h : Bindings mp r s) {t : Thread o} {job : Job El σ} (hj : s.jobs t = job) :
    SoundJob r job := hj ▸ h.jobs t

theorem bindings_loop (mp : Codec τ El) (r : Registry (MethodType El σ)) (w : Objects El σ) :
    Bindings mp r (loop o r w) := by
  refine ⟨fun m => ?_, fun _ => trivial, by simp [loop]⟩
  simp only [loop]
  cases r.registeredMethods m <;> rfl

theorem bindings_call {mp : Codec τ El} {r : Registry (MethodType El σ)} {s u : State El σ o}
    {t : Thread o} (h : Bindings mp r s) (hs : callMethod mp s t = some u) :
    Bindings mp r u := by
  obtain ⟨ticket, request, method, hj, ⟨w, rfl, _⟩ | ⟨b, w, result, rfl, hinv, rfl⟩⟩ :=
    callMethod_cases hs
  · exact ⟨h.methods, h.jobs, h.ran⟩
  · have hb : some b = r.registeredMethods request.methodName := h.job hj
    refine ⟨h.methods, forall_update h.jobs _ trivial, fun run hrun => ?_⟩
    rcases List.mem_append.mp hrun with hold | hnew
    · exact h.ran run hold
    · rw [List.mem_singleton.mp hnew]
      exact ⟨hb.symm, s.objects, by rw [hinv]⟩

theorem bindings_lookup {mp : Codec τ El} {r : Registry (MethodType El σ)} {s u : State El σ o}
    {t : Thread o} (h : Bindings mp r s) (hs : lookupMethod s t = some u) :
    Bindings mp r u := by
  obtain ⟨ticket, request, _, rfl⟩ := lookupMethod_cases hs
  refine ⟨fun m => ?_, forall_update h.jobs _ (h.methods _), h.ran⟩
  by_cases hm : m = request.methodName
  · subst hm
    simp only [Function.update_self, Option.getD_some]
    exact h.methods _
  · simp only [Function.update_of_ne hm]
    exact h.methods m

theorem bindings_step {mp : Codec τ El} {r : Registry (MethodType El σ)} {s t : State El σ o}
    {a : Action o} (h : Bindings mp r s) (hs : step mp s a = some t) : Bindings mp r t := by
  obtain ⟨_, hs⟩ := step_cases hs
  cases a with
  | accept action =>
    obtain ⟨acceptor, _, rfl⟩ := Option.map_eq_some_iff.mp hs
    exact ⟨h.methods, h.jobs, h.ran⟩
  | arrive k objectId body =>
    obtain ⟨stream, _, _, _, rfl⟩ := arrive_cases hs
    exact ⟨h.methods, forall_update h.jobs _ trivial, h.ran⟩
  | invoke i =>
    obtain ⟨ticket, frame, _, ⟨_, rfl⟩ | ⟨request, _, ⟨_, rfl⟩ | ⟨_, rfl⟩⟩⟩ :=
      invokeMethodOn_cases hs
    · exact ⟨h.methods, h.jobs, h.ran⟩
    · exact ⟨h.methods, forall_update h.jobs _ trivial, h.ran⟩
    · exact ⟨h.methods, forall_update h.jobs _ trivial, h.ran⟩
  | pop j =>
    obtain ⟨ticket, request, rest, _, _, rfl⟩ := pop_cases hs
    exact ⟨h.methods, forall_update h.jobs _ trivial, h.ran⟩
  | lookup t => exact bindings_lookup h hs
  | call t => exact bindings_call h hs
  | respond t =>
    obtain ⟨ticket, request, result, _, rfl⟩ := respond_cases hs
    exact ⟨h.methods, forall_update h.jobs _ trivial, h.ran⟩
  | take n =>
    obtain ⟨ticket, response, rest, _, _, rfl⟩ := take_cases hs
    exact ⟨h.methods, h.jobs, h.ran⟩
  | find n =>
    obtain ⟨ticket, response, _, ⟨_, rfl⟩ | ⟨k, _, rfl⟩⟩ := find_cases hs
    · exact ⟨h.methods, h.jobs, h.ran⟩
    · exact ⟨h.methods, h.jobs, h.ran⟩
  | write n =>
    obtain ⟨ticket, response, k, _, rfl⟩ := write_cases hs
    exact ⟨h.methods, h.jobs, h.ran⟩

/-- What holds in every state of every run, whatever arrives. -/
structure Always (mp : Codec τ El) (r : Registry (MethodType El σ)) (s : State El σ o) :
    Prop where
  conserved : Conserved s
  traced : Traced mp s
  bindings : Bindings mp r s

theorem always_loop (mp : Codec τ El) (r : Registry (MethodType El σ)) (w : Objects El σ) :
    Always mp r (loop o r w) :=
  ⟨conserved_loop r w, traced_loop mp r w, bindings_loop mp r w⟩

theorem always_step {mp : Codec τ El} {r : Registry (MethodType El σ)} {s t : State El σ o}
    {a : Action o} (h : Always mp r s) (hs : step mp s a = some t) : Always mp r t :=
  ⟨conserved_step h.conserved hs, traced_step h.traced hs, bindings_step h.bindings hs⟩

theorem always_of_reach {mp : Codec τ El} {r : Registry (MethodType El σ)} {w : Objects El σ}
    {s : State El σ o} (h : Reach (step mp) Any (loop o r w) s) : Always mp r s :=
  h.invariant (always_loop mp r w) fun _ _ _ hi _ hs => always_step hi hs

/-- The frame with a number is in the hands of a thread or in the request queue. -/
def Unhandled (s : State El σ o) (ticket : Nat) : Prop :=
  ticket ∈ (requestTags s.requestQueue + held pending s.jobs).map Prod.fst

theorem unhandled_or_ran {s : State El σ o} (h : Conserved s) {ticket : Nat}
    (ht : ticket < s.arrived.length) :
    Unhandled s ticket ∨ ∃ run ∈ s.ran, run.ticket = ticket := by
  have hmem : ticket ∈ (frameTags s.arrived).map Prod.fst := by
    rw [tickets_frameTags]
    exact Multiset.mem_range.mpr ht
  rw [h.arrived, Multiset.map_add] at hmem
  rcases Multiset.mem_add.mp hmem with hu | hr
  · exact .inl hu
  · simp only [runTags, contents, Multiset.map_coe, List.map_map, Multiset.mem_coe,
      List.mem_map] at hr
    obtain ⟨run, hrun, rfl⟩ := hr
    exact .inr ⟨run, hrun, rfl⟩

/-- A frame with a bad body is not handled, however long the run. -/
theorem unhandled_of_bad {mp : Codec τ El} {r : Registry (MethodType El σ)} {s : State El σ o}
    (h : Always mp r s) {ticket : Nat} {f : Frame} (hf : s.arrived[ticket]? = some f)
    (hb : Bad mp r f.body) : Unhandled s ticket := by
  obtain ⟨hlt, _⟩ := List.getElem?_eq_some_iff.mp hf
  rcases unhandled_or_ran h.conserved hlt with hu | ⟨run, hrun, rfl⟩
  · exact hu
  · obtain ⟨g, hg, hdec⟩ := h.traced.ran run hrun
    obtain rfl := Option.some.inj (hf.symm.trans hg)
    obtain ⟨hreg, w, hres⟩ := h.bindings.ran run hrun
    rw [bad_request hb hdec hreg w] at hres
    cases hres

/-- The call of a bad request ends the process with an exception of its handling. -/
theorem call_of_bad {mp : Codec τ El} {r : Registry (MethodType El σ)} {s : State El σ o}
    (h : Always mp r s) (halive : s.terminated = none) {ticket : Nat} {f : Frame}
    (hf : s.arrived[ticket]? = some f) (hb : Bad mp r f.body) {t : Thread o}
    {request : DousiRequest} {method : Option (Bound (MethodType El σ))}
    (hj : s.jobs t = .bound ticket request method) :
    ∃ u, step mp s (.call t) = some u ∧ u.terminated = some (.exception ticket) := by
  have hframe : FromFrame mp s.arrived ticket request := h.traced.job hj
  obtain ⟨g, hg, hdec⟩ := hframe
  obtain rfl := Option.some.inj (hf.symm.trans hg)
  have hmethod : method = r.registeredMethods request.methodName := h.bindings.job hj
  simp only [Server.step, halive, act, callMethod, hj]
  cases method with
  | none => exact ⟨_, rfl, rfl⟩
  | some b =>
    simp only [bad_request hb hdec hmethod.symm s.objects]
    exact ⟨_, rfl, rfl⟩

/-- A body that cannot be decoded ends the process on the io thread. -/
theorem invoke_of_bad {mp : Codec τ El} {s : State El σ o} (halive : s.terminated = none)
    {ticket : Nat} {f : Frame} {i : Fin o.ioThreadNum} (hj : s.jobs (.inl i) = .invoking ticket f)
    (hd : invokeMethod mp f.streamId f.objectId f.body = none) :
    ∃ u, step mp s (.invoke i) = some u ∧ u.terminated = some (.exception ticket) := by
  simp only [Server.step, halive, act, invokeMethodOn, hj, hd]
  exact ⟨_, rfl, rfl⟩

/-- What containment of a frame that has just arrived asks for, at the least: its
handling lets no exception escape, and it can be handled with the process alive. -/
structure Contained (mp : Codec τ El) (t : State El σ o) (ticket : Nat) : Prop where
  noEscape : ∀ u, Reach (step mp) Any t u → u.terminated ≠ some (.exception ticket)
  handled : ∃ u, Reach (step mp) Any t u ∧ u.terminated = none ∧ ¬ Unhandled u ticket

theorem not_contained_of_run {mp : Codec τ El} {t u : State El σ o} {acts : List (Action o)}
    {ticket : Nat} (h : run (step mp) t acts = some u)
    (hu : u.terminated = some (.exception ticket)) : ¬ Contained mp t ticket :=
  fun hc => hc.noEscape u (Reach.of_run h) hu

/-- The handling of a frame comes to a failing point: its body cannot be decoded, or
its method is about to be called. -/
inductive Failing (mp : Codec τ El) (s : State El σ o) (ticket : Nat) : Action o → Prop
  | invoke {i : Fin o.ioThreadNum} {f : Frame} (hj : s.jobs (.inl i) = .invoking ticket f)
      (hd : invokeMethod mp f.streamId f.objectId f.body = none) :
      Failing mp s ticket (.invoke i)
  | call {t : Thread o} {request : DousiRequest} {method : Option (Bound (MethodType El σ))}
      (hj : s.jobs t = .bound ticket request method) : Failing mp s ticket (.call t)

theorem arrived_get {mp : Codec τ El} {s t : State El σ o} (h : Reach (step mp) Any s t)
    {ticket : Nat} {f : Frame} (hf : s.arrived[ticket]? = some f) :
    t.arrived[ticket]? = some f :=
  h.invariant (I := fun u => u.arrived[ticket]? = some f) hf fun _ _ _ hu _ hs => by
    obtain ⟨rest, hrest⟩ := (prefix_step hs).1
    rw [← hrest]
    exact get_append hu rest

/-- In no reachable state is a bad body contained: whenever its handling comes to a
failing point the process ends with its exception, and otherwise it is never over. -/
theorem bad_not_contained {mp : Codec τ El} {r : Registry (MethodType El σ)} {w : Objects El σ}
    {s t : State El σ o} {k : Nat} {objectId : UInt32} {body : Bytes}
    (h : Reach (step mp) Any (loop o r w) s) (hb : Bad mp r body)
    (hs : step mp s (.arrive k objectId body) = some t) :
    ¬ Contained mp t s.arrived.length ∧
      ∀ u a, Reach (step mp) Any t u → u.terminated = none →
        Failing mp u s.arrived.length a →
        ∃ v, step mp u a = some v ∧ v.terminated = some (.exception s.arrived.length) := by
  have hreach : Reach (step mp) Any (loop o r w) t := h.tail trivial hs
  obtain ⟨_, hs⟩ := step_cases hs
  obtain ⟨stream, _, _, _, rfl⟩ := arrive_cases hs
  have hlast := get_last s.arrived ⟨k, stream.ioThread, stream.streamId, objectId, body⟩
  refine ⟨fun hc => ?_, fun u a hu halive ha => ?_⟩
  · obtain ⟨u, hu, _, hover⟩ := hc.handled
    exact hover (unhandled_of_bad (always_of_reach (hreach.trans hu)) (arrived_get hu hlast) hb)
  · cases ha with
    | invoke hj hd => exact invoke_of_bad halive hj hd
    | call hj =>
      exact call_of_bad (always_of_reach (hreach.trans hu)) halive (arrived_get hu hlast) hb hj

open SignatureValidation (calculator)

/-- One connection whose read loop is started. -/
def connected : List (Action single) := [.accept .accept, .accept .insert, .accept .start]

set_option maxRecDepth 2000 in
/-- The byte `0xc1`, which msgpack never uses, ends the process on the io thread. A name
that is not registered gets an entry in the map and then ends the process on a worker. -/
theorem badBody_terminates : ∃ r, run Services.step empty calculator = some r ∧
    ∃ s, run (step fixCodec) (loop single r ⟨fun _ => (), []⟩) connected = some s ∧
      (Bad fixCodec r [0xc1] ∧ ∃ t, step fixCodec s (.arrive 0 0 [0xc1]) = some t ∧
        ¬ Contained fixCodec t 0) ∧
      (Bad fixCodec r [0x92, 0xa1, 67, 0xa1, 120] ∧ s.registeredMethods [120] = none ∧
        ∃ t, step fixCodec s (.arrive 0 0 [0x92, 0xa1, 67, 0xa1, 120]) = some t ∧
          ¬ Contained fixCodec t 0 ∧
          ∃ u, run (step fixCodec) t [.invoke 0, .pop 0, .lookup (.inr 0)] = some u ∧
            u.registeredMethods [120] = some none) := by
  obtain ⟨r, hr⟩ : ∃ r, run Services.step empty calculator = some r := ⟨_, rfl⟩
  have hx : r.registeredMethods [120] = none := by cases hr; rfl
  have hbody : fixCodec.unpack [0x92, 0xa1, 67, 0xa1, 120] =
      some (.array [.str [67], .str [120]]) := rfl
  have hnames := serviceAndMethodName_array fixCodec_documented [67] [120] []
  obtain ⟨s, hs, t, ht, u, hu, hterm⟩ : ∃ s,
      run (step fixCodec) (loop single r ⟨fun _ => (), []⟩) connected = some s ∧
      ∃ t, step fixCodec s (.arrive 0 0 [0xc1]) = some t ∧
        ∃ u, run (step fixCodec) t [.invoke 0] = some u ∧
          u.terminated = some (.exception 0) := by
    cases hr
    exact ⟨_, rfl, _, rfl, _, rfl, rfl⟩
  obtain ⟨hnone, t', ht', u', hu', hentry, v, hv, hterm'⟩ : s.registeredMethods [120] = none ∧
      ∃ t, step fixCodec s (.arrive 0 0 [0x92, 0xa1, 67, 0xa1, 120]) = some t ∧
        ∃ u, run (step fixCodec) t [.invoke 0, .pop 0, .lookup (.inr 0)] = some u ∧
          u.registeredMethods [120] = some none ∧
          ∃ v, run (step fixCodec) t [.invoke 0, .pop 0, .lookup (.inr 0), .call (.inr 0)] =
              some v ∧
            v.terminated = some (.exception 0) := by
    cases hr
    cases hs
    exact ⟨rfl, _, rfl, _, rfl, rfl, _, rfl, rfl⟩
  exact ⟨r, hr, s, hs, ⟨.unpack rfl, t, ht, not_contained_of_run hu hterm⟩,
    .method hbody hnames hx, hnone, t', ht', not_contained_of_run hv hterm', u', hu', hentry⟩

theorem bad_not_contained_byte : ∃ r, run Services.step empty calculator = some r ∧
    ∃ s t, run (step fixCodec) (loop single r ⟨fun _ => (), []⟩) connected = some s ∧
      step fixCodec s (.arrive 0 0 [0xc1]) = some t ∧
      ¬ Contained fixCodec t s.arrived.length := by
  obtain ⟨r, hr⟩ : ∃ r, run Services.step empty calculator = some r := ⟨_, rfl⟩
  obtain ⟨s, hs, t, ht⟩ : ∃ s,
      run (step fixCodec) (loop single r ⟨fun _ => (), []⟩) connected = some s ∧
      ∃ t, step fixCodec s (.arrive 0 0 [0xc1]) = some t := by
    cases hr
    exact ⟨_, rfl, _, rfl⟩
  exact ⟨r, hr, s, t, hs, ht,
    (bad_not_contained (r := r) (Reach.of_run hs) (.unpack rfl) ht).1⟩

end Dousi.Executor.BadRequests
