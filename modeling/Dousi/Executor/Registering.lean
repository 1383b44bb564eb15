import Dousi.Executor.Delivery

/-!
# RegisterMethod while Loop is running

`mutex_` is there for threads that register methods while requests are performed. Both
sides take it for one access to `registered_methods_`; the log has these accesses in the
order in which the mutex was held. A handler is looked up once for each request and called
after the mutex was given back.
-/
namespace Dousi.Executor.Registering

open Dousi.Lib.Word
open Dousi.Lib.Log
open Dousi.Lib.Transition
open Dousi.Lib.Pool
open Dousi.Core.Msgpack
open Request Services InvokeHelper Server Conservation Traces

variable {τ : Type} {El : τ → Type} {σ : Type} {o : ExecutorOptions}

section
variable (El σ)

/-- What was done to `registered_methods_`. -/
inductive Access where
  | registered (methodName : Bytes) (bound : Bound (MethodType El σ))
  | lookedUp (ticket : Nat)

structure State (o : ExecutorOptions) where
  server : Server.State El σ o
  accesses : List (Access El σ)

inductive Action (o : ExecutorOptions) where
  | server (action : Server.Action o)
  | registerMethod (service : Nat) (remoteMethod : RemoteMethod (MethodType El σ))

end

def loop (o : ExecutorOptions) (r : Registry (MethodType El σ)) (w : Objects El σ) :
    State El σ o := ⟨Server.loop o r w, []⟩

/-- The access in a step of the executor: `PerformRequest` looks a request up. -/
def lookedUp (s : Server.State El σ o) : Server.Action o → List (Access El σ)
  | .lookup t =>
    match s.jobs t with
    | .request ticket _ => [.lookedUp ticket]
    | _ => []
  | _ => []

/-- `registered_methods_[remote_method.GetName()] = std::bind(...)`. -/
def registerMethod (s : Server.State El σ o) (service : Nat)
    (remoteMethod : RemoteMethod (MethodType El σ)) : Server.State El σ o :=
  { s with
    registeredMethods := Function.update s.registeredMethods remoteMethod.methodName
      (some (some ⟨service, remoteMethod.method⟩)) }

def step (mp : Codec τ El) (s : State El σ o) : Action El σ o → Option (State El σ o)
  | .server a => (Server.step mp s.server a).map fun server =>
    ⟨server, s.accesses ++ lookedUp s.server a⟩
  | .registerMethod service remoteMethod =>
    match s.server.terminated with
    | some _ => none
    | none => some ⟨registerMethod s.server service remoteMethod, s.accesses ++
      [.registered remoteMethod.methodName ⟨service, remoteMethod.method⟩]⟩

def Access.binds (name : Bytes) : Access El σ → Option (Bound (MethodType El σ))
  | .registered methodName bound => if methodName = name then some bound else none
  | .lookedUp _ => none

/-- The handler registered last under a name, before `Loop` or while it runs. -/
def inForce (r : Registry (MethodType El σ)) (accesses : List (Access El σ)) (name : Bytes) :
    Option (Bound (MethodType El σ)) :=
  (last (Access.binds name) accesses).or (r.registeredMethods name)

def Access.ticket : Access El σ → Option Nat
  | .registered .. => none
  | .lookedUp ticket => some ticket

/-- The requests looked up, by their numbers. -/
def lookups (accesses : List (Access El σ)) : List Nat := accesses.filterMap Access.ticket

/-- A request was looked up when this was the handler in force for it. -/
def LookedUp (r : Registry (MethodType El σ)) (accesses : List (Access El σ)) (ticket : Nat)
    (name : Bytes) (method : Option (Bound (MethodType El σ))) : Prop :=
  ∃ i : Nat, accesses[i]? = some (.lookedUp ticket) ∧ inForce r (accesses.take i) name = method

theorem LookedUp.append {r : Registry (MethodType El σ)} {accesses : List (Access El σ)}
    {ticket : Nat} {name : Bytes} {method : Option (Bound (MethodType El σ))}
    (h : LookedUp r accesses ticket name method) (more : List (Access El σ)) :
    LookedUp r (accesses ++ more) ticket name method := by
  obtain ⟨i, hi, hmethod⟩ := h
  exact ⟨i, get_append hi more, by rw [take_append_of_get hi, hmethod]⟩

theorem inForce_registered (r : Registry (MethodType El σ)) (accesses : List (Access El σ))
    (name : Bytes) (bound : Bound (MethodType El σ)) :
    inForce r (accesses ++ [.registered name bound]) =
      Function.update (inForce r accesses) name (some bound) := by
  funext m
  by_cases hm : m = name
  · subst hm
    rw [Function.update_self, inForce, last_snoc, Access.binds, if_pos rfl]
    rfl
  · rw [Function.update_of_ne hm, inForce, last_snoc, Access.binds, if_neg (Ne.symm hm)]
    rfl

theorem inForce_lookedUp (r : Registry (MethodType El σ)) (accesses : List (Access El σ))
    (ticket : Nat) : inForce r (accesses ++ [.lookedUp ticket]) = inForce r accesses := by
  funext m
  rw [inForce, last_snoc]
  rfl

/-! What a step does besides looking up and calling -/

/-- The number of a request that was looked up and whose handler has not returned. -/
def looked : Job El σ → Multiset Nat
  | .bound ticket _ _ => {ticket}
  | _ => 0

/-- A step that neither looks a method up nor calls one: a thread may go on with a job for
which nothing is looked up, and `InvokeMethod` may throw. -/
structure Aside (mp : Codec τ El) (s t : Server.State El σ o) : Prop where
  methods : t.registeredMethods = s.registeredMethods
  ran : t.ran = s.ran
  jobs : ∀ u, t.jobs u = s.jobs u ∨ looked (s.jobs u) = 0 ∧ looked (t.jobs u) = 0
  thrown : ∀ ticket, t.terminated = some (.exception ticket) → ∃ u frame,
    s.jobs u = .invoking ticket frame ∧
      invokeMethod mp frame.streamId frame.objectId frame.body = none ∧ t.arrived = s.arrived

theorem aside_update {slots : Thread o → Job El σ} {u : Thread o} {job : Job El σ}
    (hold : looked (slots u) = 0) (hnew : looked job = 0) (v : Thread o) :
    Function.update slots u job v = slots v ∨
      looked (slots v) = 0 ∧ looked (Function.update slots u job v) = 0 := by
  by_cases hv : v = u
  · subst hv
    exact .inr ⟨hold, by rw [Function.update_self]; exact hnew⟩
  · exact .inl (Function.update_of_ne hv ..)

theorem not_thrown {s : Server.State El σ o} (halive : s.terminated = none) {P : Nat → Prop}
    (ticket : Nat) (h : s.terminated = some (.exception ticket)) : P ticket := by
  rw [halive] at h
  cases h

theorem aside_step {mp : Codec τ El} {s t : Server.State El σ o} {a : Server.Action o}
    (hs : Server.step mp s a = some t) :
    (∃ u, a = .lookup u) ∨ (∃ u, a = .call u) ∨ lookedUp s a = [] ∧ Aside mp s t := by
  obtain ⟨halive, hs⟩ := step_cases hs
  cases a with
  | accept action =>
    obtain ⟨acceptor, _, rfl⟩ := Option.map_eq_some_iff.mp hs
    exact .inr (.inr ⟨rfl, rfl, rfl, fun _ => .inl rfl, not_thrown halive⟩)
  | arrive k objectId body =>
    obtain ⟨stream, _, _, hj, rfl⟩ := arrive_cases hs
    exact .inr (.inr ⟨rfl, rfl, rfl, aside_update (by rw [hj]; rfl) rfl, not_thrown halive⟩)
  | invoke i =>
    obtain ⟨ticket, frame, hj, ⟨hn, rfl⟩ | ⟨request, _, ⟨_, rfl⟩ | ⟨_, rfl⟩⟩⟩ :=
      invokeMethodOn_cases hs
    · refine .inr (.inr ⟨rfl, rfl, rfl, fun _ => .inl rfl, fun ticket' ht => ?_⟩)
      cases ht
      exact ⟨.inl i, frame, hj, hn, rfl⟩
    · exact .inr (.inr ⟨rfl, rfl, rfl, aside_update (by rw [hj]; rfl) rfl, not_thrown halive⟩)
    · exact .inr (.inr ⟨rfl, rfl, rfl, aside_update (by rw [hj]; rfl) rfl, not_thrown halive⟩)
  | pop j =>
    obtain ⟨ticket, request, rest, hj, _, rfl⟩ := pop_cases hs
    exact .inr (.inr ⟨rfl, rfl, rfl, aside_update (by rw [hj]; rfl) rfl, not_thrown halive⟩)
  | lookup u => exact .inl ⟨u, rfl⟩
  | call u => exact .inr (.inl ⟨u, rfl⟩)
  | respond u =>
    obtain ⟨ticket, request, result, hj, rfl⟩ := respond_cases hs
    exact .inr (.inr ⟨rfl, rfl, rfl, aside_update (by rw [hj]; rfl) rfl, not_thrown halive⟩)
  | take n =>
    obtain ⟨ticket, response, rest, _, _, rfl⟩ := take_cases hs
    exact .inr (.inr ⟨rfl, rfl, rfl, fun _ => .inl rfl, not_thrown halive⟩)
  | find n =>
    obtain ⟨ticket, response, _, ⟨_, rfl⟩ | ⟨k, _, rfl⟩⟩ := find_cases hs
    · exact .inr (.inr ⟨rfl, rfl, rfl, fun _ => .inl rfl, nofun⟩)
    · exact .inr (.inr ⟨rfl, rfl, rfl, fun _ => .inl rfl, not_thrown halive⟩)
  | write n =>
    obtain ⟨ticket, response, k, _, rfl⟩ := write_cases hs
    exact .inr (.inr ⟨rfl, rfl, rfl, fun _ => .inl rfl, not_thrown halive⟩)

/-! Every handler in hand is the one in force at its lookup -/

/-- What a thread has looked up. -/
def Handed (r : Registry (MethodType El σ)) (accesses : List (Access El σ)) :
    Job El σ → Prop
  | .bound ticket request method => LookedUp r accesses ticket request.methodName method
  | _ => True

structure Bindings (r : Registry (MethodType El σ)) (s : State El σ o) : Prop where
  methods : ∀ m, (s.server.registeredMethods m).getD none = inForce r s.accesses m
  jobs : ∀ t, Handed r s.accesses (s.server.jobs t)
  ran : ∀ run ∈ s.server.ran,
    LookedUp r s.accesses run.ticket run.request.methodName (some run.method)

theorem handed_append {r : Registry (MethodType El σ)} {accesses : List (Access El σ)}
    {job : Job El σ} (h : Handed r accesses job) (more : List (Access El σ)) :
    Handed r (accesses ++ more) job := by
  cases job with
  | bound ticket request method => exact LookedUp.append h more
  | _ => trivial

theorem bindings_loop (r : Registry (MethodType El σ)) (w : Objects El σ) :
    Bindings r (loop o r w) := by
  refine ⟨fun m => ?_, fun _ => trivial, by simp [loop, Server.loop]⟩
  simp only [loop, Server.loop]
  cases hm : r.registeredMethods m <;> simp [inForce, last, hm]

theorem handed_of_not_looked {r : Registry (MethodType El σ)} {accesses : List (Access El σ)}
    {job : Job El σ} (h : looked job = 0) : Handed r accesses job := by
  cases job with
  | bound ticket request method => exact absurd h (Multiset.singleton_ne_zero ticket)
  | _ => trivial

theorem bindings_aside {mp : Codec τ El} {r : Registry (MethodType El σ)} {s : State El σ o}
    {server : Server.State El σ o} (h : Bindings r s) (ha : Aside mp s.server server) :
    Bindings r ⟨server, s.accesses ++ []⟩ := by
  rw [List.append_nil]
  refine ⟨fun m => by rw [ha.methods]; exact h.methods m, fun u => ?_, fun run hrun => ?_⟩
  · rcases ha.jobs u with hsame | ⟨-, hnew⟩
    · rw [hsame]
      exact h.jobs u
    · exact handed_of_not_looked hnew
  · rw [ha.ran] at hrun
    exact h.ran run hrun

theorem bindings_lookup {r : Registry (MethodType El σ)} {s : State El σ o}
    {u : Server.State El σ o} {t : Thread o} (h : Bindings r s)
    (hs : lookupMethod s.server t = some u) :
    Bindings r ⟨u, s.accesses ++ lookedUp s.server (.lookup t)⟩ := by
  obtain ⟨ticket, request, hj, rfl⟩ := lookupMethod_cases hs
  have hlooked : lookedUp s.server (.lookup t) = [.lookedUp ticket] := by
    simp only [lookedUp, hj]
  rw [hlooked]
  have hhanded : Handed r (s.accesses ++ [.lookedUp ticket]) (.bound ticket request
      ((s.server.registeredMethods request.methodName).getD none)) :=
    ⟨s.accesses.length, get_last .., by rw [List.take_left' rfl, h.methods]⟩
  refine ⟨fun m => ?_, fun t' => ?_, fun run hrun => (h.ran run hrun).append _⟩
  · rw [inForce_lookedUp, ← h.methods m]
    by_cases hm : m = request.methodName
    · subst hm
      simp only [Function.update_self, Option.getD_some]
    · simp only [Function.update_of_ne hm]
  · exact forall_update (fun t' => handed_append (h.jobs t') _) t hhanded t'

theorem bindings_call {mp : Codec τ El} {r : Registry (MethodType El σ)} {s : State El σ o}
    {u : Server.State El σ o} {t : Thread o} (h : Bindings r s)
    (hs : callMethod mp s.server t = some u) :
    Bindings r ⟨u, s.accesses ++ lookedUp s.server (.call t)⟩ := by
  obtain ⟨ticket, request, method, hj, ⟨w, rfl, _⟩ | ⟨b, w, result, rfl, _, rfl⟩⟩ :=
    callMethod_cases hs
  · change Bindings r ⟨_, s.accesses ++ []⟩
    rw [List.append_nil]
    exact ⟨h.methods, h.jobs, h.ran⟩
  · have hb : LookedUp r s.accesses ticket request.methodName (some b) := by
      have hjob := h.jobs t
      rwa [hj] at hjob
    change Bindings r ⟨_, s.accesses ++ []⟩
    rw [List.append_nil]
    refine ⟨h.methods, forall_update h.jobs _ trivial, fun run hrun => ?_⟩
    rcases List.mem_append.mp hrun with hold | hnew
    · exact h.ran run hold
    · rw [List.mem_singleton.mp hnew]
      exact hb

theorem bindings_server {mp : Codec τ El} {r : Registry (MethodType El σ)} {s : State El σ o}
    {t : Server.State El σ o} {a : Server.Action o} (h : Bindings r s)
    (hs : Server.step mp s.server a = some t) :
    Bindings r ⟨t, s.accesses ++ lookedUp s.server a⟩ := by
  rcases aside_step hs with ⟨u, rfl⟩ | ⟨u, rfl⟩ | ⟨hnone, haside⟩
  · exact bindings_lookup h (step_cases hs).2
  · exact bindings_call h (step_cases hs).2
  · rw [hnone]
    exact bindings_aside h haside

theorem bindings_register {r : Registry (MethodType El σ)} {s : State El σ o}
    (h : Bindings r s) (service : Nat) (remoteMethod : RemoteMethod (MethodType El σ)) :
    Bindings r ⟨registerMethod s.server service remoteMethod, s.accesses ++
      [.registered remoteMethod.methodName ⟨service, remoteMethod.method⟩]⟩ := by
  refine ⟨fun m => ?_, fun t => handed_append (h.jobs t) _,
    fun run hrun => (h.ran run hrun).append _⟩
  rw [inForce_registered]
  by_cases hm : m = remoteMethod.methodName
  · subst hm
    simp only [registerMethod, Function.update_self, Option.getD_some]
  · simp only [registerMethod, Function.update_of_ne hm]
    exact h.methods m

/-! No request is looked up twice -/

/-- The requests looked up are those in hand with a handler and those whose handler ran. -/
def Counted (s : State El σ o) : Prop :=
  (lookups s.accesses : Multiset Nat) =
    held looked s.server.jobs + contents Run.ticket s.server.ran

theorem counted_loop (r : Registry (MethodType El σ)) (w : Objects El σ) :
    Counted (loop o r w) := by
  have hl : held looked (fun _ : Thread o => (.idle : Job El σ)) = 0 := held_idle rfl
  simp [Counted, loop, Server.loop, lookups, hl]

theorem counted_aside {mp : Codec τ El} {s : State El σ o} {server : Server.State El σ o}
    (h : Counted s) (ha : Aside mp s.server server) : Counted ⟨server, s.accesses ++ []⟩ := by
  have hjobs : held looked server.jobs = held looked s.server.jobs :=
    Finset.sum_congr rfl fun u _ => by
      rcases ha.jobs u with hsame | ⟨hold, hnew⟩
      · rw [hsame]
      · rw [hold, hnew]
  rw [List.append_nil, Counted, hjobs, ha.ran]
  exact h

theorem counted_lookup {s : State El σ o} {u : Server.State El σ o} {t : Thread o}
    (h : Counted s) (hs : lookupMethod s.server t = some u) :
    Counted ⟨u, s.accesses ++ lookedUp s.server (.lookup t)⟩ := by
  obtain ⟨ticket, request, hj, rfl⟩ := lookupMethod_cases hs
  have htake := held_take looked s.server.jobs t (.bound ticket request
    ((s.server.registeredMethods request.methodName).getD none)) (by rw [hj]; rfl)
  have hlooked : lookups (s.accesses ++ lookedUp s.server (.lookup t)) =
      lookups s.accesses ++ [ticket] := by
    simp [lookups, lookedUp, hj, Access.ticket]
  rw [Counted, hlooked, ← Multiset.coe_add, htake]
  change (lookups s.accesses : Multiset Nat) + {ticket} = _ + {ticket} + _
  rw [show (lookups s.accesses : Multiset Nat) = _ from h]
  abel

theorem counted_call {mp : Codec τ El} {s : State El σ o} {u : Server.State El σ o}
    {t : Thread o} (h : Counted s) (hs : callMethod mp s.server t = some u) :
    Counted ⟨u, s.accesses ++ lookedUp s.server (.call t)⟩ := by
  obtain ⟨ticket, request, method, hj, ⟨w, rfl, _⟩ | ⟨b, w, result, _, _, rfl⟩⟩ :=
    callMethod_cases hs
  · change Counted ⟨_, s.accesses ++ []⟩
    rw [List.append_nil]
    exact h
  · have hrelease := held_release looked s.server.jobs t (.returned ticket request result) rfl
    rw [hj] at hrelease
    change Counted ⟨_, s.accesses ++ []⟩
    rw [List.append_nil, Counted, contents_append, show (lookups s.accesses : Multiset Nat) = _
      from h, ← hrelease]
    simp only [looked, contents_cons, contents_nil]
    abel

theorem counted_server {mp : Codec τ El} {s : State El σ o} {t : Server.State El σ o}
    {a : Server.Action o} (h : Counted s) (hs : Server.step mp s.server a = some t) :
    Counted ⟨t, s.accesses ++ lookedUp s.server a⟩ := by
  rcases aside_step hs with ⟨u, rfl⟩ | ⟨u, rfl⟩ | ⟨hnone, haside⟩
  · exact counted_lookup h (step_cases hs).2
  · exact counted_call h (step_cases hs).2
  · rw [hnone]
    exact counted_aside h haside

theorem counted_register {s : State El σ o} (h : Counted s) (service : Nat)
    (remoteMethod : RemoteMethod (MethodType El σ)) :
    Counted ⟨registerMethod s.server service remoteMethod, s.accesses ++
      [.registered remoteMethod.methodName ⟨service, remoteMethod.method⟩]⟩ := by
  have hlookups : lookups (s.accesses ++ [.registered remoteMethod.methodName
      ⟨service, remoteMethod.method⟩]) = lookups s.accesses := by
    simp [lookups, Access.ticket]
  rw [Counted, hlookups]
  exact h

/-- The body of the request does not decode, or the handler in force at its lookup was an
empty function or threw. -/
def Cause (mp : Codec τ El) (r : Registry (MethodType El σ)) (s : State El σ o)
    (ticket : Nat) : Prop :=
  ∃ f, s.server.arrived[ticket]? = some f ∧
    (invokeMethod mp f.streamId f.objectId f.body = none ∨
      ∃ request method, invokeMethod mp f.streamId f.objectId f.body = some request ∧
        LookedUp r s.accesses ticket request.methodName method ∧
        ∀ b, method = some b → ∃ w, (invoke mp b request.unpacked w).2 = none)

def Ended (mp : Codec τ El) (r : Registry (MethodType El σ)) (s : State El σ o) : Prop :=
  ∀ ticket, s.server.terminated = some (.exception ticket) → Cause mp r s ticket

theorem ended_alive {mp : Codec τ El} {r : Registry (MethodType El σ)} {s : State El σ o}
    (h : s.server.terminated = none) : Ended mp r s := by
  intro ticket ht
  rw [h] at ht
  cases ht

theorem cause_call {mp : Codec τ El} {r : Registry (MethodType El σ)} {s : State El σ o}
    {t : Thread o} {ticket : Nat} {request : DousiRequest}
    {method : Option (Bound (MethodType El σ))} (ht : Traced mp s.server) (hb : Bindings r s)
    (hj : s.server.jobs t = .bound ticket request method)
    (hthrow : ∀ b, method = some b → ∃ w, (invoke mp b request.unpacked w).2 = none) :
    Cause mp r s ticket := by
  have hframe : FromFrame mp s.server.arrived ticket request := ht.job hj
  have hhanded := hb.jobs t
  rw [hj] at hhanded
  obtain ⟨f, hf, hdec⟩ := hframe
  exact ⟨f, hf, .inr ⟨request, method, hdec, hhanded, hthrow⟩⟩

theorem ended_server {mp : Codec τ El} {r : Registry (MethodType El σ)} {s : State El σ o}
    {t : Server.State El σ o} {a : Server.Action o} (htr : Traced mp s.server)
    (hb : Bindings r s) (hs : Server.step mp s.server a = some t) :
    Ended mp r ⟨t, s.accesses ++ lookedUp s.server a⟩ := by
  obtain ⟨halive, hact⟩ := step_cases hs
  rcases aside_step hs with ⟨u, rfl⟩ | ⟨u, rfl⟩ | ⟨hnone, haside⟩
  · obtain ⟨ticket, request, _, rfl⟩ := lookupMethod_cases hact
    exact ended_alive halive
  · obtain ⟨ticket, request, method, hj, ⟨w, rfl, hthrow⟩ | ⟨b, w, result, _, _, rfl⟩⟩ :=
      callMethod_cases hact
    · intro ticket' ht
      cases ht
      have hcause : Cause mp r s ticket := cause_call htr hb hj fun b hm =>
        ⟨s.server.objects, by rw [hthrow b hm]⟩
      simpa only [Cause, throwException, lookedUp, List.append_nil] using hcause
    · exact ended_alive halive
  · intro ticket ht
    obtain ⟨u, frame, hj, hn, harrived⟩ := haside.thrown ticket ht
    have hframe : s.server.arrived[ticket]? = some frame := htr.job hj
    exact ⟨frame, by rw [harrived]; exact hframe, .inl hn⟩

/-- What holds in every state of every run. -/
structure Invariant (mp : Codec τ El) (r : Registry (MethodType El σ)) (s : State El σ o) :
    Prop where
  conserved : Conserved s.server
  traced : Traced mp s.server
  bindings : Bindings r s
  counted : Counted s
  ended : Ended mp r s

theorem invariant_loop (mp : Codec τ El) (r : Registry (MethodType El σ)) (w : Objects El σ) :
    Invariant mp r (loop o r w) :=
  ⟨conserved_loop r w, traced_loop mp r w, bindings_loop r w, counted_loop r w,
    ended_alive rfl⟩

theorem registerMethod_cases {mp : Codec τ El} {s t : State El σ o} {service : Nat}
    {remoteMethod : RemoteMethod (MethodType El σ)}
    (hs : step mp s (.registerMethod service remoteMethod) = some t) :
    s.server.terminated = none ∧ t = ⟨registerMethod s.server service remoteMethod,
      s.accesses ++ [.registered remoteMethod.methodName ⟨service, remoteMethod.method⟩]⟩ := by
  unfold step at hs
  dsimp only at hs
  split at hs
  · cases hs
  · rename_i halive
    exact ⟨halive, (Option.some.inj hs).symm⟩

theorem invariant_step {mp : Codec τ El} {r : Registry (MethodType El σ)} {s t : State El σ o}
    {a : Action El σ o} (h : Invariant mp r s) (hs : step mp s a = some t) :
    Invariant mp r t := by
  cases a with
  | server a =>
    obtain ⟨server, hserver, rfl⟩ := Option.map_eq_some_iff.mp hs
    exact ⟨conserved_step h.conserved hserver, traced_step h.traced hserver,
      bindings_server h.bindings hserver, counted_server h.counted hserver,
      ended_server h.traced h.bindings hserver⟩
  | registerMethod service remoteMethod =>
    obtain ⟨halive, rfl⟩ := registerMethod_cases hs
    have ht := h.traced
    exact ⟨⟨h.conserved.arrived, h.conserved.ran⟩,
      ⟨ht.jobs, ht.requests, ht.ran, ht.responses, ht.writers, ht.written⟩,
      bindings_register h.bindings service remoteMethod,
      counted_register h.counted service remoteMethod, ended_alive halive⟩

open SignatureValidation (add calculator)
open Delivery (single)

end Dousi.Executor.Registering
