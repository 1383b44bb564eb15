import Dousi.Executor.Request
import Dousi.Lib.Transition
import Mathlib.Logic.Function.Basic

/-!
# Services, registered methods and the lookup of PerformRequest

`CreateService` makes a service object and a `DousiService` wrapper for it;
`RegisterMethod` binds a method to a wrapper under the method's name alone. The
list of service names and the list of registrations are histories: no lookup
reads them.
-/
namespace Dousi.Executor.Services

open Dousi.Lib.Word
open Dousi.Lib.Transition
open Dousi.Core.Msgpack
open Request

variable {M : Type}

/-- `RemoteMethod<MethodType>`. -/
structure RemoteMethod (M : Type) where
  methodName : Bytes
  method : M

/-- `std::bind(&InvokeHelper::Invoke, method, service_instance, _1, _2)`. Wrapper `i`
is the one returned by the `i`-th `CreateService` and refers to service object `i`. -/
structure Bound (M : Type) where
  service : Nat
  method : M

structure Registration (M : Type) where
  serviceName : Bytes
  methodName : Bytes
  bound : Bound M

structure Registry (M : Type) where
  createdServices : Bytes → Option Nat
  registeredMethods : Bytes → Option (Bound M)
  serviceNames : List Bytes
  registrations : List (Registration M)

inductive Op (M : Type) where
  | createService (serviceName : Bytes)
  | registerMethod (service : Nat) (remoteMethod : RemoteMethod M)

def empty : Registry M := ⟨fun _ => none, fun _ => none, [], []⟩

/-- `Executor::CreateService` and `Executor::RegisterMethod`. Registration needs a
wrapper that exists. -/
def step (r : Registry M) : Op M → Option (Registry M)
  | .createService serviceName =>
    some { r with
      createdServices := Function.update r.createdServices serviceName (some r.serviceNames.length)
      serviceNames := r.serviceNames ++ [serviceName] }
  | .registerMethod service remoteMethod =>
    (r.serviceNames[service]?).map fun serviceName =>
      { r with
        registeredMethods := Function.update r.registeredMethods remoteMethod.methodName
          (some ⟨service, remoteMethod.method⟩)
        registrations := r.registrations ++
          [⟨serviceName, remoteMethod.methodName, ⟨service, remoteMethod.method⟩⟩] }

/-- The registries built by any sequence of operations. -/
def Built (r : Registry M) : Prop := Reach step Any empty r

/-- `registered_methods_[request.method_name_]` in `PerformRequest`. -/
def lookup (r : Registry M) (request : DousiRequest) : Option (Bound M) :=
  r.registeredMethods request.methodName

/-- The handler that a delivered body leads to. -/
def dispatch {τ : Type} {El : τ → Type} (mp : Codec τ El) (r : Registry M) (streamId : UInt64)
    (objectId : UInt32) (body : Bytes) : Option (Bound M) :=
  (invokeMethod mp streamId objectId body).bind (lookup r)

/-- The last registration under a method name, for whatever service. -/
def lastNamed (r : Registry M) (m : Bytes) : Option (Registration M) :=
  (r.registrations.filter fun e => e.methodName = m).getLast?

/-- The last registration of a method for one service. -/
def lastFor (r : Registry M) (s m : Bytes) : Option (Registration M) :=
  (r.registrations.filter fun e => e.serviceName = s ∧ e.methodName = m).getLast?

/-- The map is the history read by method name, and every binding belongs to the
service it was registered for. -/
structure Consistent (r : Registry M) : Prop where
  methods : ∀ m, r.registeredMethods m = (lastNamed r m).map Registration.bound
  owner : ∀ e ∈ r.registrations, r.serviceNames[e.bound.service]? = some e.serviceName

theorem consistent_empty : Consistent (empty : Registry M) :=
  ⟨fun _ => rfl, by simp [empty]⟩

theorem consistent_step {r t : Registry M} {op : Op M} (h : Consistent r)
    (hs : step r op = some t) : Consistent t := by
  cases op with
  | createService serviceName =>
    obtain rfl := Option.some.inj hs
    refine ⟨h.methods, fun e he => ?_⟩
    have ho := h.owner e he
    obtain ⟨hlt, _⟩ := List.getElem?_eq_some_iff.mp ho
    exact (List.getElem?_append_left hlt).trans ho
  | registerMethod service remoteMethod =>
    obtain ⟨serviceName, hname, rfl⟩ := Option.map_eq_some_iff.mp hs
    refine ⟨fun m => ?_, fun e he => ?_⟩
    · by_cases hm : m = remoteMethod.methodName
      · subst hm
        simp [lastNamed]
      · simp only [Function.update_of_ne hm, h.methods m, lastNamed, List.filter_append]
        simp [Ne.symm hm]
    · rcases List.mem_append.mp he with hold | hnew
      · exact h.owner e hold
      · rw [List.mem_singleton.mp hnew]; exact hname

theorem consistent_built {r : Registry M} (h : Built r) : Consistent r :=
  h.invariant consistent_empty fun _ _ _ hi _ hs => consistent_step hi hs

section
variable {τ : Type} {El : τ → Type} {mp : Codec τ El}

theorem dispatch_array (hmp : mp.Documented) {r : Registry M} (h : Built r) (streamId : UInt64)
    (objectId : UInt32) {body s m : Bytes} {args : List Obj}
    (hb : mp.unpack body = some (.array (.str s :: .str m :: args))) :
    dispatch mp r streamId objectId body = (lastNamed r m).map Registration.bound := by
  rw [dispatch, invokeMethod_array hmp streamId objectId hb, Option.bind_some]
  exact (consistent_built h).methods m

/-- The handler run for a request to `(s, m)` is the one last registered for this
pair, on an object of `s`, and without such a registration no handler of another
service is run. -/
structure RespectsServiceName (mp : Codec τ El) (r : Registry M) (streamId : UInt64)
    (objectId : UInt32) (s m body : Bytes) : Prop where
  registered : ∀ e, lastFor r s m = some e →
    dispatch mp r streamId objectId body = some e.bound ∧
      r.serviceNames[e.bound.service]? = some s
  unregistered : lastFor r s m = none →
    ∀ b, dispatch mp r streamId objectId body = some b → r.serviceNames[b.service]? = some s

theorem lastNamed_mem {r : Registry M} {m : Bytes} {e : Registration M}
    (h : lastNamed r m = some e) : e ∈ r.registrations ∧ e.methodName = m := by
  have hmem := List.mem_of_getLast? h
  simpa using List.mem_filter.mp hmem

theorem lastFor_mem {r : Registry M} {s m : Bytes} {e : Registration M}
    (h : lastFor r s m = some e) :
    e ∈ r.registrations ∧ e.serviceName = s ∧ e.methodName = m := by
  have hmem := List.mem_of_getLast? h
  simpa using List.mem_filter.mp hmem

/-- When the last registration under a name is for `s`, it is the last one for `s`. -/
theorem lastFor_eq_lastNamed {r : Registry M} {s m : Bytes}
    (h : ∀ e, lastNamed r m = some e → e.serviceName = s) : lastFor r s m = lastNamed r m := by
  have hf : (r.registrations.filter fun e => e.serviceName = s ∧ e.methodName = m) =
      (r.registrations.filter fun e => e.methodName = m).filter fun e => e.serviceName = s := by
    rw [List.filter_filter]
    congr 1
    funext e
    simp
  rw [lastFor, hf]
  cases hl : lastNamed r m with
  | none =>
    rw [lastNamed, List.getLast?_eq_none_iff] at hl
    rw [hl]; rfl
  | some e =>
    obtain ⟨front, hfront⟩ := List.getLast?_eq_some_iff.mp hl
    rw [hfront, List.filter_append, List.filter_cons_of_pos (by simpa using h e hl)]
    simp

/-- Dispatch respects the service name of a request exactly when no other service
was the last to register a method of that name. -/
theorem dispatch_respects_iff (hmp : mp.Documented) {r : Registry M} (h : Built r)
    (streamId : UInt64) (objectId : UInt32) {body s m : Bytes} {args : List Obj}
    (hb : mp.unpack body = some (.array (.str s :: .str m :: args))) :
    RespectsServiceName mp r streamId objectId s m body ↔
      ∀ e, lastNamed r m = some e → e.serviceName = s := by
  have hd := dispatch_array hmp h streamId objectId hb
  have hc := consistent_built h
  constructor
  · intro hr e he
    have hrun : dispatch mp r streamId objectId body = some e.bound := by rw [hd, he]; rfl
    have howner := hc.owner e (lastNamed_mem he).1
    cases hl : lastFor r s m with
    | none => exact Option.some.inj (howner.symm.trans (hr.unregistered hl _ hrun))
    | some e' =>
      obtain ⟨hrun', hs⟩ := hr.registered e' hl
      have hb' : e.bound = e'.bound := Option.some.inj (hrun.symm.trans hrun')
      rw [hb'] at howner
      exact Option.some.inj (howner.symm.trans hs)
  · intro hlast
    have heq := lastFor_eq_lastNamed hlast
    refine ⟨fun e he => ?_, fun hn b hb' => ?_⟩
    · obtain ⟨hmem, hs, _⟩ := lastFor_mem he
      exact ⟨by rw [hd, ← heq, he]; rfl, hs ▸ hc.owner e hmem⟩
    · rw [hd, ← heq, hn] at hb'
      cases hb'

end

/-- Services `A` and `B` each register a method `m`. -/
def sharedName : List (Op Nat) :=
  [.createService [65], .createService [66], .registerMethod 0 ⟨[109], 10⟩,
    .registerMethod 1 ⟨[109], 20⟩]

/-- A request to `(A, m)` runs the handler of `B`. -/
theorem sharedName_misdispatched : ∃ r : Registry Nat, Built r ∧
    run step empty sharedName = some r ∧
    fixCodec.unpack [0x92, 0xa1, 65, 0xa1, 109] = some (.array [.str [65], .str [109]]) ∧
    lastFor r [65] [109] = some ⟨[65], [109], ⟨0, 10⟩⟩ ∧
    dispatch fixCodec r 0 0 [0x92, 0xa1, 65, 0xa1, 109] = some ⟨1, 20⟩ ∧
    ¬ RespectsServiceName fixCodec r 0 0 [65] [109] [0x92, 0xa1, 65, 0xa1, 109] := by
  obtain ⟨r, hr⟩ : ∃ r, run step empty sharedName = some r := ⟨_, rfl⟩
  have hlast : lastFor r [65] [109] = some ⟨[65], [109], ⟨0, 10⟩⟩ := by cases hr; rfl
  have hbody : fixCodec.unpack [0x92, 0xa1, 65, 0xa1, 109] =
      some (.array [.str [65], .str [109]]) := rfl
  have hrun : dispatch fixCodec r 0 0 [0x92, 0xa1, 65, 0xa1, 109] = some ⟨1, 20⟩ := by
    rw [dispatch_array fixCodec_documented (Reach.of_run hr) 0 0 hbody]
    cases hr; rfl
  refine ⟨r, Reach.of_run hr, hr, hbody, hlast, hrun, fun h => ?_⟩
  have hown := (h.registered _ hlast).1
  rw [hrun] at hown
  cases hown

/-- The same request to `(B, m)` reaches its service. -/
theorem dispatch_respects_sharedName :
    fixCodec.Documented ∧ ∃ r : Registry Nat, run step empty sharedName = some r ∧ Built r ∧
      lastNamed r [109] = some ⟨[66], [109], ⟨1, 20⟩⟩ ∧
      fixCodec.unpack [0x92, 0xa1, 66, 0xa1, 109] = some (.array [.str [66], .str [109]]) ∧
      dispatch fixCodec r 0 0 [0x92, 0xa1, 66, 0xa1, 109] = some ⟨1, 20⟩ ∧
      (RespectsServiceName fixCodec r 0 0 [66] [109] [0x92, 0xa1, 66, 0xa1, 109] ↔
        ∀ e, lastNamed r [109] = some e → e.serviceName = [66]) := by
  obtain ⟨r, hr⟩ : ∃ r : Registry Nat, run step empty sharedName = some r := ⟨_, rfl⟩
  have hb : Built r := Reach.of_run hr
  have hlast : lastNamed r [109] = some ⟨[66], [109], ⟨1, 20⟩⟩ := by cases hr; rfl
  have hbody : fixCodec.unpack [0x92, 0xa1, 66, 0xa1, 109] =
      some (.array [.str [66], .str [109]]) := rfl
  have hrun : dispatch fixCodec r 0 0 [0x92, 0xa1, 66, 0xa1, 109] = some ⟨1, 20⟩ := by
    rw [dispatch_array fixCodec_documented hb 0 0 hbody, hlast]
    rfl
  exact ⟨fixCodec_documented, r, hr, hb, hlast, hbody, hrun,
    dispatch_respects_iff fixCodec_documented hb 0 0 hbody⟩

end Dousi.Executor.Services
