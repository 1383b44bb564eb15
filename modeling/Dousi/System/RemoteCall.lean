import Dousi.Client.ServiceHandle
import Dousi.System.ProgramOrder

/-!
# A call from both of its ends

The client packs the two names and the arguments as one tuple; the server decodes the
names, looks the method up by its name and decodes everything again at the parameter
types. The result goes back under the return type, and a method without one answers with
no bytes at all, which no type can be decoded from.
-/
namespace Dousi.System.RemoteCall

open Dousi.Lib.Word
open Dousi.Lib.Transition
open Dousi.Core.Msgpack
open Dousi.Executor.Request Dousi.Executor.Services Dousi.Executor.InvokeHelper
open Dousi.Client.ServiceHandle

variable {τ : Type} {El : τ → Type} {σ : Type}

/-- A call on a service handle, and the ids that its request carries at the server. -/
structure Call (El : τ → Type) (σ : Type) where
  serviceName : Bytes
  remoteMethod : RemoteMethod (MethodType El σ)
  args : Tuple El remoteMethod.method.params
  streamId : UInt64
  objectId : UInt64

/-- The tuple that `Call` packs. -/
def Call.tuple (c : Call El σ) :
    Tuple El (serviceNameAndMethodNameWithArgs c.remoteMethod.method.params) :=
  withNames c.serviceName c.remoteMethod.methodName c.args

def Call.unpacked (mp : Codec τ El) (c : Call El σ) : Obj :=
  .array (toObjs mp _ c.tuple)

/-- The buffer that is submitted. -/
def Call.body (mp : Codec τ El) (c : Call El σ) : Bytes :=
  (call mp c.serviceName c.objectId c.remoteMethod c.args).1.buffer

/-- `unpack` undoes `pack` on what this call packs. -/
structure Undone (mp : Codec τ El) (c : Call El σ) : Prop where
  unpack : mp.unpack (mp.pack (c.unpacked mp)) = some (c.unpacked mp)
  convert : ConvertsBack mp _ c.tuple

/-- The server's half of a call. -/
def serve (mp : Codec τ El) (r : Registry (MethodType El σ)) (c : Call El σ)
    (w : Objects El σ) : Objects El σ × Option Bytes :=
  handle mp r c.streamId c.objectId.toUInt32 (c.body mp) w

/-- The call made on the service object itself, without any network. -/
def callLocally (service : Nat) (c : Call El σ) (w : Objects El σ) :
    Objects El σ × Option (Returned El c.remoteMethod.method.returnType) :=
  let called := c.remoteMethod.method.body (w.state service) c.args
  (⟨Function.update w.state service called.1,
    w.executed ++ [⟨service, c.remoteMethod.method, c.args⟩]⟩, called.2)

theorem unpack_body {mp : Codec τ El} {c : Call El σ} (h : Undone mp c) :
    mp.unpack (c.body mp) = some (c.unpacked mp) := by
  rw [Call.body, call_buffer]
  exact h.unpack

/-- The names are the two leading components. -/
theorem names_unpacked {mp : Codec τ El} (hmp : mp.Documented) {c : Call El σ}
    (h : Undone mp c) : serviceAndMethodName mp (c.unpacked mp) =
      some (c.serviceName, c.remoteMethod.methodName) := by
  obtain ⟨hservice, hmethod, -⟩ := h.convert
  let names : Tuple El [.string, .string] := (c.serviceName, c.remoteMethod.methodName, ())
  have hnames : mp.asTuple [.string, .string] (c.unpacked mp) = some names := by
    rw [Call.unpacked, Codec.asTuple, hmp.convertTuple_leading _ _ (by
      rw [toObjs_length]; simp [serviceNameAndMethodNameWithArgs])]
    exact (leading_cons ..).mpr ⟨hservice, (leading_cons ..).mpr ⟨hmethod, rfl⟩⟩
  rw [serviceAndMethodName, hnames]
  rfl

theorem invokeMethod_body {mp : Codec τ El} (hmp : mp.Documented) {c : Call El σ}
    (h : Undone mp c) (streamId : UInt64) (objectId : UInt32) :
    invokeMethod mp streamId objectId (c.body mp) =
      some ⟨objectId, streamId, c.unpacked mp, c.remoteMethod.methodName⟩ := by
  rw [invokeMethod, unpack_body h, Option.bind_some, names_unpacked hmp h]
  rfl

/-- The second decoding gives back the tuple, from its third component on the arguments. -/
theorem invoke_unpacked {mp : Codec τ El} (hmp : mp.Documented) {c : Call El σ}
    (h : Undone mp c) (service : Nat) (w : Objects El σ) :
    invoke mp ⟨service, c.remoteMethod.method⟩ (c.unpacked mp) w =
      ((callLocally service c w).1, (callLocally service c w).2.map fun ret =>
        serialize mp c.remoteMethod.method.returnType ret []) := by
  have htuple : mp.asTuple (serviceNameAndMethodNameWithArgs c.remoteMethod.method.params)
      (c.unpacked mp) = some c.tuple := asTuple_toObjs hmp h.convert
  have hargs : argsOf c.tuple = c.args := argsOf_withNames ..
  rw [invoke_some htuple]
  simp only [traitAndCall2, hargs, callLocally]

/-- A registered method is called on its service object with the arguments packed by the
client. -/
theorem serve_eq {mp : Codec τ El} (hmp : mp.Documented) {r : Registry (MethodType El σ)}
    {c : Call El σ} {service : Nat} (h : Undone mp c)
    (hr : r.registeredMethods c.remoteMethod.methodName =
      some ⟨service, c.remoteMethod.method⟩) (w : Objects El σ) :
    serve mp r c w = ((callLocally service c w).1, (callLocally service c w).2.map fun ret =>
      serialize mp c.remoteMethod.method.returnType ret []) := by
  simp only [serve, handle, invokeMethod_body hmp h, perform, lookup, hr]
  exact invoke_unpacked hmp h service w

/-- Calls with the number of the service object that each is registered for. -/
def serveAll (mp : Codec τ El) (r : Registry (MethodType El σ)) (calls : List (Nat × Call El σ))
    (w : Objects El σ) : Objects El σ :=
  calls.foldl (fun w c => (serve mp r c.2 w).1) w

def callAllLocally (calls : List (Nat × Call El σ)) (w : Objects El σ) : Objects El σ :=
  calls.foldl (fun w c => (callLocally c.1 c.2 w).1) w

/-- For any methods, arities and types: the server decodes the names the client gave, and
calls made one after another do to the service objects what the same calls with the same
arguments do when made on them directly. -/
theorem arguments_in_place {mp : Codec τ El} (hmp : mp.Documented)
    {r : Registry (MethodType El σ)} (calls : List (Nat × Call El σ))
    (hundo : ∀ c ∈ calls, Undone mp c.2)
    (hr : ∀ c ∈ calls, r.registeredMethods c.2.remoteMethod.methodName =
      some ⟨c.1, c.2.remoteMethod.method⟩) (w : Objects El σ) :
    (∀ c ∈ calls,
      serviceAndMethodName mp (c.2.unpacked mp) =
        some (c.2.serviceName, c.2.remoteMethod.methodName) ∧
      invokeMethod mp c.2.streamId c.2.objectId.toUInt32 (c.2.body mp) =
        some ⟨c.2.objectId.toUInt32, c.2.streamId, c.2.unpacked mp, c.2.remoteMethod.methodName⟩ ∧
      ∀ w', serve mp r c.2 w' = ((callLocally c.1 c.2 w').1, (callLocally c.1 c.2 w').2.map
        fun ret => serialize mp c.2.remoteMethod.method.returnType ret [])) ∧
    serveAll mp r calls w = callAllLocally calls w := by
  refine ⟨fun c hc => ⟨names_unpacked hmp (hundo c hc), invokeMethod_body hmp (hundo c hc) _ _,
    serve_eq hmp (hundo c hc) (hr c hc)⟩, ?_⟩
  induction calls generalizing w with
  | nil => rfl
  | cons c calls ih =>
    have hc := serve_eq hmp (hundo c List.mem_cons_self) (hr c List.mem_cons_self) w
    have hrest := ih (fun x hx => hundo x (List.mem_cons_of_mem _ hx))
      (fun x hx => hr x (List.mem_cons_of_mem _ hx)) (callLocally c.1 c.2 w).1
    simp only [serveAll, callAllLocally, List.foldl_cons, hc] at hrest ⊢
    exact hrest

open ProgramOrder (perform get voidReturnService data)

/-- `Perform("456")` and `Get()` on the service `V`. -/
def performThenGet : List (Nat × Call (fun _ : Unit => Int) Bytes) :=
  [(0, ⟨[86], ⟨[80], perform⟩, ([52, 53, 54], ()), 0, 0⟩), (0, ⟨[86], ⟨[71], get⟩, (), 0, 1⟩)]

theorem arguments_in_place_performThenGet :
    ∃ r, run Executor.Services.step empty voidReturnService = some r ∧
      (serveAll fixCodec r performThenGet data).state 0 = [52, 53, 54] ∧
      (∀ c ∈ performThenGet,
        serviceAndMethodName fixCodec (c.2.unpacked fixCodec) =
          some (c.2.serviceName, c.2.remoteMethod.methodName) ∧
        invokeMethod fixCodec c.2.streamId c.2.objectId.toUInt32 (c.2.body fixCodec) =
          some ⟨c.2.objectId.toUInt32, c.2.streamId, c.2.unpacked fixCodec,
            c.2.remoteMethod.methodName⟩ ∧
        ∀ w', serve fixCodec r c.2 w' = ((callLocally c.1 c.2 w').1,
          (callLocally c.1 c.2 w').2.map fun ret =>
            serialize fixCodec c.2.remoteMethod.method.returnType ret [])) ∧
      serveAll fixCodec r performThenGet data = callAllLocally performThenGet data := by
  obtain ⟨r, hr⟩ : ∃ r, run Executor.Services.step empty voidReturnService = some r := ⟨_, rfl⟩
  have hundo : ∀ c ∈ performThenGet, Undone fixCodec c.2 := by
    simp only [performThenGet, List.forall_mem_cons]
    exact ⟨⟨rfl, rfl, rfl, rfl, trivial⟩, ⟨rfl, rfl, rfl, trivial⟩, by simp⟩
  have hreg : ∀ c ∈ performThenGet, r.registeredMethods c.2.remoteMethod.methodName =
      some ⟨c.1, c.2.remoteMethod.method⟩ := by
    cases hr
    simp only [performThenGet, List.forall_mem_cons]
    exact ⟨rfl, rfl, by simp⟩
  have hall := arguments_in_place fixCodec_documented performThenGet hundo hreg data
  refine ⟨r, hr, ?_, hall⟩
  rw [hall.2]
  rfl

/-! The result -/

/-- msgpack undoes itself on a result. -/
def ResultUndone (mp : Codec τ El) : (t : Option (CppType τ)) → Returned El t → Prop
  | some t, ret => mp.unpack (mp.pack (mp.toObj t ret)) = some (mp.toObj t ret) ∧
      mp.convert t (mp.toObj t ret) = some ret
  | none, _ => True

/-- `Get` on a future gives the result back; for a method without one it only returns. -/
def GotBack (mp : Codec τ El) (future : DousiFuture τ) (result : Bytes) :
    (t : Option (CppType τ)) → Returned El t → Prop
  | some t, ret => future.objectType = .returned t ∧
      getObject mp (.returned t) result = some ret
  | none, _ => (getObject mp future.objectType result).isSome

/-- What the server answers is decoded at the type of the client's future exactly when the
method has a return type. -/
theorem results_agree_iff {mp : Codec τ El} (hempty : mp.unpack [] = none)
    (b : Bound (MethodType El σ)) (w : Objects El σ) {unpacked : Obj}
    {tuple : Tuple El (serviceNameAndMethodNameWithArgs b.method.params)}
    (htuple : mp.asTuple (serviceNameAndMethodNameWithArgs b.method.params) unpacked = some tuple)
    {ret : Returned El b.method.returnType} (hret : (traitAndCall2 b w tuple).2 = some ret)
    (hundo : ResultUndone mp b.method.returnType ret) (serviceName methodName : Bytes)
    (objectId : UInt64) (args : Tuple El b.method.params) :
    ∃ result, (invoke mp b unpacked w).2 = some result ∧
      (GotBack mp (call mp serviceName objectId ⟨methodName, b.method⟩ args).2 result
        b.method.returnType ret ↔ b.method.returnType ≠ none) := by
  have hresult : (invoke mp b unpacked w).2 =
      some (serialize mp b.method.returnType ret []) := by
    rw [invoke_some htuple, hret, Option.map_some]
  refine ⟨_, hresult, ?_⟩
  have htype := call_objectType mp serviceName objectId ⟨methodName, b.method⟩ args
  generalize (call mp serviceName objectId ⟨methodName, b.method⟩ args).2 = future at htype ⊢
  clear hresult hret
  generalize b.method.returnType = t at ret hundo htype ⊢
  cases t with
  | some t =>
    obtain ⟨hunpack, hconvert⟩ := hundo
    have hget : getObject mp (.returned t) (mp.pack (mp.toObj t ret)) = some ret := by
      rw [getObject, hunpack]
      exact hconvert
    exact ⟨fun _ => by simp, fun _ => ⟨htype, hget⟩⟩
  | none =>
    have hget : getObject mp future.objectType [] = none := by
      rw [getObject, hempty]
      rfl
    refine ⟨fun h => ?_, fun h => absurd rfl h⟩
    rw [GotBack, serialize, hget] at h
    cases h

/-- `Perform("456")` is executed, answers with no bytes, and `Get` on its future throws. -/
theorem perform_get_throws :
    ∃ result, (invoke fixCodec ⟨0, perform⟩
        (.array [.str [86], .str [80], .str [52, 53, 54]]) data).2 = some result ∧
      result = [] ∧
      (call fixCodec [86] 0 ⟨[80], perform⟩ ([52, 53, 54], ())).2.objectType = .bool ∧
      getObject fixCodec .bool result = none ∧
      ¬ GotBack fixCodec (call fixCodec [86] 0 ⟨[80], perform⟩ ([52, 53, 54], ())).2 result
        perform.returnType () := by
  refine ⟨[], rfl, rfl, rfl, rfl, fun h => ?_⟩
  cases h

/-- `"123"`, as `Get` returns it. -/
def answer : Returned (fun _ : Unit => Int) get.returnType := ([49, 50, 51] : Bytes)

theorem results_agree_answer :
    fixCodec.unpack [] = none ∧
    ∃ result, (invoke fixCodec ⟨0, get⟩ (.array [.str [86], .str [71]]) data).2 = some result ∧
      (GotBack fixCodec (call fixCodec [86] 0 ⟨[71], get⟩ ()).2 result get.returnType answer ↔
        get.returnType ≠ none) := by
  let tuple : Tuple (fun _ : Unit => Int) (serviceNameAndMethodNameWithArgs get.params) :=
    ([86], [71], ())
  have htuple : fixCodec.asTuple (serviceNameAndMethodNameWithArgs get.params)
      (.array [.str [86], .str [71]]) = some tuple := rfl
  have hret : (traitAndCall2 ⟨0, get⟩ data tuple).2 = some answer := rfl
  have hundo : ResultUndone fixCodec get.returnType answer := ⟨rfl, rfl⟩
  exact ⟨rfl, results_agree_iff rfl ⟨0, get⟩ data htuple hret hundo [86] [71] 0 ()⟩

end Dousi.System.RemoteCall
