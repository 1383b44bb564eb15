import Dousi.Executor.Services

/-!
# InvokeHelper: from a decoded object to a method call

`InvokeHelper::Invoke` decodes the whole request once more, at the parameter types
of the method, and calls the method on the service object of the wrapper. Service
objects share one type of states. The log of executions is a history: no step
reads it.
-/
namespace Dousi.Executor.InvokeHelper

open Dousi.Lib.Word
open Dousi.Core.Msgpack
open Request Services

section
variable {τ : Type} (El : τ → Type) (σ : Type)

/-- `FunctionTraits<MethodType>::ReturnType`, with `none` for `void`. -/
def Returned : Option (CppType τ) → Type
  | none => Unit
  | some t => Value El t

/-- A member function of a service class: its parameter types without `const` and
reference, its return type, and a call on an object, which may throw. -/
structure MethodType where
  params : List (CppType τ)
  returnType : Option (CppType τ)
  body : σ → Tuple El params → σ × Option (Returned El returnType)

structure Execution where
  service : Nat
  method : MethodType El σ
  args : Tuple El method.params

/-- The service objects by the number of their `CreateService`. -/
structure Objects where
  state : Nat → σ
  executed : List (Execution El σ)

end

variable {τ : Type} {El : τ → Type} {σ : Type}

/-- `FunctionTraits<MethodType>::ServiceNameAndMethodNameWithArgsTuple`. -/
def serviceNameAndMethodNameWithArgs (params : List (CppType τ)) : List (CppType τ) :=
  .string :: .string :: params

/-- `std::get<Index + 2>(tuple) ...` over `std::make_index_sequence<sizeof...(Args)>`. -/
def argsOf {params : List (CppType τ)}
    (tuple : Tuple El (serviceNameAndMethodNameWithArgs params)) : Tuple El params :=
  Tuple.ofFn params fun i => tuple.get ⟨i.val + 2, Nat.add_lt_add_right i.isLt 2⟩

/-- The method is called on the object of wrapper `b.service`. -/
def traitAndCall2 (b : Bound (MethodType El σ)) (w : Objects El σ)
    (tuple : Tuple El (serviceNameAndMethodNameWithArgs b.method.params)) :
    Objects El σ × Option (Returned El b.method.returnType) :=
  let called := b.method.body (w.state b.service) (argsOf tuple)
  (⟨Function.update w.state b.service called.1,
    w.executed ++ [⟨b.service, b.method, argsOf tuple⟩]⟩, called.2)

/-- The same call, without its value. -/
def traitAndCall2VoidReturn (b : Bound (MethodType El σ)) (w : Objects El σ)
    (tuple : Tuple El (serviceNameAndMethodNameWithArgs b.method.params)) :
    Objects El σ × Option Unit :=
  let called := traitAndCall2 b w tuple
  (called.1, called.2.map fun _ => ())

def traitAndCall (b : Bound (MethodType El σ)) (w : Objects El σ)
    (tuple : Tuple El (serviceNameAndMethodNameWithArgs b.method.params)) :
    Objects El σ × Option (Returned El b.method.returnType) := traitAndCall2 b w tuple

def traitAndCallVoidReturn (b : Bound (MethodType El σ)) (w : Objects El σ)
    (tuple : Tuple El (serviceNameAndMethodNameWithArgs b.method.params)) :
    Objects El σ × Option Unit := traitAndCall2VoidReturn b w tuple

/-- The result is packed, but the specialisation for `void` leaves it as it was. -/
def serialize (mp : Codec τ El) : (t : Option (CppType τ)) → Returned El t → Bytes → Bytes
  | some t, ret, _ => mp.pack (mp.toObj t ret)
  | none, _, result => result

/-- `InvokeHelper<ReturnType>::Invoke` and its specialisation for `void`, with an empty
result; `none` when it throws. -/
def invoke (mp : Codec τ El) (b : Bound (MethodType El σ)) (unpacked : Obj)
    (w : Objects El σ) : Objects El σ × Option Bytes :=
  match mp.asTuple (serviceNameAndMethodNameWithArgs b.method.params) unpacked with
  | none => (w, none)
  | some tuple =>
    if b.method.returnType.isNone then
      let called := traitAndCallVoidReturn b w tuple
      (called.1, called.2.map fun _ => [])
    else
      let called := traitAndCall b w tuple
      (called.1, called.2.map fun ret => serialize mp b.method.returnType ret [])

/-- `PerformRequest` up to the result: a name that is not registered gives an empty
`std::function`, whose call throws. -/
def perform (mp : Codec τ El) (r : Registry (MethodType El σ)) (request : DousiRequest)
    (w : Objects El σ) : Objects El σ × Option Bytes :=
  match lookup r request with
  | none => (w, none)
  | some b => invoke mp b request.unpacked w

/-- A request body handled from its arrival to its result. -/
def handle (mp : Codec τ El) (r : Registry (MethodType El σ)) (streamId : UInt64)
    (objectId : UInt32) (body : Bytes) (w : Objects El σ) : Objects El σ × Option Bytes :=
  match invokeMethod mp streamId objectId body with
  | none => (w, none)
  | some request => perform mp r request w

/-- The tuple of two names and the arguments. -/
def withNames {params : List (CppType τ)} (s m : Bytes) (args : Tuple El params) :
    Tuple El (serviceNameAndMethodNameWithArgs params) := (s, m, args)

/-- The arguments, taken two places into the tuple, are its last components. -/
theorem argsOf_withNames {params : List (CppType τ)} (s m : Bytes) (args : Tuple El params) :
    argsOf (withNames s m args) = args := Tuple.ofFn_get args

theorem invoke_none {mp : Codec τ El} {b : Bound (MethodType El σ)} {unpacked : Obj}
    (h : mp.asTuple (serviceNameAndMethodNameWithArgs b.method.params) unpacked = none)
    (w : Objects El σ) : invoke mp b unpacked w = (w, none) := by
  rw [invoke, h]

/-- A method for `void` is one more method: its value serializes to nothing. -/
theorem invoke_some {mp : Codec τ El} {b : Bound (MethodType El σ)} {unpacked : Obj}
    {tuple : Tuple El (serviceNameAndMethodNameWithArgs b.method.params)}
    (h : mp.asTuple (serviceNameAndMethodNameWithArgs b.method.params) unpacked = some tuple)
    (w : Objects El σ) : invoke mp b unpacked w = ((traitAndCall2 b w tuple).1,
      (traitAndCall2 b w tuple).2.map fun ret => serialize mp b.method.returnType ret []) := by
  obtain ⟨service, params, returnType, body⟩ := b
  rw [invoke, h]
  cases returnType with
  | none => simp [traitAndCallVoidReturn, traitAndCall2VoidReturn, serialize, Function.comp_def]
  | some t => rfl

theorem invoke_executed {mp : Codec τ El} {b : Bound (MethodType El σ)} {unpacked : Obj}
    {tuple : Tuple El (serviceNameAndMethodNameWithArgs b.method.params)}
    (h : mp.asTuple (serviceNameAndMethodNameWithArgs b.method.params) unpacked = some tuple)
    (w : Objects El σ) : (invoke mp b unpacked w).1.executed =
      w.executed ++ [⟨b.service, b.method, argsOf tuple⟩] := by
  rw [invoke_some h]
  rfl

theorem handle_array {mp : Codec τ El} (hmp : mp.Documented) {r : Registry (MethodType El σ)}
    {body s m : Bytes} {args : List Obj} {b : Bound (MethodType El σ)}
    (hb : mp.unpack body = some (.array (.str s :: .str m :: args)))
    (hr : r.registeredMethods m = some b) (streamId : UInt64) (objectId : UInt32)
    (w : Objects El σ) : handle mp r streamId objectId body w =
      invoke mp b (.array (.str s :: .str m :: args)) w := by
  rw [handle, invokeMethod_array hmp streamId objectId hb]
  simp only [perform, lookup, hr]

end Dousi.Executor.InvokeHelper
