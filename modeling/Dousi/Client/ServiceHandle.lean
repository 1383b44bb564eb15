import Dousi.Executor.InvokeHelper

/-!
# ServiceHandle and DousiFuture: packing a call, decoding its result

`Call` puts the service name and the method name before the arguments and packs all of
them as one tuple. Which overload of `InternalCall` takes it from there, and with it the
type of the future, is decided by the return type of the method alone.
-/
namespace Dousi.Client.ServiceHandle

open Dousi.Lib.Word
open Dousi.Core.Msgpack
open Dousi.Executor.Services (RemoteMethod)
open Dousi.Executor.InvokeHelper

section
variable {τ : Type} {El : τ → Type}

/-- The objects of the components of a `std::tuple`. -/
def toObjs (mp : Codec τ El) : (ts : List (CppType τ)) → Tuple El ts → List Obj
  | [], _ => []
  | t :: ts, (v, rest) => mp.toObj t v :: toObjs mp ts rest

/-- `msgpack::pack` packs a tuple as an array. -/
def packArgsToBuffer (mp : Codec τ El) (ts : List (CppType τ)) (argsTuple : Tuple El ts) :
    Bytes :=
  mp.pack (.array (toObjs mp ts argsTuple))

/-- `ObjectType` of a `DousiFuture`. -/
inductive ObjectType (τ : Type) where
  | returned (t : CppType τ)
  | bool

/-- The C++ values of the type. -/
def ObjectValue (El : τ → Type) : ObjectType τ → Type
  | .returned t => Value El t
  | .bool => Bool

structure DousiFuture (τ : Type) where
  objectType : ObjectType τ
  objectId : UInt64

/-- The arguments of `Submitter::Submit`. -/
structure Submission where
  objectId : UInt64
  methodName : Bytes
  buffer : Bytes

variable {σ : Type}

/-- `InternalCall` with `NonVoidReturnTag`, with the id from `RequestObjectID`. -/
def internalCallNonVoidReturn (mp : Codec τ El) (objectId : UInt64)
    (method : RemoteMethod (MethodType El σ)) (ts : List (CppType τ)) (argsTuple : Tuple El ts)
    (returnType : CppType τ) : Submission × DousiFuture τ :=
  (⟨objectId, method.methodName, packArgsToBuffer mp ts argsTuple⟩,
    ⟨.returned returnType, objectId⟩)

/-- `InternalCall` with `VoidReturnTag`. -/
def internalCallVoidReturn (mp : Codec τ El) (objectId : UInt64)
    (method : RemoteMethod (MethodType El σ)) (ts : List (CppType τ)) (argsTuple : Tuple El ts) :
    Submission × DousiFuture τ :=
  (⟨objectId, method.methodName, packArgsToBuffer mp ts argsTuple⟩, ⟨.bool, objectId⟩)

/-- The overload is chosen by `VoidReturnTrait<ReturnType>::Tag`. -/
def callWithMethodName (mp : Codec τ El) (objectId : UInt64)
    (method : RemoteMethod (MethodType El σ)) (ts : List (CppType τ)) (args : Tuple El ts) :
    Submission × DousiFuture τ :=
  match method.method.returnType with
  | some t => internalCallNonVoidReturn mp objectId method ts args t
  | none => internalCallVoidReturn mp objectId method ts args

/-- `ServiceHandle::Call` on the handle of a service. -/
def call (mp : Codec τ El) (serviceName : Bytes) (objectId : UInt64)
    (method : RemoteMethod (MethodType El σ)) (args : Tuple El method.method.params) :
    Submission × DousiFuture τ :=
  callWithMethodName mp objectId method (serviceNameAndMethodNameWithArgs method.method.params)
    (withNames serviceName method.methodName args)

/-- `object::as<bool>`: a `type_error` on anything but a boolean. -/
def asBool : Obj → Option Bool
  | .bool b => some b
  | _ => none

def asObjectType (mp : Codec τ El) : (t : ObjectType τ) → Obj → Option (ObjectValue El t)
  | .returned t, o => mp.convert t o
  | .bool, o => asBool o

/-- `GetObject<ObjectType>` once the response is stored; `none` when msgpack throws. -/
def getObject (mp : Codec τ El) (t : ObjectType τ) (serializedBytes : Bytes) :
    Option (ObjectValue El t) :=
  (mp.unpack serializedBytes).bind (asObjectType mp t)

/-- Both overloads submit the packed tuple. -/
theorem call_buffer (mp : Codec τ El) (serviceName : Bytes) (objectId : UInt64)
    (method : RemoteMethod (MethodType El σ)) (args : Tuple El method.method.params) :
    (call mp serviceName objectId method args).1.buffer =
      mp.pack (.array (toObjs mp (serviceNameAndMethodNameWithArgs method.method.params)
        (withNames serviceName method.methodName args))) := by
  unfold call callWithMethodName
  split <;> rfl

theorem call_objectType (mp : Codec τ El) (serviceName : Bytes) (objectId : UInt64)
    (method : RemoteMethod (MethodType El σ)) (args : Tuple El method.method.params) :
    (call mp serviceName objectId method args).2.objectType =
      match method.method.returnType with
      | some t => .returned t
      | none => .bool := by
  unfold call callWithMethodName
  split <;> rfl

theorem toObjs_length (mp : Codec τ El) : ∀ (ts : List (CppType τ)) (tuple : Tuple El ts),
    (toObjs mp ts tuple).length = ts.length
  | [], _ => rfl
  | _ :: ts, (_, rest) => congrArg Nat.succ (toObjs_length mp ts rest)

/-- Every component converts back from its object. -/
def ConvertsBack (mp : Codec τ El) : (ts : List (CppType τ)) → Tuple El ts → Prop
  | [], _ => True
  | t :: ts, (v, rest) => mp.convert t (mp.toObj t v) = some v ∧ ConvertsBack mp ts rest

theorem leading_toObjs (mp : Codec τ El) : ∀ (ts : List (CppType τ)) (tuple : Tuple El ts),
    ConvertsBack mp ts tuple → leading mp.convert ts (toObjs mp ts tuple) = some tuple
  | [], _, _ => rfl
  | _ :: ts, (_, rest), h =>
    (leading_cons ..).mpr ⟨h.1, leading_toObjs mp ts rest h.2⟩

/-- The whole tuple converts back from the array it is packed as. -/
theorem asTuple_toObjs {mp : Codec τ El} (hmp : mp.Documented) {ts : List (CppType τ)}
    {tuple : Tuple El ts} (h : ConvertsBack mp ts tuple) :
    mp.asTuple ts (.array (toObjs mp ts tuple)) = some tuple := by
  rw [Codec.asTuple, hmp.convertTuple_leading _ _ (Nat.le_of_eq (toObjs_length mp ts tuple).symm),
    leading_toObjs mp ts tuple h]

end

end Dousi.Client.ServiceHandle
