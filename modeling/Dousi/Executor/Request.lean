import Dousi.Core.Msgpack

/-!
# Requests, responses and the decoding half of InvokeMethod
-/
namespace Dousi.Executor.Request

open Dousi.Lib.Word
open Dousi.Core.Msgpack

/-- `DousiRequest`: the service name is not among its fields. -/
structure DousiRequest where
  objectId : UInt32
  streamId : UInt64
  unpacked : Obj
  methodName : Bytes

structure DousiResponse where
  objectId : UInt32
  streamId : UInt64
  result : Bytes

section
variable {τ : Type} {El : τ → Type}

/-- `std::tuple<std::string, std::string>`. -/
def serviceAndMethodName (mp : Codec τ El) (unpacked : Obj) : Option (Bytes × Bytes) :=
  (mp.asTuple [.string, .string] unpacked).map fun (tuple : Tuple El [.string, .string]) =>
    (tuple.get ⟨0, by simp⟩, tuple.get ⟨1, by simp⟩)

/-- `Executor::InvokeMethod` up to the request it builds. The service name is
decoded and dropped. `none` when msgpack throws. -/
def invokeMethod (mp : Codec τ El) (streamId : UInt64) (objectId : UInt32) (buffer : Bytes) :
    Option DousiRequest :=
  (mp.unpack buffer).bind fun unpacked =>
    (serviceAndMethodName mp unpacked).map fun (_serviceName, methodName) =>
      { objectId, streamId, unpacked, methodName }

theorem serviceAndMethodName_array {mp : Codec τ El} (hmp : mp.Documented) (s m : Bytes)
    (args : List Obj) :
    serviceAndMethodName mp (.array (.str s :: .str m :: args)) = some (s, m) := by
  rw [serviceAndMethodName, Codec.asTuple_string hmp _ _ _ (by simp), leading,
    hmp.convert_string]
  rfl

/-- A body that starts with two strings gives a request for the second of them. -/
theorem invokeMethod_array {mp : Codec τ El} (hmp : mp.Documented) (streamId : UInt64)
    (objectId : UInt32) {buffer s m : Bytes} {args : List Obj}
    (hb : mp.unpack buffer = some (.array (.str s :: .str m :: args))) :
    invokeMethod mp streamId objectId buffer =
      some ⟨objectId, streamId, .array (.str s :: .str m :: args), m⟩ := by
  rw [invokeMethod, hb, Option.bind_some, serviceAndMethodName_array hmp]
  rfl

end

end Dousi.Executor.Request
