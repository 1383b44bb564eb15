import Dousi.Lib.Word

/-!
# msgpack as the code uses it

msgpack-c is a third-party library. It enters as a structure of functions with the
documented facts that the code relies on kept apart, in `Documented`. A conversion
that throws is `none`. C++ parameter packs are lists of type codes, and a
`std::tuple` is a value for each of them.
-/
namespace Dousi.Core.Msgpack

open Dousi.Lib.Word

/-- `msgpack::object`. -/
inductive Obj where
  | nil
  | bool (b : Bool)
  | int (i : Int)
  | float (bits : UInt64)
  | str (s : Bytes)
  | bin (s : Bytes)
  | array (items : List Obj)
  | map (entries : List (Obj × Obj))

/-- Type codes: `std::string`, which the code names itself, and the packable types
of a program, with `const` and reference stripped. -/
inductive CppType (τ : Type) where
  | string
  | other (t : τ)

section
variable {τ : Type} (El : τ → Type)

/-- The C++ values of a type. -/
def Value : CppType τ → Type
  | .string => Bytes
  | .other t => El t

/-- `std::tuple<T1, ..., Tk>`. -/
def Tuple : List (CppType τ) → Type
  | [] => Unit
  | t :: ts => Value El t × Tuple ts

variable {El}

/-- `std::get<i>`. -/
def Tuple.get : {ts : List (CppType τ)} → Tuple El ts → (i : Fin ts.length) →
    Value El (ts.get i)
  | _ :: _, (v, _), ⟨0, _⟩ => v
  | _ :: ts, (_, rest), ⟨i + 1, h⟩ => @Tuple.get ts rest ⟨i, Nat.lt_of_succ_lt_succ h⟩

/-- The tuple with given components. -/
def Tuple.ofFn : (ts : List (CppType τ)) → ((i : Fin ts.length) → Value El (ts.get i)) →
    Tuple El ts
  | [], _ => ()
  | _ :: ts, f => (f ⟨0, Nat.zero_lt_succ _⟩, Tuple.ofFn ts fun i => f i.succ)

theorem Tuple.ofFn_get : ∀ {ts : List (CppType τ)} (tuple : Tuple El ts),
    Tuple.ofFn ts (fun i => tuple.get i) = tuple
  | [], _ => rfl
  | _ :: _, (v, rest) => congrArg (Prod.mk v) (Tuple.ofFn_get rest)

/-- Each type converts one of the leading elements; later elements are not looked at. -/
def leading (convert : (t : CppType τ) → Obj → Option (Value El t)) :
    (ts : List (CppType τ)) → List Obj → Option (Tuple El ts)
  | [], _ => some ()
  | _ :: _, [] => none
  | t :: ts, o :: os =>
    (convert t o).bind fun v => (leading convert ts os).map fun rest => (v, rest)

theorem leading_cons (convert : (t : CppType τ) → Obj → Option (Value El t)) (t : CppType τ)
    (ts : List (CppType τ)) (o : Obj) (os : List Obj) (v : Value El t) (rest : Tuple El ts) :
    leading convert (t :: ts) (o :: os) = some (v, rest) ↔
      convert t o = some v ∧ leading convert ts os = some rest := by
  rw [leading]
  cases convert t o with
  | none => simp
  | some v' =>
    cases leading convert ts os with
    | none => exact ⟨fun h => (by cases h), fun h => (by cases h.2)⟩
    | some rest' =>
      change some (v', rest') = some (v, rest) ↔ _
      simp only [Option.some.injEq, Prod.mk.injEq]

end

/-- The library's functions. `convertTuple` is `as<std::tuple<...>>` on the elements
of an array; what it does on too few elements is left open. -/
structure Codec (τ : Type) (El : τ → Type) where
  pack : Obj → Bytes
  unpack : Bytes → Option Obj
  toObj : (t : CppType τ) → Value El t → Obj
  convert : (t : CppType τ) → Obj → Option (Value El t)
  convertTuple : (ts : List (CppType τ)) → List Obj → Option (Tuple El ts)

namespace Codec
variable {τ : Type} {El : τ → Type}

/-- What the library documents of `as`. -/
structure Documented (mp : Codec τ El) : Prop where
  convert_string : ∀ s, mp.convert .string (.str s) = some s
  convertTuple_leading : ∀ ts items, ts.length ≤ items.length →
    mp.convertTuple ts items = leading mp.convert ts items

/-- `object::as<std::tuple<...>>`: a `type_error` on anything but an array. -/
def asTuple (mp : Codec τ El) (ts : List (CppType τ)) : Obj → Option (Tuple El ts)
  | .array items => mp.convertTuple ts items
  | _ => none

theorem asTuple_string {mp : Codec τ El} (hmp : mp.Documented) (ts : List (CppType τ))
    (s : Bytes) (items : List Obj) (h : ts.length ≤ items.length) :
    mp.asTuple (.string :: ts) (.array (.str s :: items)) =
      (leading mp.convert ts items).map fun rest => (s, rest) := by
  have hlen : (CppType.string :: ts).length ≤ (Obj.str s :: items).length := by
    simp only [List.length_cons]; omega
  rw [asTuple, hmp.convertTuple_leading _ _ hlen, leading, hmp.convert_string]
  rfl

end Codec

/-! The formats with a one-byte header: positive fixint, fixstr, fixarray. -/

def readMany {α : Type} (read : Bytes → Option (α × Bytes)) : Nat → Bytes → Option (List α × Bytes)
  | 0, bs => some ([], bs)
  | n + 1, bs =>
    (read bs).bind fun (a, rest) => (readMany read n rest).map fun (as, rest) => (a :: as, rest)

/-- Decode one object; the fuel bounds the nesting of arrays. -/
def readFix : Nat → Bytes → Option (Obj × Bytes)
  | 0, _ => none
  | _, [] => none
  | fuel + 1, b :: bs =>
    if b < 0x80 then some (.int b.toNat, bs)
    else if b < 0x90 then none
    else if b < 0xa0 then
      (readMany (readFix fuel) (b.toNat - 0x90) bs).map fun (items, rest) => (.array items, rest)
    else if b < 0xc0 then
      if b.toNat - 0xa0 ≤ bs.length then
        some (.str (bs.take (b.toNat - 0xa0)), bs.drop (b.toNat - 0xa0))
      else none
    else none

mutual
def writeFix : Obj → Bytes
  | .int i => [UInt8.ofNat i.toNat]
  | .str s => UInt8.ofNat (0xa0 + s.length) :: s
  | .array items => UInt8.ofNat (0x90 + items.length) :: writeFixes items
  | _ => [0xc0]

def writeFixes : List Obj → Bytes
  | [] => []
  | o :: os => writeFix o ++ writeFixes os
end

def convertFix : (t : CppType Unit) → Obj → Option (Value (fun _ => Int) t)
  | .string, .str s => some s
  | .string, .bin s => some s
  | .other (), .int i => some i
  | _, _ => none

def toObjFix : (t : CppType Unit) → Value (fun _ => Int) t → Obj
  | .string, s => .str s
  | .other (), i => .int i

/-- The codec on short strings, small integers and short arrays of these. -/
def fixCodec : Codec Unit (fun _ => Int) where
  pack := writeFix
  unpack bs := (readFix 8 bs).map Prod.fst
  toObj := toObjFix
  convert := convertFix
  convertTuple := leading convertFix

theorem fixCodec_documented : fixCodec.Documented where
  convert_string _ := rfl
  convertTuple_leading _ _ _ := rfl

/-! The format str 32: the length of a long string in four bytes, high byte first. -/

def writeWide : Obj → Bytes
  | .str s =>
    if 2 ^ 16 ≤ s.length then 0xdb :: ByteOrder.big.image (UInt32.ofNat s.length) ++ s
    else writeFix (.str s)
  | o => writeFix o

def readWide : Bytes → Option Obj
  | 0xdb :: b0 :: b1 :: b2 :: b3 :: bs =>
    if (ByteOrder.big.word [b0, b1, b2, b3]).toNat ≤ bs.length then
      some (.str (bs.take (ByteOrder.big.word [b0, b1, b2, b3]).toNat))
    else none
  | bs => fixCodec.unpack bs

/-- The codec on long strings as well. -/
def wideCodec : Codec Unit (fun _ => Int) := { fixCodec with pack := writeWide, unpack := readWide }

theorem wideCodec_documented : wideCodec.Documented where
  convert_string _ := rfl
  convertTuple_leading _ _ _ := rfl

theorem writeWide_str {s : Bytes} (h : 2 ^ 16 ≤ s.length) :
    writeWide (.str s) = 0xdb :: ByteOrder.big.image (UInt32.ofNat s.length) ++ s := by
  rw [writeWide, if_pos h]

theorem readWide_writeWide {s : Bytes} (h : 2 ^ 16 ≤ s.length) (hs : s.length < 2 ^ 32) :
    readWide (writeWide (.str s)) = some (.str s) := by
  have hword : ∀ w : UInt32, ByteOrder.big.word
      [byteAt w 3, byteAt w 2, byteAt w 1, byteAt w 0] = w := word_image .big
  have hlen : (UInt32.ofNat s.length).toNat = s.length := UInt32.toNat_ofNat_of_lt' hs
  rw [writeWide_str h]
  simp only [ByteOrder.image, List.cons_append, List.nil_append, readWide, hword, hlen,
    Nat.le_refl, if_true, List.take_length]

theorem wideCodec_pack_length {text : Bytes} (h : 2 ^ 16 ≤ text.length) :
    (wideCodec.pack (.str text)).length = text.length + 5 := by
  change (writeWide (.str text)).length = _
  rw [writeWide_str h]
  simp only [List.cons_append, List.length_cons, List.length_append, image_length]
  omega

theorem wideCodec_unpack_pack {text : Bytes} (h : 2 ^ 16 ≤ text.length)
    (hs : text.length < 2 ^ 32) :
    wideCodec.unpack (wideCodec.pack (.str text)) = some (.str text) := readWide_writeWide h hs

end Dousi.Core.Msgpack
