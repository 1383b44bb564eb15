import Dousi.Executor.InvokeHelper

/-!
# Which argument lists execute a method

The request is decoded twice: its two leading strings by `InvokeMethod`, then all of
it at the parameter types of the method. The second decoding looks at the leading
elements only, as the first one relies on, so surplus arguments go unnoticed.
-/
namespace Dousi.Executor.SignatureValidation

open Dousi.Lib.Word
open Dousi.Lib.Transition
open Dousi.Core.Msgpack
open Request Services InvokeHelper

variable {τ : Type} {El : τ → Type} {σ : Type}

/-- One argument for each parameter, and every argument converts. -/
inductive Converts (mp : Codec τ El) :
    (ts : List (CppType τ)) → List Obj → Tuple El ts → Prop
  | nil : Converts mp [] [] ()
  | cons {t : CppType τ} {ts : List (CppType τ)} {o : Obj} {os : List Obj} {v : Value El t}
      {rest : Tuple El ts} : mp.convert t o = some v → Converts mp ts os rest →
      Converts mp (t :: ts) (o :: os) (v, rest)

theorem converts_iff {mp : Codec τ El} (ts : List (CppType τ)) (os : List Obj)
    (values : Tuple El ts) : Converts mp ts os values ↔
      os.length = ts.length ∧ leading mp.convert ts os = some values := by
  induction ts generalizing os with
  | nil =>
    constructor
    · rintro ⟨⟩; exact ⟨rfl, rfl⟩
    · rintro ⟨hlen, _⟩
      obtain rfl := List.length_eq_zero_iff.mp hlen
      exact .nil
  | cons t ts ih =>
    constructor
    · intro h
      cases h with
      | cons hv hrest =>
        obtain ⟨hlen, hl⟩ := (ih _ _).mp hrest
        exact ⟨by simp [hlen], (leading_cons ..).mpr ⟨hv, hl⟩⟩
    · rintro ⟨hlen, hl⟩
      cases os with
      | nil => simp at hlen
      | cons o os =>
        obtain ⟨v, rest⟩ := values
        obtain ⟨hv, hrest⟩ := (leading_cons ..).mp hl
        exact .cons hv ((ih _ _).mpr ⟨by simpa using hlen, hrest⟩)

/-- The method is executed once, with the converted values, when the arguments match
its parameters, and is not executed otherwise. -/
structure Validated (mp : Codec τ El) (b : Bound (MethodType El σ)) (args : List Obj)
    (before after : List (Execution El σ)) : Prop where
  matching : ∀ values, Converts mp b.method.params args values →
    after = before ++ [⟨b.service, b.method, values⟩]
  other : (¬ ∃ values, Converts mp b.method.params args values) → after = before

/-- More arguments than parameters, the leading ones of the right types. -/
def Surplus (mp : Codec τ El) (params : List (CppType τ)) (args : List Obj) : Prop :=
  params.length < args.length ∧ (leading mp.convert params args).isSome

/-- Fewer arguments than parameters, and the library makes a tuple of them. -/
def Defaulted (mp : Codec τ El) (params : List (CppType τ)) (s m : Bytes) (args : List Obj) :
    Prop :=
  args.length < params.length ∧ (mp.asTuple (serviceNameAndMethodNameWithArgs params)
    (.array (.str s :: .str m :: args))).isSome

/-- With no fewer arguments than parameters, the second decoding looks at the
leading ones only. -/
theorem asTuple_leading {mp : Codec τ El} (hmp : mp.Documented) (params : List (CppType τ))
    (s m : Bytes) {args : List Obj} (h : params.length ≤ args.length) :
    mp.asTuple (serviceNameAndMethodNameWithArgs params) (.array (.str s :: .str m :: args)) =
      (leading mp.convert params args).map (withNames s m) := by
  have hm : leading mp.convert (.string :: params) (.str m :: args) =
      (leading mp.convert params args).map fun values => (m, values) := by
    rw [leading, hmp.convert_string]
    rfl
  have hs := Codec.asTuple_string hmp (.string :: params) s (.str m :: args) (by simpa using h)
  rw [hm] at hs
  exact hs.trans (Option.map_map ..)

/-- A body that executes nothing or one call, by the second decoding. -/
theorem executed_cases (mp : Codec τ El) (b : Bound (MethodType El σ)) (unpacked : Obj)
    (w : Objects El σ) :
    (mp.asTuple (serviceNameAndMethodNameWithArgs b.method.params) unpacked = none ∧
      (invoke mp b unpacked w).1.executed = w.executed) ∨
    ∃ tuple, mp.asTuple (serviceNameAndMethodNameWithArgs b.method.params) unpacked = some tuple ∧
      (invoke mp b unpacked w).1.executed =
        w.executed ++ [⟨b.service, b.method, argsOf tuple⟩] := by
  cases h : mp.asTuple (serviceNameAndMethodNameWithArgs b.method.params) unpacked with
  | none => exact .inl ⟨rfl, by rw [invoke_none h]⟩
  | some tuple => exact .inr ⟨tuple, rfl, invoke_executed h w⟩

/-- Arguments that do not match are rejected exactly when the second decoding throws. -/
theorem validated_unmatched {mp : Codec τ El} {b : Bound (MethodType El σ)} {args : List Obj}
    {unpacked : Obj} {w : Objects El σ}
    (h : ¬ ∃ values, Converts mp b.method.params args values) :
    Validated mp b args w.executed (invoke mp b unpacked w).1.executed ↔
      ¬ (mp.asTuple (serviceNameAndMethodNameWithArgs b.method.params) unpacked).isSome := by
  rcases executed_cases mp b unpacked w with ⟨hn, he⟩ | ⟨tuple, hs, he⟩
  · rw [hn, he]
    exact ⟨fun _ => by simp, fun _ => ⟨fun values hv => absurd ⟨values, hv⟩ h, fun _ => rfl⟩⟩
  · rw [hs, he]
    refine ⟨fun hv => absurd (hv.other h) (by simp), fun hn => absurd rfl hn⟩

/-- A request to a registered method is validated exactly when it has neither
surplus arguments after matching ones nor too few that the library fills up. -/
theorem validated_iff {mp : Codec τ El} (hmp : mp.Documented)
    {r : Registry (MethodType El σ)} {body s m : Bytes} {args : List Obj}
    {b : Bound (MethodType El σ)} (hb : mp.unpack body = some (.array (.str s :: .str m :: args)))
    (hr : r.registeredMethods m = some b) (streamId : UInt64) (objectId : UInt32)
    (w : Objects El σ) :
    Validated mp b args w.executed (handle mp r streamId objectId body w).1.executed ↔
      ¬ Surplus mp b.method.params args ∧ ¬ Defaulted mp b.method.params s m args := by
  rw [handle_array hmp hb hr]
  have hlead := @asTuple_leading _ _ _ hmp b.method.params s m args
  rcases Nat.lt_trichotomy args.length b.method.params.length with hlt | heq | hgt
  · have hn : ¬ ∃ values, Converts mp b.method.params args values := fun ⟨values, hv⟩ =>
      absurd ((converts_iff ..).mp hv).1 (Nat.ne_of_lt hlt)
    rw [validated_unmatched hn]
    simp [Surplus, Defaulted, hlt, Nat.not_lt_of_lt hlt]
  · have hall : Validated mp b args w.executed
        (invoke mp b (.array (.str s :: .str m :: args)) w).1.executed := by
      cases hl : leading mp.convert b.method.params args with
      | none =>
        have hn : ¬ ∃ values, Converts mp b.method.params args values := fun ⟨values, hv⟩ =>
          absurd (((converts_iff ..).mp hv).2.symm.trans hl) (by simp)
        rw [validated_unmatched hn, hlead (Nat.le_of_eq heq.symm), hl]
        simp
      | some values =>
        have hv : Converts mp b.method.params args values := (converts_iff ..).mpr ⟨heq, hl⟩
        have htuple := hlead (Nat.le_of_eq heq.symm)
        rw [hl, Option.map_some] at htuple
        rw [invoke_executed htuple, argsOf_withNames]
        refine ⟨fun values' hv' => ?_, fun hn => absurd ⟨values, hv⟩ hn⟩
        have he := ((converts_iff ..).mp hv').2.symm.trans hl
        rw [Option.some.inj he]
    simp [hall, Surplus, Defaulted, heq]
  · have hn : ¬ ∃ values, Converts mp b.method.params args values := fun ⟨values, hv⟩ =>
      absurd ((converts_iff ..).mp hv).1 (Nat.ne_of_gt hgt)
    rw [validated_unmatched hn, hlead (Nat.le_of_lt hgt), Option.isSome_map]
    simp [Surplus, Defaulted, hgt, Nat.not_lt_of_lt hgt]

/-- `int add(int, int)`. -/
def add : MethodType (fun _ : Unit => Int) Unit :=
  ⟨[.other (), .other ()], some (.other ()), fun _ args => ((), some (Int.add args.1 args.2.1))⟩

/-- A service `C` with the method `add`. -/
def calculator : List (Op (MethodType (fun _ : Unit => Int) Unit)) :=
  [.createService [67], .registerMethod 0 ⟨[97, 100, 100], add⟩]

/-- A request with the arguments 1, 2 and 3 executes `add(1, 2)`. -/
theorem add_surplus : ∃ r, run step empty calculator = some r ∧
    fixCodec.Documented ∧
    fixCodec.unpack [0x95, 0xa1, 67, 0xa3, 97, 100, 100, 1, 2, 3] =
      some (.array [.str [67], .str [97, 100, 100], .int 1, .int 2, .int 3]) ∧
    r.registeredMethods [97, 100, 100] = some ⟨0, add⟩ ∧
    (handle fixCodec r 0 0 [0x95, 0xa1, 67, 0xa3, 97, 100, 100, 1, 2, 3]
      ⟨fun _ => (), []⟩).1.executed = [⟨0, add, ((1 : Int), (2 : Int), ())⟩] ∧
    ¬ Validated fixCodec ⟨0, add⟩ [.int 1, .int 2, .int 3] []
      (handle fixCodec r 0 0 [0x95, 0xa1, 67, 0xa3, 97, 100, 100, 1, 2, 3]
        ⟨fun _ => (), []⟩).1.executed := by
  obtain ⟨r, hr⟩ : ∃ r, run step empty calculator = some r := ⟨_, rfl⟩
  have hbody : fixCodec.unpack [0x95, 0xa1, 67, 0xa3, 97, 100, 100, 1, 2, 3] =
      some (.array [.str [67], .str [97, 100, 100], .int 1, .int 2, .int 3]) := rfl
  have hadd : r.registeredMethods [97, 100, 100] = some ⟨0, add⟩ := by cases hr; rfl
  have hrun : (handle fixCodec r 0 0 [0x95, 0xa1, 67, 0xa3, 97, 100, 100, 1, 2, 3]
      ⟨fun _ => (), []⟩).1.executed = [⟨0, add, ((1 : Int), (2 : Int), ())⟩] := by
    rw [handle_array fixCodec_documented hbody hadd]
    rfl
  have hno : ¬ ∃ values, Converts fixCodec add.params [.int 1, .int 2, .int 3] values :=
    fun ⟨values, hv⟩ => absurd ((converts_iff ..).mp hv).1 (by decide)
  refine ⟨r, hr, fixCodec_documented, hbody, hadd, hrun, fun h => ?_⟩
  have hnone := h.other hno
  rw [hrun] at hnone
  cases hnone

theorem validated_add : ∃ r, run step empty calculator = some r ∧
    (Validated fixCodec ⟨0, add⟩ [.int 1, .int 2] []
      (handle fixCodec r 0 0 [0x94, 0xa1, 67, 0xa3, 97, 100, 100, 1, 2]
        ⟨fun _ => (), []⟩).1.executed ↔
      ¬ Surplus fixCodec add.params [.int 1, .int 2] ∧
        ¬ Defaulted fixCodec add.params [67] [97, 100, 100] [.int 1, .int 2]) := by
  obtain ⟨r, hr⟩ : ∃ r, run step empty calculator = some r := ⟨_, rfl⟩
  have hbody : fixCodec.unpack [0x94, 0xa1, 67, 0xa3, 97, 100, 100, 1, 2] =
      some (.array [.str [67], .str [97, 100, 100], .int 1, .int 2]) := rfl
  have hadd : r.registeredMethods [97, 100, 100] = some ⟨0, add⟩ := by cases hr; rfl
  exact ⟨r, hr, validated_iff fixCodec_documented hbody hadd 0 0 ⟨fun _ => (), []⟩⟩

end Dousi.Executor.SignatureValidation
