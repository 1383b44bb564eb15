import Dousi.Lib.Decimal

/-!
# Endpoint: a host and a port as one string

The constructor cuts the address at its first `:` and gives the rest to `std::stoi`, which
skips blanks, takes a sign and the longest run of digits, and leaves alone whatever comes
after. The `int` it returns is narrowed to the 16 bits of `port_` without a check.
-/
namespace Dousi.Common

structure Endpoint where
  host : Lib.Word.Bytes
  port : UInt16
  deriving DecidableEq

end Dousi.Common

namespace Dousi.Common.Endpoint

open Dousi.Lib.Word (Bytes)
open Dousi.Lib.Decimal

/-- What the standard library throws. -/
inductive Thrown where
  | invalidArgument
  | outOfRange
  deriving DecidableEq

/-! The standard library -/

/-- `std::isspace` in the C locale. -/
def isBlank (c : UInt8) : Bool := c == 32 || (9 ≤ c && c ≤ 13)

/-- An optional sign, and what follows it. -/
def sign : Bytes → Bool × Bytes
  | 43 :: rest => (false, rest)
  | 45 :: rest => (true, rest)
  | s => (false, s)

def signed (negative : Bool) (n : Nat) : Int := if negative then -(n : Int) else n

/-- The value fits `int`. -/
def IsInt (v : Int) : Prop := -(2 ^ 31) ≤ v ∧ v < 2 ^ 31

instance (v : Int) : Decidable (IsInt v) := inferInstanceAs (Decidable (_ ∧ _))

/-- `std::stoi` in base 10. -/
def stoi (s : Bytes) : Except Thrown Int :=
  let (negative, rest) := sign (s.dropWhile isBlank)
  let digits := rest.takeWhile isDigit
  if digits = [] then .error .invalidArgument
  else if IsInt (signed negative (value digits)) then .ok (signed negative (value digits))
  else .error .outOfRange

/-- `s.find(c)`, with `none` for `npos`. -/
def find (s : Bytes) (c : UInt8) : Option Nat := s.findIdx? (· == c)

/-- `s.substr(pos, n)` for a `pos` within the string. -/
def substr (s : Bytes) (pos n : Nat) : Bytes := (s.drop pos).take n

/-- `Endpoint(address)`. -/
def endpoint (address : Bytes) : Except Thrown Endpoint :=
  match find address 58 with
  | some index =>
    (stoi (substr address (index + 1) address.length)).map fun port =>
      ⟨substr address 0 index, UInt16.ofInt port⟩
  | none =>
    -- substr(0, npos) is the whole string, and npos + 1 is 0
    (stoi (substr address 0 address.length)).map fun port => ⟨address, UInt16.ofInt port⟩

/-- `std::to_string(port_)` after the host and a `:`. -/
def toString (e : Endpoint) : Bytes := e.host ++ [58] ++ numeral e.port.toNat

/-! What stoi accepts -/

/-- A text that begins with blanks, a sign and at least one digit, and its value. -/
structure Begins (s : Bytes) (negative : Bool) (n : Nat) : Prop where
  shape : ∃ blanks signs digits rest, s = blanks ++ signs ++ digits ++ rest ∧
    (∀ c ∈ blanks, isBlank c = true) ∧
    (signs = [] ∧ negative = false ∨ signs = [43] ∧ negative = false ∨
      signs = [45] ∧ negative = true) ∧
    digits ≠ [] ∧ (∀ c ∈ digits, isDigit c = true) ∧
    (∀ c, rest.head? = some c → isDigit c = false) ∧
    n = value digits

theorem not_blank_of_digit {c : UInt8} (h : isDigit c = true) : isBlank c = false := by
  have hc := (isDigit_iff c).mp h
  have h32 : c ≠ 32 := by rintro rfl; exact absurd hc.1 (by decide)
  have h13 : ¬ c ≤ 13 := fun hle => absurd (UInt8.le_iff_toNat_le.mp hle) (by
    change ¬ c.toNat ≤ 13
    omega)
  simp [isBlank, h32, h13]

theorem takeWhile_digits {digits rest : Bytes} (hd : ∀ c ∈ digits, isDigit c = true)
    (hrest : ∀ c, rest.head? = some c → isDigit c = false) :
    (digits ++ rest).takeWhile isDigit = digits := by
  rw [List.takeWhile_append_of_pos hd]
  cases rest with
  | nil => simp
  | cons c rest => simp [hrest c rfl]

theorem dropWhile_blanks {blanks rest : Bytes} {c : UInt8}
    (hb : ∀ c ∈ blanks, isBlank c = true) (hc : isBlank c = false) :
    (blanks ++ (c :: rest)).dropWhile isBlank = c :: rest := by
  rw [List.dropWhile_append_of_pos hb, List.dropWhile_cons_of_neg (by simp [hc])]

/-- The parts that the loops of `stoi` find. -/
theorem stoi_parts {s : Bytes} {negative : Bool} {n : Nat} (h : Begins s negative n) :
    ∃ digits rest, sign (s.dropWhile isBlank) = (negative, digits ++ rest) ∧
      (digits ++ rest).takeWhile isDigit = digits ∧ digits ≠ [] ∧ n = value digits := by
  obtain ⟨blanks, signs, digits, rest, rfl, hb, hsign, hne, hd, hrest, hn⟩ := h.shape
  refine ⟨digits, rest, ?_, takeWhile_digits hd hrest, hne, hn⟩
  obtain ⟨c, more, rfl⟩ := List.exists_cons_of_ne_nil hne
  have hc := hd c List.mem_cons_self
  rcases hsign with ⟨rfl, rfl⟩ | ⟨rfl, rfl⟩ | ⟨rfl, rfl⟩
  · rw [List.append_nil, List.append_assoc, List.cons_append,
      dropWhile_blanks hb (not_blank_of_digit hc)]
    have h43 : c ≠ 43 := by rintro rfl; exact absurd hc (by decide)
    have h45 : c ≠ 45 := by rintro rfl; exact absurd hc (by decide)
    simp [sign, h43, h45]
  · rw [List.append_assoc, List.append_assoc, List.singleton_append,
      dropWhile_blanks hb (by decide)]
    rfl
  · rw [List.append_assoc, List.append_assoc, List.singleton_append,
      dropWhile_blanks hb (by decide)]
    rfl

theorem sign_parts (s : Bytes) : ∃ signs,
    s = signs ++ (sign s).2 ∧ (signs = [] ∧ (sign s).1 = false ∨
      signs = [43] ∧ (sign s).1 = false ∨ signs = [45] ∧ (sign s).1 = true) := by
  unfold sign
  split
  · exact ⟨[43], rfl, .inr (.inl ⟨rfl, rfl⟩)⟩
  · exact ⟨[45], rfl, .inr (.inr ⟨rfl, rfl⟩)⟩
  · exact ⟨[], rfl, .inl ⟨rfl, rfl⟩⟩

theorem begins_of_stoi {s : Bytes} {v : Int} (h : stoi s = .ok v) :
    ∃ negative n, Begins s negative n ∧ v = signed negative n ∧ IsInt v := by
  simp only [stoi] at h
  split at h
  · cases h
  · next hne =>
    split at h
    · next hint =>
      cases h
      obtain ⟨signs, hsplit, hsign⟩ := sign_parts (s.dropWhile isBlank)
      refine ⟨_, _, ⟨s.takeWhile isBlank, signs, _,
        (sign (s.dropWhile isBlank)).2.dropWhile isDigit, ?_, ?_, hsign, hne, ?_, ?_, rfl⟩,
        rfl, hint⟩
      · rw [List.append_assoc, List.takeWhile_append_dropWhile, List.append_assoc, ← hsplit,
          List.takeWhile_append_dropWhile]
      · exact List.all_eq_true.mp List.all_takeWhile
      · exact List.all_eq_true.mp List.all_takeWhile
      · intro c hc
        have hhead := List.head?_dropWhile_not isDigit (sign (s.dropWhile isBlank)).2
        rw [hc] at hhead
        exact hhead
    · cases h

theorem stoi_of_begins {s : Bytes} {negative : Bool} {n : Nat} (h : Begins s negative n)
    (hint : IsInt (signed negative n)) : stoi s = .ok (signed negative n) := by
  obtain ⟨digits, rest, hsign, htake, hne, rfl⟩ := stoi_parts h
  simp only [stoi, hsign, htake, if_neg hne, if_pos hint]

/-! Which addresses make an endpoint -/

/-- The host and the text given to `stoi`: what is before and behind the first `:`, and
the whole address twice when there is none. -/
inductive Parts (address : Bytes) : Bytes → Bytes → Prop
  | colon {host port : Bytes} : 58 ∉ host → address = host ++ 58 :: port →
      Parts address host port
  | noColon : 58 ∉ address → Parts address address address

theorem find_colon {host port : Bytes} (h : 58 ∉ host) :
    find (host ++ 58 :: port) 58 = some host.length := by
  have hnone : host.findIdx? (· == 58) = none :=
    List.findIdx?_eq_none_iff.mpr fun c hc => by simpa using fun heq : c = 58 => h (heq ▸ hc)
  rw [find, List.findIdx?_append, hnone]
  simp [List.findIdx?_cons]

theorem find_none {address : Bytes} (h : 58 ∉ address) : find address 58 = none :=
  List.findIdx?_eq_none_iff.mpr fun c hc => by simpa using fun heq : c = 58 => h (heq ▸ hc)

theorem exists_parts (address : Bytes) : ∃ host port, Parts address host port := by
  by_cases h : 58 ∈ address
  · obtain ⟨host, port, rfl, hhost⟩ := List.eq_append_cons_of_mem h
    exact ⟨host, port, .colon hhost rfl⟩
  · exact ⟨address, address, .noColon h⟩

theorem endpoint_of_parts {address host port : Bytes} (h : Parts address host port) :
    endpoint address = (stoi port).map fun v => ⟨host, UInt16.ofInt v⟩ := by
  cases h with
  | colon hhost heq =>
    subst heq
    have hport : substr (host ++ 58 :: port) (host.length + 1) (host ++ 58 :: port).length =
        port := by
      rw [substr, List.drop_append, List.drop_eq_nil_of_le (by omega)]
      simp only [Nat.add_sub_cancel_left, List.drop_succ_cons, List.drop_zero, List.nil_append]
      exact List.take_of_length_le (by simp only [List.length_append, List.length_cons]; omega)
    have hhost' : substr (host ++ 58 :: port) 0 host.length = host := by
      rw [substr, List.drop_zero, List.take_left]
    simp only [endpoint, find_colon hhost, hport, hhost']
  | noColon hnone =>
    have hall : substr address 0 address.length = address := by
      rw [substr, List.drop_zero, List.take_length]
    simp only [endpoint, find_none hnone, hall]

/-- A host without `:`, one `:`, and digits that give the port. -/
structure WellFormed (address host : Bytes) (port : UInt16) : Prop where
  noColon : 58 ∉ host
  shape : ∃ digits, address = host ++ [58] ++ digits ∧ digits ≠ [] ∧
    (∀ c ∈ digits, isDigit c = true) ∧ value digits = port.toNat

theorem isInt_port (port : UInt16) : IsInt (signed false port.toNat) := by
  have h := port.toNat_lt
  simp only [IsInt, signed, Bool.false_eq_true, if_false]
  omega

theorem ofInt_port (port : UInt16) : UInt16.ofInt (signed false port.toNat) = port := by
  have h := port.toNat_lt
  apply UInt16.toNat_inj.mp
  simp only [signed, Bool.false_eq_true, if_false, UInt16.ofInt]
  have hmod : ((port.toNat : Int) % 2 ^ 16).toNat = port.toNat := by omega
  rw [hmod, UInt16.ofNat_toNat]

theorem endpoint_wellFormed {address host : Bytes} {port : UInt16}
    (h : WellFormed address host port) : endpoint address = .ok ⟨host, port⟩ := by
  obtain ⟨digits, heq, hne, hdigits, hvalue⟩ := h.shape
  have hparts : Parts address host digits := .colon h.noColon (by rw [heq]; simp)
  have hbegins : Begins digits false port.toNat :=
    ⟨[], [], digits, [], by simp, by simp, .inl ⟨rfl, rfl⟩, hne, hdigits, by simp, hvalue.symm⟩
  rw [endpoint_of_parts hparts, stoi_of_begins hbegins (isInt_port port)]
  simp only [Except.map, ofInt_port]

/-- The constructor builds the endpoint of a well-formed address and throws on any other. -/
structure Exact (address : Bytes) : Prop where
  builds : ∀ host port, WellFormed address host port → endpoint address = .ok ⟨host, port⟩
  throws : (¬ ∃ host port, WellFormed address host port) →
    ∃ thrown, endpoint address = .error thrown

/-- The text for the port begins like a number that fits `int`. -/
def Lenient (address : Bytes) : Prop :=
  ∃ host port negative n, Parts address host port ∧ Begins port negative n ∧
    IsInt (signed negative n)

theorem endpoint_ok_iff (address : Bytes) :
    (∃ e, endpoint address = .ok e) ↔ Lenient address := by
  constructor
  · rintro ⟨e, he⟩
    obtain ⟨host, port, hparts⟩ := exists_parts address
    rw [endpoint_of_parts hparts] at he
    cases hv : stoi port with
    | error thrown => rw [hv] at he; cases he
    | ok v =>
      obtain ⟨negative, n, hbegins, rfl, hint⟩ := begins_of_stoi hv
      exact ⟨host, port, negative, n, hparts, hbegins, hint⟩
  · rintro ⟨host, port, negative, n, hparts, hbegins, hint⟩
    exact ⟨_, by rw [endpoint_of_parts hparts, stoi_of_begins hbegins hint]; rfl⟩

/-- The constructor is exact on an address exactly when the address is well formed or its
text for the port does not even begin like an `int`. -/
theorem exact_iff (address : Bytes) :
    Exact address ↔ (∃ host port, WellFormed address host port) ∨ ¬ Lenient address := by
  constructor
  · intro h
    by_cases hwf : ∃ host port, WellFormed address host port
    · exact .inl hwf
    · obtain ⟨thrown, hthrown⟩ := h.throws hwf
      refine .inr fun hlenient => ?_
      obtain ⟨e, he⟩ := (endpoint_ok_iff address).mpr hlenient
      rw [hthrown] at he
      cases he
  · intro h
    refine ⟨fun host port hwf => endpoint_wellFormed hwf, fun hno => ?_⟩
    cases he : endpoint address with
    | error thrown => exact ⟨thrown, rfl⟩
    | ok e => exact absurd ((endpoint_ok_iff address).mp ⟨e, he⟩) (h.resolve_left hno)

/-- `"127.0.0.1:100001"`, the address of the server example. -/
def exampleAddress : Bytes :=
  [49, 50, 55, 46, 48, 46, 48, 46, 49, 58, 49, 48, 48, 48, 48, 49]

/-- It makes an endpoint with port 34465. -/
theorem exampleAddress_narrowed :
    endpoint exampleAddress = .ok ⟨[49, 50, 55, 46, 48, 46, 48, 46, 49], 34465⟩ ∧
    ¬ Exact exampleAddress := by
  have hrun : endpoint exampleAddress = .ok ⟨[49, 50, 55, 46, 48, 46, 48, 46, 49], 34465⟩ := by
    decide
  refine ⟨hrun, fun h => ?_⟩
  have hno : ¬ ∃ host port, WellFormed exampleAddress host port := by
    rintro ⟨host, port, hwf⟩
    have hsame := (endpoint_wellFormed hwf).symm.trans hrun
    obtain ⟨rfl, rfl⟩ := Endpoint.mk.inj (Except.ok.inj hsame)
    obtain ⟨digits, heq, -, -, hvalue⟩ := hwf.shape
    have hsplit : [49, 50, 55, 46, 48, 46, 48, 46, 49, 58] ++ [49, 48, 48, 48, 48, 49] =
        [49, 50, 55, 46, 48, 46, 48, 46, 49, 58] ++ digits := heq
    obtain rfl := List.append_cancel_left hsplit
    exact absurd hvalue (by decide)
  obtain ⟨thrown, hthrown⟩ := h.throws hno
  rw [hrun] at hthrown
  cases hthrown

/-! Printing and parsing -/

theorem wellFormed_toString {e : Endpoint} (h : 58 ∉ e.host) :
    WellFormed e.toString e.host e.port :=
  ⟨h, numeral e.port.toNat, rfl, numeral_ne_nil _, numeral_digits _, value_numeral _⟩

/-- Parsing undoes printing, printing is injective, and it undoes parsing on addresses
whose port is written without leading zeros. -/
theorem toString_inverse :
    (∀ e : Endpoint, 58 ∉ e.host → endpoint e.toString = .ok e) ∧
    (∀ e e' : Endpoint, 58 ∉ e.host → 58 ∉ e'.host → e.toString = e'.toString → e = e') ∧
    ∀ host digits : Bytes, 58 ∉ host → Canonical digits → value digits ≤ 65535 →
      ∃ e, endpoint (host ++ [58] ++ digits) = .ok e ∧
        e.toString = host ++ [58] ++ digits := by
  have hback : ∀ e : Endpoint, 58 ∉ e.host → endpoint e.toString = .ok e := fun e he =>
    endpoint_wellFormed (wellFormed_toString he)
  refine ⟨hback, fun e e' he he' heq => ?_, fun host digits hhost hdigits hle => ?_⟩
  · have hparsed := (hback e he).symm.trans ((congrArg endpoint heq).trans (hback e' he'))
    exact Except.ok.inj hparsed
  · have hport : (UInt16.ofNat (value digits)).toNat = value digits :=
      UInt16.toNat_ofNat_of_lt' (Nat.lt_succ_of_le hle)
    refine ⟨⟨host, UInt16.ofNat (value digits)⟩, endpoint_wellFormed
      ⟨hhost, digits, rfl, hdigits.nonempty, hdigits.onlyDigits, hport.symm⟩, ?_⟩
    rw [toString, hport, numeral_value hdigits]

/-- The endpoint `h:80`. -/
theorem toString_inverse_h80 :
    endpoint (Endpoint.toString ⟨[104], 80⟩) = .ok ⟨[104], 80⟩ ∧
    (Endpoint.toString ⟨[104], 80⟩ = Endpoint.toString ⟨[104], 80⟩ →
      (⟨[104], 80⟩ : Endpoint) = ⟨[104], 80⟩) ∧
    ∃ e, endpoint ([104] ++ [58] ++ [56, 48]) = .ok e ∧
      e.toString = [104] ++ [58] ++ [56, 48] :=
  ⟨toString_inverse.1 ⟨[104], 80⟩ (by decide),
    toString_inverse.2.1 ⟨[104], 80⟩ ⟨[104], 80⟩ (by decide) (by decide),
    toString_inverse.2.2 [104] [56, 48] (by decide)
      ⟨by simp [isDigit], by decide, fun h => absurd h (by decide)⟩ (by decide)⟩

end Dousi.Common.Endpoint
