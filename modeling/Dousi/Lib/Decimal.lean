import Dousi.Lib.Word
import Mathlib.Data.Nat.Digits.Defs

/-!
# Decimal numerals as byte strings

ASCII digits, the most significant one first. `value` reads any run of digits, `numeral`
writes a number without leading zeros.
-/
namespace Dousi.Lib.Decimal

open Dousi.Lib.Word (Bytes)

def isDigit (c : UInt8) : Bool := 48 ≤ c && c ≤ 57

def digitOf (c : UInt8) : Nat := c.toNat - 48

def digitByte (d : Nat) : UInt8 := UInt8.ofNat (d + 48)

/-- The digit loop: each digit multiplies by ten what was read before it. -/
def value (digits : Bytes) : Nat := digits.foldl (fun n c => digitOf c + 10 * n) 0

def numeral (n : Nat) : Bytes :=
  if n = 0 then [48] else (Nat.digits 10 n).reverse.map digitByte

/-- A numeral as `numeral` writes it: digits, and a leading zero only alone. -/
structure Canonical (digits : Bytes) : Prop where
  onlyDigits : ∀ c ∈ digits, isDigit c = true
  nonempty : digits ≠ []
  leading : digits.head? = some 48 → digits = [48]

theorem isDigit_iff (c : UInt8) : isDigit c = true ↔ 48 ≤ c.toNat ∧ c.toNat ≤ 57 := by
  simp only [isDigit, Bool.and_eq_true, decide_eq_true_eq, UInt8.le_iff_toNat_le]
  exact Iff.rfl

theorem digitByte_toNat {d : Nat} (h : d < 10) : (digitByte d).toNat = d + 48 := by
  rw [digitByte, UInt8.toNat_ofNat_of_lt']
  change d + 48 < 256
  omega

theorem isDigit_digitByte {d : Nat} (h : d < 10) : isDigit (digitByte d) = true := by
  rw [isDigit_iff, digitByte_toNat h]
  omega

theorem digitOf_digitByte {d : Nat} (h : d < 10) : digitOf (digitByte d) = d := by
  rw [digitOf, digitByte_toNat h]
  omega

theorem digitOf_lt {c : UInt8} (h : isDigit c = true) : digitOf c < 10 := by
  have hc := (isDigit_iff c).mp h
  simp only [digitOf]
  omega

theorem digitByte_digitOf {c : UInt8} (h : isDigit c = true) : digitByte (digitOf c) = c := by
  have hc := (isDigit_iff c).mp h
  rw [digitByte, digitOf, Nat.sub_add_cancel hc.1]
  exact UInt8.ofNat_toNat

/-- The digit loop evaluates the digits from the least significant one on. -/
theorem value_eq_ofDigits (digits : Bytes) :
    value digits = Nat.ofDigits 10 (digits.reverse.map digitOf) := by
  rw [Nat.ofDigits_eq_foldr, List.foldr_map, List.foldr_reverse]
  rfl

theorem numeral_digits (n : Nat) : ∀ c ∈ numeral n, isDigit c = true := by
  intro c hc
  unfold numeral at hc
  split at hc
  · rw [List.mem_singleton.mp hc]
    decide
  · obtain ⟨d, hd, rfl⟩ := List.mem_map.mp hc
    exact isDigit_digitByte (Nat.digits_lt_base (by decide) (List.mem_reverse.mp hd))

theorem numeral_ne_nil (n : Nat) : numeral n ≠ [] := by
  unfold numeral
  split
  · exact List.cons_ne_nil _ _
  · next hn => simpa [Nat.digits_eq_nil_iff_eq_zero] using hn

/-- Reading what was written. -/
theorem value_numeral (n : Nat) : value (numeral n) = n := by
  unfold numeral
  split
  · next hn => rw [hn]; rfl
  · have hdigits : (Nat.digits 10 n).map (digitOf ∘ digitByte) = Nat.digits 10 n := by
      conv_rhs => rw [← List.map_id (Nat.digits 10 n)]
      exact List.map_congr_left fun d hd =>
        digitOf_digitByte (Nat.digits_lt_base (by decide) hd)
    rw [value_eq_ofDigits, ← List.map_reverse, List.reverse_reverse, List.map_map, hdigits,
      Nat.ofDigits_digits]

/-- Writing what was read. -/
theorem numeral_value {digits : Bytes} (h : Canonical digits) :
    numeral (value digits) = digits := by
  by_cases hzero : digits.head? = some 48
  · rw [h.leading hzero]
    rfl
  · obtain ⟨c, rest, rfl⟩ := List.exists_cons_of_ne_nil h.nonempty
    have hlt : ∀ d ∈ (c :: rest).reverse.map digitOf, d < 10 := by
      intro d hd
      obtain ⟨c', hc', rfl⟩ := List.mem_map.mp hd
      exact digitOf_lt (h.onlyDigits c' (List.mem_reverse.mp hc'))
    have hc : digitOf c ≠ 0 := by
      intro hc
      have hdigit := (isDigit_iff c).mp (h.onlyDigits c List.mem_cons_self)
      have hbyte : c = 48 := by
        apply UInt8.toNat_inj.mp
        change c.toNat = 48
        simp only [digitOf] at hc
        omega
      exact hzero (by rw [hbyte]; rfl)
    have hread : Nat.digits 10 (value (c :: rest)) = (c :: rest).reverse.map digitOf := by
      rw [value_eq_ofDigits]
      exact Nat.digits_ofDigits 10 (by decide) _ hlt (fun _ => by simpa using hc)
    have hne : value (c :: rest) ≠ 0 := by
      intro hv
      rw [hv, Nat.digits_zero] at hread
      simp at hread
    have hback : (c :: rest).map (digitByte ∘ digitOf) = c :: rest := by
      conv_rhs => rw [← List.map_id (c :: rest)]
      exact List.map_congr_left fun c' hc' => digitByte_digitOf (h.onlyDigits c' hc')
    rw [numeral, if_neg hne, hread, ← List.map_reverse, List.reverse_reverse, List.map_map, hback]

end Dousi.Lib.Decimal
