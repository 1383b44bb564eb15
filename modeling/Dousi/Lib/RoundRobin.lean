import Mathlib.Tactic.Common

/-!
# Taking turns

`turns size k n` are the places that `n` calls in a row take among `size`, the first of
them being call number `k`.
-/
namespace Dousi.Lib.RoundRobin

def turns (size k n : Nat) : List Nat := (List.range' k n).map (· % size)

theorem turns_succ (size k n : Nat) : turns size k (n + 1) = k % size :: turns size (k + 1) n := rfl

@[simp] theorem turns_length (size k n : Nat) : (turns size k n).length = n := by
  rw [turns, List.length_map, List.length_range']

theorem turns_get (size k : Nat) {n i : Nat} (h : i < n) :
    (turns size k n)[i]? = some ((k + i) % size) := by
  rw [turns, List.getElem?_map, List.getElem?_range' h, Nat.one_mul]
  rfl

/-- Call `n` is the turn of `a` when `n + (size - a)` is a multiple of `size`. -/
theorem turn_iff {size a : Nat} (ha : a < size) (n : Nat) :
    n % size = a ↔ size ∣ n + (size - 1 - a) + 1 := by
  have hr := Nat.mod_lt n (Nat.zero_lt_of_lt ha)
  have hsum : n + (size - 1 - a) + 1 = n + (size - a) := by omega
  rw [hsum, Nat.dvd_iff_mod_eq_zero, ← Nat.mod_add_mod]
  rcases Nat.lt_or_ge (n % size) a with hlt | hge
  · have hrest : n % size + (size - a) < size := by omega
    rw [Nat.mod_eq_of_lt hrest]
    omega
  · have hround : n % size + (size - a) = n % size - a + size := by omega
    have hrest : n % size - a < size := by omega
    rw [hround, Nat.add_mod_right, Nat.mod_eq_of_lt hrest]
    omega

/-- The turns of a place in the first `n` calls. -/
theorem turns_count {size a : Nat} (ha : a < size) (n : Nat) :
    (turns size 0 n).count a = (n + (size - 1 - a)) / size := by
  induction n with
  | zero =>
    rw [Nat.div_eq_of_lt (by omega)]
    rfl
  | succ n ih =>
    have hlast : turns size 0 (n + 1) = turns size 0 n ++ [n % size] := by
      rw [turns, List.range'_concat, List.map_append, Nat.zero_add, Nat.one_mul]
      rfl
    have hnext : n + 1 + (size - 1 - a) = n + (size - 1 - a) + 1 := by omega
    rw [hlast, List.count_append, ih, hnext, Nat.succ_div, List.count_singleton]
    simp only [beq_iff_eq, turn_iff ha]

/-- No place is ahead of another one by more than one turn. -/
theorem turns_balanced {size a b : Nat} (ha : a < size) (hb : b < size) (n : Nat) :
    (turns size 0 n).count a ≤ (turns size 0 n).count b + 1 := by
  rw [turns_count ha, turns_count hb, ← Nat.add_div_right _ (Nat.zero_lt_of_lt ha)]
  exact Nat.div_le_div_right (by omega)

end Dousi.Lib.RoundRobin
