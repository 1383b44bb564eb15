import Mathlib.Tactic.Common

/-!
# Append-only logs

A log only grows at its end, so an entry keeps its position for ever.
-/
namespace Dousi.Lib.Log

variable {α β : Type}

theorem get_append {log : List α} {k : Nat} {x : α} (h : log[k]? = some x) (rest : List α) :
    (log ++ rest)[k]? = some x := by
  rw [List.getElem?_append_left (List.getElem?_eq_some_iff.mp h).1, h]

/-- An entry after one more was appended is an old one or the new one. -/
theorem get_snoc {log : List α} {x y : α} {k : Nat} (h : (log ++ [y])[k]? = some x) :
    log[k]? = some x ∨ (k = log.length ∧ x = y) := by
  rcases Nat.lt_or_ge k log.length with hlt | hge
  · rw [List.getElem?_append_left hlt] at h
    exact .inl h
  · rw [List.getElem?_append_right hge, List.getElem?_singleton] at h
    split at h
    · exact .inr ⟨by omega, (Option.some.inj h).symm⟩
    · cases h

theorem get_last (log : List α) (y : α) : (log ++ [y])[log.length]? = some y := by
  simp

/-- What the last entry says that says anything. -/
def last (f : α → Option β) (log : List α) : Option β := (log.filterMap f).getLast?

theorem last_snoc (f : α → Option β) (log : List α) (x : α) :
    last f (log ++ [x]) = (f x).or (last f log) := by
  rw [last, last, List.filterMap_append]
  cases hx : f x with
  | none => simp [hx]
  | some b => simp [hx]

theorem last_cons (f : α → Option β) (x : α) (log : List α) :
    last f (x :: log) = (last f log).or (f x) := by
  rw [last, last, List.filterMap_cons]
  cases f x with
  | none => exact Option.or_none.symm
  | some b =>
    rw [List.getLast?_cons]
    cases (log.filterMap f).getLast? <;> rfl

/-- What is said before a position stays what it was when the log grows. -/
theorem take_append_of_get {log : List α} {i : Nat} {x : α} (h : log[i]? = some x)
    (rest : List α) : (log ++ rest).take i = log.take i :=
  List.take_append_of_le_length (Nat.le_of_lt (List.getElem?_eq_some_iff.mp h).1)

/-- Changing one entry changes a count by what the entry counts for. -/
theorem countP_modify (q : α → Bool) (f : α → α) {log : List α} {k : Nat} {x : α}
    (h : log[k]? = some x) :
    (log.modify k f).countP q + (q x).toNat = log.countP q + (q (f x)).toNat := by
  induction log generalizing k with
  | nil => cases h
  | cons y rest ih =>
    cases k with
    | zero =>
      cases h
      rw [List.modify_zero_cons, List.countP_cons, List.countP_cons]
      cases q x <;> cases q (f x) <;> simp
    | succ k =>
      have hrest := ih (k := k) h
      rw [List.modify_succ_cons, List.countP_cons, List.countP_cons]
      omega

/-- Where every key is used once, only one entry has the key of an entry. -/
theorem filter_key {f : α → β} [DecidableEq β] {log : List α} (h : (log.map f).Nodup) {x : α}
    (hx : x ∈ log) : log.filter (fun y => f y = f x) = [x] := by
  induction log with
  | nil => cases hx
  | cons y rest ih =>
    obtain ⟨hy, hrest⟩ := List.nodup_cons.mp h
    rcases List.mem_cons.mp hx with rfl | hx
    · rw [List.filter_cons_of_pos (by simp), List.filter_eq_nil_iff.mpr fun z hz => ?_]
      simpa using fun heq => hy (List.mem_map.mpr ⟨z, hz, heq⟩)
    · have hne : f y ≠ f x := fun heq => hy (heq ▸ List.mem_map_of_mem hx)
      rw [List.filter_cons_of_neg (by simpa using hne), ih hrest hx]

end Dousi.Lib.Log
