import Mathlib.Algebra.BigOperators.Group.Finset.Basic
import Mathlib.Algebra.BigOperators.Ring.Finset
import Mathlib.Algebra.Order.BigOperators.Group.Finset
import Mathlib.Algebra.Order.BigOperators.Group.Multiset
import Mathlib.Data.Fintype.BigOperators
import Mathlib.Tactic.Abel

/-!
# What queues and pools of threads hold

`contents f queue` are the items of a queue or a log, each by its label. `slots i` is
what thread `i` of a pool has in hand and `f` the items in it. Giving one thread
something else changes the items held by the pool by the difference.
-/
namespace Dousi.Lib.Pool

variable {ι α β : Type}

/-- The labels of the items of a queue. -/
def contents (f : α → β) (queue : List α) : Multiset β := queue.map f

@[simp] theorem contents_nil (f : α → β) : contents f [] = 0 := rfl

@[simp] theorem contents_cons (f : α → β) (a : α) (queue : List α) :
    contents f (a :: queue) = {f a} + contents f queue := rfl

@[simp] theorem contents_append (f : α → β) (left right : List α) :
    contents f (left ++ right) = contents f left + contents f right := by
  simp [contents]

variable [Fintype ι]

/-- The items in the hands of all threads. -/
def held (f : α → Multiset β) (slots : ι → α) : Multiset β := ∑ i, f (slots i)

theorem held_update [DecidableEq ι] (f : α → Multiset β) (slots : ι → α) (i : ι) (a : α) :
    held f (Function.update slots i a) + f (slots i) = held f slots + f a := by
  have hcomp : ∀ j, f (Function.update slots i a j) =
      Function.update (fun j => f (slots j)) i (f a) j := by
    intro j
    by_cases hj : j = i
    · subst hj; simp
    · simp [hj]
  have hrest : f (slots i) + ∑ j ∈ Finset.univ.erase i, f (slots j) = held f slots :=
    Finset.add_sum_erase _ (fun j => f (slots j)) (Finset.mem_univ i)
  rw [held, Finset.sum_congr rfl fun j _ => hcomp j,
    Finset.sum_update_of_mem (Finset.mem_univ i), Finset.sdiff_singleton_eq_erase, ← hrest]
  abel

/-- A thread with nothing in hand takes something. -/
theorem held_take [DecidableEq ι] (f : α → Multiset β) (slots : ι → α) (i : ι) (a : α)
    (h : f (slots i) = 0) : held f (Function.update slots i a) = held f slots + f a := by
  rw [← held_update f slots i a, h, add_zero]

/-- A thread lets go of what it has in hand. -/
theorem held_release [DecidableEq ι] (f : α → Multiset β) (slots : ι → α) (i : ι) (a : α)
    (h : f a = 0) : held f (Function.update slots i a) + f (slots i) = held f slots := by
  rw [held_update f slots i a, h, add_zero]

/-- A thread keeps the same items in hand. -/
theorem held_keep [DecidableEq ι] {f : α → Multiset β} {slots : ι → α} {i : ι} {a : α}
    (h : f a = f (slots i)) : held f (Function.update slots i a) = held f slots :=
  add_right_cancel ((held_update f slots i a).trans (by rw [h]))

/-- Threads with nothing in hand. -/
theorem held_idle {f : α → Multiset β} {a : α} (h : f a = 0) : held f (fun _ : ι => a) = 0 :=
  Finset.sum_eq_zero fun _ _ => h

theorem mem_held {f : α → Multiset β} {slots : ι → α} {i : ι} {b : β} (h : b ∈ f (slots i)) :
    b ∈ held f slots :=
  Multiset.mem_of_le (Finset.single_le_sum (fun _ _ => Multiset.zero_le _) (Finset.mem_univ i)) h

theorem held_add (f g : α → Multiset β) (slots : ι → α) :
    held (fun a => f a + g a) slots = held f slots + held g slots :=
  Finset.sum_add_distrib

theorem map_held {γ : Type} (g : β → γ) (f : α → Multiset β) (slots : ι → α) :
    (held f slots).map g = held (fun a => (f a).map g) slots :=
  map_sum (Multiset.mapAddMonoidHom g) _ _

/-- How many threads are of a kind. -/
def number (p : α → Bool) (slots : ι → α) : Nat := ∑ i, (p (slots i)).toNat

theorem number_eq_card (p : α → Bool) (slots : ι → α) :
    number p slots = (held (fun a => Multiset.replicate (p a).toNat ()) slots).card := by
  simp [number, held, Multiset.card_sum]

theorem number_update [DecidableEq ι] (p : α → Bool) (slots : ι → α) (i : ι) (a : α) :
    number p (Function.update slots i a) + (p (slots i)).toNat =
      number p slots + (p a).toNat := by
  have h := congrArg Multiset.card
    (held_update (fun a => Multiset.replicate (p a).toNat ()) slots i a)
  simpa only [Multiset.card_add, Multiset.card_replicate, ← number_eq_card] using h

theorem number_pos {p : α → Bool} {slots : ι → α} (h : 0 < number p slots) :
    ∃ i, p (slots i) = true := by
  obtain ⟨i, -, hi⟩ := Finset.exists_ne_zero_of_sum_ne_zero (Nat.ne_of_gt h)
  refine ⟨i, ?_⟩
  cases hp : p (slots i) with
  | true => rfl
  | false => exact absurd (congrArg Bool.toNat hp) hi

/-- What the threads have in hand, added up. -/
def total (f : α → Nat) (slots : ι → α) : Nat := ∑ i, f (slots i)

theorem total_eq_card (f : α → Nat) (slots : ι → α) :
    total f slots = (held (fun a => Multiset.replicate (f a) ()) slots).card := by
  simp [total, held, Multiset.card_sum]

theorem total_update [DecidableEq ι] (f : α → Nat) (slots : ι → α) (i : ι) (a : α) :
    total f (Function.update slots i a) + f (slots i) = total f slots + f a := by
  have h := congrArg Multiset.card
    (held_update (fun a => Multiset.replicate (f a) ()) slots i a)
  simpa only [Multiset.card_add, Multiset.card_replicate, ← total_eq_card] using h

/-- A bound for each hand is a bound for all of them. -/
theorem total_le_held {f : α → Nat} {g : α → Multiset β} {c : Nat}
    (h : ∀ a, f a ≤ c * (g a).card) (slots : ι → α) :
    total f slots ≤ c * (held g slots).card := by
  rw [total, held, Multiset.card_sum, Finset.mul_sum]
  exact Finset.sum_le_sum fun i _ => h (slots i)

/-- A bound for each thread of a kind, when the others have nothing, is a bound for all. -/
theorem total_le_number {f : α → Nat} {p : α → Bool} {c : Nat}
    (h : ∀ a, f a ≤ c * (p a).toNat) (slots : ι → α) : total f slots ≤ c * number p slots := by
  rw [total, number, Finset.mul_sum]
  exact Finset.sum_le_sum fun i _ => h (slots i)

omit [Fintype ι] in
/-- A part `p` of what a thread has in hand is kept by all threads when the one that takes
something else keeps it. -/
theorem update_keep {γ : Type} [DecidableEq ι] (p : α → γ) {slots : ι → α} {i : ι} {a : α}
    (h : p a = p (slots i)) (j : ι) : p (Function.update slots i a j) = p (slots j) := by
  by_cases hj : j = i
  · subst hj
    rw [Function.update_self, h]
  · rw [Function.update_of_ne hj]

omit [Fintype ι] in
/-- What holds of all hands holds after one of them takes something of the kind. -/
theorem forall_update [DecidableEq ι] {P : α → Prop} {slots : ι → α} (h : ∀ i, P (slots i))
    (i : ι) {a : α} (ha : P a) (j : ι) : P (Function.update slots i a j) := by
  by_cases hj : j = i
  · subst hj
    rw [Function.update_self]
    exact ha
  · rw [Function.update_of_ne hj]
    exact h j

end Dousi.Lib.Pool
