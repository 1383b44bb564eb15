import Mathlib.Logic.Function.Basic

/-!
# Threads and one mutex

`inside x` says that thread `x` is at a point of its code between locking and unlocking.
What a system has to keep is that such a thread is the owner of the mutex.
-/
namespace Dousi.Lib.Mutex

variable {Θ : Type} {inside : Θ → Bool} {mutex : Option Θ}

/-- Only the owner is inside. -/
def Exclusive (inside : Θ → Bool) (mutex : Option Θ) : Prop :=
  ∀ x, inside x = true → mutex = some x

theorem Exclusive.unique (h : Exclusive inside mutex) {x y : Θ} (hx : inside x = true)
    (hy : inside y = true) : x = y :=
  Option.some.inj ((h x hx).symm.trans (h y hy))

variable [DecidableEq Θ]

/-- A thread goes on without locking or unlocking. -/
theorem Exclusive.keep (h : Exclusive inside mutex) {x : Θ} {b : Bool} (hb : b = inside x) :
    Exclusive (Function.update inside x b) mutex := by
  subst hb
  rwa [Function.update_eq_self]

theorem Exclusive.lock (h : Exclusive inside none) (x : Θ) :
    Exclusive (Function.update inside x true) (some x) := by
  intro y hy
  by_cases hyx : y = x
  · rw [hyx]
  · rw [Function.update_of_ne hyx] at hy
    exact absurd (h y hy) (by simp)

theorem Exclusive.unlock (h : Exclusive inside mutex) {x : Θ} (hx : inside x = true) :
    Exclusive (Function.update inside x false) none := by
  intro y hy
  by_cases hyx : y = x
  · rw [hyx, Function.update_self] at hy
    cases hy
  · rw [Function.update_of_ne hyx] at hy
    exact absurd (h.unique hy hx) hyx

/-- The owner is inside, so that a locked mutex is given back. -/
def Owned (inside : Θ → Bool) (mutex : Option Θ) : Prop :=
  ∀ x, mutex = some x → inside x = true

theorem Owned.keep (h : Owned inside mutex) {x : Θ} {b : Bool} (hb : b = inside x) :
    Owned (Function.update inside x b) mutex := by
  subst hb
  rwa [Function.update_eq_self]

theorem Owned.lock (x : Θ) : Owned (Function.update inside x true) (some x) := by
  rintro y ⟨⟩
  rw [Function.update_self]

omit [DecidableEq Θ] in
theorem Owned.unlock {inside : Θ → Bool} : Owned inside none := by
  rintro x ⟨⟩

end Dousi.Lib.Mutex
