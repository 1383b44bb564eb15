import Mathlib.Data.Multiset.AddSub
import Mathlib.Data.Multiset.MapFold
import Mathlib.Data.Multiset.UnionInter
import Mathlib.Logic.Function.Basic

/-!
# Who owns the objects of a heap

A heap gives the object at an address, if there is one. The holders are the addresses that a
program keeps somewhere, each with the kind of object it takes to be there. When every object
has one holder, using what is held is safe, and what is held by nobody is not there.
-/
namespace Dousi.Lib.Ownership

variable {A C K : Type} {kind : C → K} {heap : A → Option C} {holders rest : Multiset (A × K)}

/-- Every object is held once, under its kind, and nothing else is held. -/
structure Owned (kind : C → K) (heap : A → Option C) (holders : Multiset (A × K)) : Prop where
  live : ∀ a k, (a, k) ∈ holders ↔ ∃ c, heap a = some c ∧ kind c = k
  once : (holders.map Prod.fst).Nodup

theorem owned_nothing (kind : C → K) : Owned kind (fun _ : A => none) 0 :=
  ⟨by simp, Multiset.nodup_zero⟩

theorem Owned.get (h : Owned kind heap holders) {a : A} {k : K} (ha : (a, k) ∈ holders) :
    ∃ c, heap a = some c ∧ kind c = k := (h.live a k).mp ha

theorem Owned.not_held (h : Owned kind heap holders) {a : A} (ha : heap a = none) (k : K) :
    (a, k) ∉ holders := by
  intro hmem
  obtain ⟨c, hc, -⟩ := h.get hmem
  rw [ha] at hc
  cases hc

/-- Nothing is there that nobody holds. -/
theorem Owned.none_of_not_held (h : Owned kind heap holders) {a : A}
    (ha : ∀ k, (a, k) ∉ holders) : heap a = none := by
  cases hc : heap a with
  | none => rfl
  | some c => exact absurd ((h.live a (kind c)).mpr ⟨c, hc, rfl⟩) (ha _)

/-- What is taken from one holder is held by no other. -/
theorem Owned.not_held_rest {x : A × K} (h : Owned kind heap (rest + {x})) (k : K) :
    (x.1, k) ∉ rest := by
  intro hmem
  have hnodup := h.once
  rw [Multiset.map_add, Multiset.map_singleton] at hnodup
  exact Multiset.disjoint_left.mp (Multiset.nodup_add.mp hnodup).2.2
    (Multiset.mem_map_of_mem Prod.fst hmem) (Multiset.mem_singleton_self _)

variable [DecidableEq A]

/-- A new object, at an address where there is none. -/
theorem Owned.alloc (h : Owned kind heap holders) {a : A} (ha : heap a = none) (c : C) :
    Owned kind (Function.update heap a (some c)) (holders + {(a, kind c)}) := by
  constructor
  · intro b k
    rw [Multiset.mem_add, Multiset.mem_singleton]
    by_cases hb : b = a
    · subst hb
      simp [h.not_held ha k, eq_comm]
    · simp [h.live, hb]
  · rw [Multiset.map_add, Multiset.map_singleton, Multiset.nodup_add]
    refine ⟨h.once, Multiset.nodup_singleton _, Multiset.disjoint_right.mpr fun hb hmem => ?_⟩
    obtain ⟨x, hheld, rfl⟩ := Multiset.mem_map.mp hmem
    obtain rfl : x.1 = a := Multiset.mem_singleton.mp hb
    exact h.not_held ha x.2 hheld

/-- The object is deleted by its holder. -/
theorem Owned.free {x : A × K} (h : Owned kind heap (rest + {x})) :
    Owned kind (Function.update heap x.1 none) rest := by
  have hgone := h.not_held_rest
  constructor
  · intro b k
    by_cases hb : b = x.1
    · subst hb
      simp [hgone k]
    · have hlive := h.live b k
      rw [Multiset.mem_add, Multiset.mem_singleton] at hlive
      rw [Function.update_of_ne hb, ← hlive]
      refine ⟨.inl, fun hmem => hmem.resolve_right ?_⟩
      rintro rfl
      exact hb rfl
  · have hnodup := h.once
    rw [Multiset.map_add] at hnodup
    exact (Multiset.nodup_add.mp hnodup).1

end Dousi.Lib.Ownership
