import Mathlib.Tactic.Common

/-!
# Objects behind one interface

An object is a step function that also returns something. `outputs` is what a client sees
of a sequence of operations. Two objects are compared through a relation between their
states, step by step, as long as a condition on the operations holds.
-/
namespace Dousi.Lib.Interface

variable {S T A B : Type}

/-- What the operations return, one after another; `none` when one is not possible. -/
def outputs (step : S → A → Option (S × B)) : S → List A → Option (List B)
  | _, [] => some []
  | s, a :: rest => (step s a).bind fun r => (outputs step r.1 rest).map fun bs => r.2 :: bs

/-- Every operation meets a condition on the state it is done in. -/
def Along (step : S → A → Option (S × B)) (C : S → A → Prop) : S → List A → Prop
  | _, [] => True
  | s, a :: rest => C s a ∧ ∀ r, step s a = some r → Along step C r.1 rest

theorem outputs_cons {step : S → A → Option (S × B)} {s : S} {a : A} {rest : List A} {bs : List B} :
    outputs step s (a :: rest) = some bs ↔
      ∃ r cs, step s a = some r ∧ outputs step r.1 rest = some cs ∧ bs = r.2 :: cs := by
  constructor
  · intro h
    obtain ⟨r, hr, hrest⟩ := Option.bind_eq_some_iff.mp h
    obtain ⟨cs, hcs, rfl⟩ := Option.map_eq_some_iff.mp hrest
    exact ⟨r, cs, hr, hcs, rfl⟩
  · rintro ⟨r, cs, hr, hcs, rfl⟩
    simp only [outputs, hr, Option.bind_some, hcs, Option.map_some]

/-- An object that answers as a specification does exactly when the condition is met
returns what the specification returns exactly when every operation meets it. -/
theorem outputs_eq_iff {step : S → A → Option (S × B)} {spec : T → A → Option (T × B)}
    {C : T → A → Prop} {R : S → T → Prop}
    (hagree : ∀ s t a r, R s t → spec t a = some r → C t a →
      ∃ s', step s a = some (s', r.2) ∧ R s' r.1)
    (hdiffer : ∀ s t a r s', R s t → spec t a = some r → step s a = some (s', r.2) → C t a)
    {s : S} {t : T} {ops : List A} {bs : List B} (h : R s t)
    (hspec : outputs spec t ops = some bs) :
    outputs step s ops = some bs ↔ Along spec C t ops := by
  induction ops generalizing s t bs with
  | nil =>
    cases hspec
    exact ⟨fun _ => trivial, fun _ => rfl⟩
  | cons a rest ih =>
    obtain ⟨r, cs, hr, hcs, rfl⟩ := outputs_cons.mp hspec
    constructor
    · intro hs
      obtain ⟨⟨s', b⟩, ds, hstep, hds, heq⟩ := outputs_cons.mp hs
      obtain ⟨rfl, rfl⟩ := List.cons.inj heq
      have hC := hdiffer s t a r s' h hr hstep
      obtain ⟨s'', hstep', hrel⟩ := hagree s t a r h hr hC
      obtain rfl : s' = s'' := congrArg Prod.fst (Option.some.inj (hstep.symm.trans hstep'))
      refine ⟨hC, fun r' hr' => ?_⟩
      obtain rfl := Option.some.inj (hr.symm.trans hr')
      exact (ih hrel hcs).mp hds
    · rintro ⟨hC, hrest⟩
      obtain ⟨s', hstep, hrel⟩ := hagree s t a r h hr hC
      exact outputs_cons.mpr ⟨(s', r.2), cs, hstep, (ih hrel hcs).mpr (hrest r hr), rfl⟩

end Dousi.Lib.Interface
