import Mathlib.Logic.Relation

/-!
# Runs of guarded step functions

A system is a step function `S → A → Option S`: `none` when the action is not
enabled. `run` replays a list of actions, so that a schedule can be evaluated.
`Reach` is the relation the safety results use: it carries a condition on every
step taken, so that assumptions about an environment are stated once.
-/
namespace Dousi.Lib.Transition

variable {S A T B : Type}

/-- Replay a list of actions; `none` when one of them is not enabled. -/
def run (step : S → A → Option S) : S → List A → Option S
  | s, [] => some s
  | s, a :: rest => (step s a).bind fun t => run step t rest

/-- The states reached from `s` by steps that all meet the condition `C`. -/
inductive Reach (step : S → A → Option S) (C : S → A → Prop) (s : S) : S → Prop
  | refl : Reach step C s s
  | tail {t u : S} {a : A} : Reach step C s t → C t a → step t a = some u → Reach step C s u

/-- No condition on the steps. -/
def Any (_ : S) (_ : A) : Prop := True

theorem run_append (step : S → A → Option S) (s : S) (left right : List A) :
    run step s (left ++ right) = (run step s left).bind fun t => run step t right := by
  induction left generalizing s with
  | nil => rfl
  | cons a rest ih =>
    simp only [List.cons_append, run]
    cases step s a with
    | none => rfl
    | some t => exact ih t

theorem Reach.trans {step : S → A → Option S} {C : S → A → Prop} {s t u : S}
    (hst : Reach step C s t) (htu : Reach step C t u) : Reach step C s u := by
  induction htu with
  | refl => exact hst
  | tail _ hc hs ih => exact .tail ih hc hs

theorem Reach.single {step : S → A → Option S} {C : S → A → Prop} {s t : S} {a : A}
    (hc : C s a) (hs : step s a = some t) : Reach step C s t := .tail .refl hc hs

theorem Reach.weaken {step : S → A → Option S} {C D : S → A → Prop} {s t : S}
    (hcd : ∀ u a v, C u a → step u a = some v → D u a) (h : Reach step C s t) :
    Reach step D s t := by
  induction h with
  | refl => exact .refl
  | tail _ hc hs ih => exact .tail ih (hcd _ _ _ hc hs) hs

/-- What holds at the start and is kept by every step holds in every state reached. -/
theorem Reach.invariant {step : S → A → Option S} {C : S → A → Prop} {I : S → Prop} {s t : S}
    (h : Reach step C s t) (h0 : I s)
    (hstep : ∀ u a v, I u → C u a → step u a = some v → I v) : I t := by
  induction h with
  | refl => exact h0
  | tail _ hc hs ih => exact hstep _ _ _ ih hc hs

/-- The step function that also refuses what does not meet the condition. -/
def guarded (step : S → A → Option S) (C : S → A → Prop) [∀ s a, Decidable (C s a)]
    (s : S) (a : A) : Option S :=
  if C s a then step s a else none

theorem guarded_eq_some {step : S → A → Option S} {C : S → A → Prop}
    [∀ s a, Decidable (C s a)] {s t : S} {a : A} :
    guarded step C s a = some t ↔ C s a ∧ step s a = some t := by
  unfold guarded
  by_cases hC : C s a
  · rw [if_pos hC]
    exact (and_iff_right hC).symm
  · rw [if_neg hC]
    exact ⟨fun h => (Option.some_ne_none t h.symm).elim, fun h => absurd h.1 hC⟩

/-- A run of the guarded system is a run whose steps meet the condition. -/
theorem Reach.of_guarded_reach {step : S → A → Option S} {C D : S → A → Prop}
    [∀ s a, Decidable (C s a)] {s t : S} (h : Reach (guarded step C) D s t) :
    Reach step (fun s a => C s a ∧ D s a) s t := by
  induction h with
  | refl => exact .refl
  | tail _ hd hs ih =>
    obtain ⟨hc, hs⟩ := guarded_eq_some.mp hs
    exact .tail ih ⟨hc, hd⟩ hs

/-- A schedule of actions of a kind reaches its last state. -/
theorem Reach.of_run_forall {step : S → A → Option S} {E : A → Prop} {acts : List A} {s t : S}
    (h : run step s acts = some t) (hE : ∀ a ∈ acts, E a) : Reach step (fun _ a => E a) s t := by
  induction acts generalizing s with
  | nil => cases h; exact .refl
  | cons a rest ih =>
    obtain ⟨u, hs, hrest⟩ := Option.bind_eq_some_iff.mp h
    exact (Reach.single (hE a List.mem_cons_self) hs).trans
      (ih hrest fun b hb => hE b (List.mem_cons_of_mem _ hb))

/-- Any schedule that can be replayed reaches its last state. -/
theorem Reach.of_run {step : S → A → Option S} {acts : List A} {s t : S}
    (h : run step s acts = some t) : Reach step Any s t :=
  (Reach.of_run_forall (E := fun _ => True) h fun _ _ => trivial).weaken
    fun _ _ _ _ _ => trivial

/-- A schedule whose steps are checked during the replay reaches its last state. -/
theorem Reach.of_guarded {step : S → A → Option S} {C : S → A → Prop}
    [∀ s a, Decidable (C s a)] {acts : List A} {s t : S}
    (h : run (guarded step C) s acts = some t) : Reach step C s t :=
  (Reach.of_run h).of_guarded_reach.weaken fun _ _ _ hc _ => hc.1

/-- As above, with a second condition on the actions alone. -/
theorem Reach.of_guarded_and {step : S → A → Option S} {C : S → A → Prop}
    [∀ s a, Decidable (C s a)] {E : A → Prop} {acts : List A} {s t : S}
    (h : run (guarded step C) s acts = some t) (hE : ∀ a ∈ acts, E a) :
    Reach step (fun s a => C s a ∧ E a) s t :=
  (Reach.of_run_forall h hE).of_guarded_reach

/-- A relation that each step keeps, with at most one step of the other system, carries
reachability over. -/
theorem Reach.simulate {step : S → A → Option S} {C : S → A → Prop}
    {step' : T → B → Option T} {D : T → B → Prop} {R : S → T → Prop} {s u : S} {t : T}
    (h : Reach step C s u) (h0 : R s t)
    (hstep : ∀ s₁ a s₂ t₁, R s₁ t₁ → C s₁ a → step s₁ a = some s₂ →
      R s₂ t₁ ∨ ∃ b t₂, D t₁ b ∧ step' t₁ b = some t₂ ∧ R s₂ t₂) :
    ∃ v, Reach step' D t v ∧ R u v := by
  induction h with
  | refl => exact ⟨t, .refl, h0⟩
  | tail _ hc hs ih =>
    obtain ⟨v, hv, hr⟩ := ih
    rcases hstep _ _ _ _ hr hc hs with hr' | ⟨b, v', hd, hb, hr'⟩
    · exact ⟨v, hv, hr'⟩
    · exact ⟨v', hv.tail hd hb, hr'⟩

/-- The runs from `s`: the actions taken, each under the condition `C`, and the state
they lead to. -/
inductive Runs (step : S → A → Option S) (C : S → A → Prop) (s : S) : List A → S → Prop
  | nil : Runs step C s [] s
  | snoc {acts : List A} {t u : S} {a : A} :
      Runs step C s acts t → C t a → step t a = some u → Runs step C s (acts ++ [a]) u

/-- What holds of the empty run and is kept by every step holds of every run. -/
theorem Runs.invariant {step : S → A → Option S} {C : S → A → Prop} {I : List A → S → Prop}
    {s t : S} {acts : List A} (h : Runs step C s acts t) (h0 : I [] s)
    (hstep : ∀ done u a v, I done u → C u a → step u a = some v → I (done ++ [a]) v) :
    I acts t := by
  induction h with
  | nil => exact h0
  | snoc _ hc hs ih => exact hstep _ _ _ _ ih hc hs

theorem Runs.replay {step : S → A → Option S} {C : S → A → Prop} [∀ s a, Decidable (C s a)]
    {s t u : S} {done acts : List A} (h : Runs step C s done t)
    (hrun : run (guarded step C) t acts = some u) : Runs step C s (done ++ acts) u := by
  induction acts generalizing done t with
  | nil =>
    cases hrun
    rw [List.append_nil]
    exact h
  | cons a rest ih =>
    obtain ⟨v, hs, hrest⟩ := Option.bind_eq_some_iff.mp hrun
    obtain ⟨hc, hs⟩ := guarded_eq_some.mp hs
    rw [List.append_cons]
    exact ih (h.snoc hc hs) hrest

/-- A schedule whose steps are checked during the replay is a run. -/
theorem Runs.of_guarded {step : S → A → Option S} {C : S → A → Prop}
    [∀ s a, Decidable (C s a)] {acts : List A} {s t : S}
    (h : run (guarded step C) s acts = some t) : Runs step C s acts t :=
  Runs.nil.replay h

end Dousi.Lib.Transition
