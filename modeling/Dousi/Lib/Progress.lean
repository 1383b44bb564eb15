import Dousi.Lib.Transition
import Mathlib.Order.WellFounded
import Mathlib.Tactic.Common

/-!
# Systems that come to rest

Steps of a kind `E` are the ones a system takes by itself; the others wait for its
environment. A measure that every step of the kind makes smaller bounds the schedules of
such steps, also those that the environment disturbs a number of times, and where it takes
its values in a well-founded order every schedule ends.
What is then left to show of a system is what it looks like when no such step is enabled.
-/
namespace Dousi.Lib.Progress

open Dousi.Lib.Transition

variable {S A M : Type} {step : S → A → Option S} {E : A → Prop} {I : S → Prop}

/-- No step of the kind is enabled. -/
def Stuck (step : S → A → Option S) (E : A → Prop) (s : S) : Prop :=
  ∀ a, E a → step s a = none

/-- One step of the kind leads from `s` to `t`. -/
def Moves (step : S → A → Option S) (E : A → Prop) (t s : S) : Prop :=
  ∃ a, E a ∧ step s a = some t

/-- Every schedule of steps of the kind ends. -/
def Terminates (step : S → A → Option S) (E : A → Prop) (s : S) : Prop :=
  Acc (Moves step E) s

/-- A run of steps of the kind that ends where none is enabled. -/
structure ComesToRest (step : S → A → Option S) (E : A → Prop) (s : S) (acts : List A) (t : S) :
    Prop where
  replays : run step s acts = some t
  kind : ∀ a ∈ acts, E a
  stuck : Stuck step E t

/-- Some of the actions are disturbances. Each of them is one of the `c` steps that it
makes the schedule longer by. -/
theorem length_le_of_disturbed {μ : S → Nat} {d : A → Bool} {c : Nat}
    (hdec : ∀ s a t, I s → E a → step s a = some t →
      I t ∧ μ t + 1 ≤ μ s + if d a then c else 0) {acts : List A} {s t : S}
    (hs : I s) (h : run step s acts = some t) (hE : ∀ a ∈ acts, E a) :
    acts.length + μ t ≤ μ s + c * acts.countP d := by
  induction acts generalizing s with
  | nil =>
    cases h
    simp
  | cons a rest ih =>
    obtain ⟨u, hsu, hrest⟩ := Option.bind_eq_some_iff.mp h
    obtain ⟨hu, hle⟩ := hdec s a u hs (hE a List.mem_cons_self) hsu
    have hlength := ih hu hrest fun b hb => hE b (List.mem_cons_of_mem _ hb)
    rw [List.length_cons]
    cases hd : d a with
    | false =>
      rw [hd, if_neg Bool.false_ne_true] at hle
      rw [List.countP_cons_of_neg (by simp [hd])]
      omega
    | true =>
      rw [hd, if_pos rfl] at hle
      rw [List.countP_cons_of_pos hd, Nat.mul_succ]
      omega

/-- A schedule without them is no longer than what the measure loses on the way. -/
theorem length_le_of_measure {μ : S → Nat}
    (hdec : ∀ s a t, E a → step s a = some t → μ t < μ s) {acts : List A} {s t : S}
    (h : run step s acts = some t) (hE : ∀ a ∈ acts, E a) : acts.length + μ t ≤ μ s := by
  have hle := length_le_of_disturbed (d := fun _ => false) (c := 0) (I := fun _ => True)
    (fun s a t _ ha hst => ⟨trivial, hdec s a t ha hst⟩) trivial h hE
  simpa using hle

/-- What the steps of a kind keep is kept by a schedule of them. -/
theorem run_invariant (hstep : ∀ s a t, I s → E a → step s a = some t → I t) {acts : List A}
    {s t : S} (h : run step s acts = some t) (hE : ∀ a ∈ acts, E a) (hs : I s) : I t :=
  (Reach.of_run_forall h hE).invariant hs hstep

theorem terminates_of_measure {lt : M → M → Prop} (hwf : WellFounded lt) (μ : S → M)
    (hdec : ∀ s a t, I s → E a → step s a = some t → I t ∧ lt (μ t) (μ s)) {s : S} (hs : I s) :
    Terminates step E s := by
  generalize hm : μ s = m
  induction m using hwf.induction generalizing s with
  | _ m ih =>
    refine ⟨s, ?_⟩
    rintro t ⟨a, ha, hst⟩
    obtain ⟨ht, hlt⟩ := hdec s a t hs ha hst
    exact ih (μ t) (hm ▸ hlt) ht rfl

/-- A system whose schedules end can be left to itself until nothing is enabled. -/
theorem exists_rest {s : S} (h : Terminates step E s) :
    ∃ acts t, ComesToRest step E s acts t := by
  induction h with
  | intro s _ ih =>
    by_cases hstuck : Stuck step E s
    · exact ⟨[], s, rfl, by simp, hstuck⟩
    · simp only [Stuck, not_forall] at hstuck
      obtain ⟨a, ha, hs⟩ := hstuck
      obtain ⟨t, hs⟩ := Option.ne_none_iff_exists'.mp hs
      obtain ⟨acts, u, hrest⟩ := ih t ⟨a, ha, hs⟩
      refine ⟨a :: acts, u, ?_, ?_, hrest.stuck⟩
      · rw [run, hs, Option.bind_some]
        exact hrest.replays
      · intro b hb
        rcases List.mem_cons.mp hb with rfl | hb
        · exact ha
        · exact hrest.kind b hb

/-- A system that can always take one more step of the kind has a schedule without end. -/
theorem not_terminates (hstep : ∀ s, I s → ∃ a t, E a ∧ step s a = some t ∧ I t) {s : S}
    (hs : I s) : ¬ Terminates step E s := by
  intro h
  induction h with
  | intro s _ ih =>
    obtain ⟨a, t, ha, hst, ht⟩ := hstep s hs
    exact ih t ⟨a, ha, hst⟩ ht

end Dousi.Lib.Progress
