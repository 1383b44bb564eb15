import Dousi.Lib.Transition
import Mathlib.Data.List.Basic
import Mathlib.Logic.Function.Basic

/-!
# An object whose operations take effect in one step

Operations are invoked, take effect one after another, and are answered later. The
machine keeps what has taken effect in a log. In every state of every run the log is
a sequential run of the object, it names no operation twice, and an operation that
was answered before another was invoked stands before it.
-/
namespace Dousi.Lib.Atomic

open Dousi.Lib.Transition

variable {Id Op Val S : Type}

inductive Event (Id : Type) where
  | invoke (x : Id)
  | commit (x : Id)
  | respond (x : Id)
  deriving DecidableEq

/-- An operation that has taken effect, with its result. -/
structure Entry (Id Op Val : Type) where
  id : Id
  op : Op
  result : Val

structure Machine (Id Op Val S : Type) where
  object : S
  invoked : Id → Option Op
  log : List (Entry Id Op Val)
  history : List (Event Id)

inductive Action (Id Op : Type) where
  | invoke (x : Id) (op : Op)
  | commit (x : Id)
  | respond (x : Id)

def start (object : S) : Machine Id Op Val S := ⟨object, fun _ => none, [], []⟩

/-- The operation has taken effect. -/
def Committed (m : Machine Id Op Val S) (x : Id) : Prop := x ∈ m.log.map Entry.id

instance [DecidableEq Id] (m : Machine Id Op Val S) (x : Id) : Decidable (Committed m x) :=
  inferInstanceAs (Decidable (x ∈ m.log.map Entry.id))

/-- An id is invoked once, takes effect once, and is answered after that. -/
def step [DecidableEq Id] (apply : S → Op → Option (S × Val)) (m : Machine Id Op Val S) :
    Action Id Op → Option (Machine Id Op Val S)
  | .invoke x op =>
    match m.invoked x with
    | none => some { m with
        invoked := Function.update m.invoked x (some op), history := m.history ++ [.invoke x] }
    | some _ => none
  | .commit x =>
    if Committed m x then none
    else (m.invoked x).bind fun op => (apply m.object op).map fun (object, result) =>
      { m with
        object, log := m.log ++ [⟨x, op, result⟩], history := m.history ++ [.commit x] }
  | .respond x =>
    if Committed m x then some { m with history := m.history ++ [.respond x] } else none

theorem step_invoke [DecidableEq Id] (apply : S → Op → Option (S × Val))
    {m : Machine Id Op Val S} {x : Id} (op : Op) (h : m.invoked x = none) :
    step apply m (.invoke x op) = some { m with
      invoked := Function.update m.invoked x (some op), history := m.history ++ [.invoke x] } := by
  simp only [step, h]

theorem step_commit [DecidableEq Id] {apply : S → Op → Option (S × Val)}
    {m : Machine Id Op Val S} {x : Id} {op : Op} {object : S} {result : Val}
    (h : ¬ Committed m x) (hop : m.invoked x = some op)
    (happly : apply m.object op = some (object, result)) :
    step apply m (.commit x) = some { m with
      object, log := m.log ++ [⟨x, op, result⟩], history := m.history ++ [.commit x] } := by
  simp only [step, if_neg h, hop, happly, Option.bind_some, Option.map_some]

theorem step_respond [DecidableEq Id] (apply : S → Op → Option (S × Val))
    {m : Machine Id Op Val S} {x : Id} (h : Committed m x) :
    step apply m (.respond x) = some { m with history := m.history ++ [.respond x] } :=
  if_pos h

/-- A run of the object, one operation after another. -/
def Sequential (apply : S → Op → Option (S × Val)) : S → List (Op × Val) → S → Prop
  | w, [], w' => w = w'
  | w, (op, result) :: rest, w' => ∃ u, apply w op = some (u, result) ∧ Sequential apply u rest w'

theorem sequential_snoc {apply : S → Op → Option (S × Val)} {w u v : S}
    {calls : List (Op × Val)} {op : Op} {result : Val} (h : Sequential apply w calls u)
    (hs : apply u op = some (v, result)) : Sequential apply w (calls ++ [(op, result)]) v := by
  induction calls generalizing w with
  | nil => cases h; exact ⟨v, hs, rfl⟩
  | cons call rest ih =>
    obtain ⟨x, hx, hrest⟩ := h
    exact ⟨x, hx, ih hrest⟩

/-- `x` stands somewhere before `y`. -/
def Before {α : Type} (l : List α) (x y : α) : Prop := [x, y].Sublist l

theorem before_append {α : Type} {l : List α} {x y : α} (h : Before l x y) (rest : List α) :
    Before (l ++ rest) x y := h.trans (List.sublist_append_left l rest)

theorem before_snoc {α : Type} {l : List α} {x y z : α} (h : Before (l ++ [z]) x y) :
    Before l x y ∨ (x ∈ l ∧ y = z) := by
  obtain ⟨left, right, heq, hl, hr⟩ := List.sublist_append_iff.mp h
  match left, right, heq with
  | [a, b], [], heq =>
    obtain ⟨rfl, rfl⟩ : x = a ∧ y = b := by simpa using heq
    exact .inl hl
  | [a], [b], heq =>
    obtain ⟨rfl, rfl⟩ : x = a ∧ y = b := by simpa using heq
    exact .inr ⟨List.singleton_sublist.mp hl, by simpa using List.singleton_sublist.mp hr⟩
  | [], [a, b], _ =>
    have hlen := hr.length_le
    simp at hlen

theorem before_last {α : Type} {l : List α} {x : α} (h : x ∈ l) (y : α) :
    Before (l ++ [y]) x y := by
  have hx : [x].Sublist l := List.singleton_sublist.mpr h
  exact hx.append (List.Sublist.refl [y])

/-- What the log of a machine is a witness of. -/
structure Linearized (apply : S → Op → Option (S × Val)) (w : S) (m : Machine Id Op Val S) :
    Prop where
  invoked : ∀ e ∈ m.log, m.invoked e.id = some e.op
  nodup : (m.log.map Entry.id).Nodup
  sequential : Sequential apply w (m.log.map fun e => (e.op, e.result)) m.object
  responded : ∀ x, .respond x ∈ m.history → Committed m x
  real_time : ∀ x y, Before m.history (.respond x) (.invoke y) → Committed m y →
    Before (m.log.map Entry.id) x y

theorem linearized_start (apply : S → Op → Option (S × Val)) (w : S) :
    Linearized apply w (start w : Machine Id Op Val S) :=
  ⟨by simp [start], by simp [start], rfl, by simp [start], fun x y h => by
    have hlen := h.length_le
    simp [start] at hlen⟩

theorem linearized_invoke {apply : S → Op → Option (S × Val)} [DecidableEq Id] {w : S}
    {m : Machine Id Op Val S} {x : Id} (op : Op) (h : Linearized apply w m)
    (hx : m.invoked x = none) :
    Linearized apply w { m with
      invoked := Function.update m.invoked x (some op), history := m.history ++ [.invoke x] } := by
  have hfresh : ¬ Committed m x := by
    intro hc
    obtain ⟨e, he, rfl⟩ := List.mem_map.mp hc
    rw [h.invoked e he] at hx
    cases hx
  refine ⟨fun e he => ?_, h.nodup, h.sequential, fun y hy => ?_, fun y z hb hz => ?_⟩
  · have hne : e.id ≠ x := fun hid => hfresh (hid ▸ List.mem_map_of_mem he)
    exact (Function.update_of_ne hne ..).trans (h.invoked e he)
  · rcases List.mem_append.mp hy with hold | hnew
    · exact h.responded y hold
    · cases List.mem_singleton.mp hnew
  · rcases before_snoc hb with hold | ⟨_, hnew⟩
    · exact h.real_time y z hold hz
    · cases hnew
      exact absurd hz hfresh

theorem linearized_commit {apply : S → Op → Option (S × Val)} {w object : S}
    {m : Machine Id Op Val S} {x : Id} {op : Op} {result : Val} (h : Linearized apply w m)
    (hx : ¬ Committed m x) (hop : m.invoked x = some op)
    (happly : apply m.object op = some (object, result)) :
    Linearized apply w { m with
      object, log := m.log ++ [⟨x, op, result⟩], history := m.history ++ [.commit x] } := by
  have hids : (m.log ++ [Entry.mk x op result]).map Entry.id = m.log.map Entry.id ++ [x] :=
    List.map_append
  refine ⟨fun e he => ?_, ?_, ?_, fun y hy => ?_, fun y z hb hz => ?_⟩
  · rcases List.mem_append.mp he with hold | hnew
    · exact h.invoked e hold
    · rw [List.mem_singleton.mp hnew]
      exact hop
  · rw [hids]
    exact List.nodup_append.mpr ⟨h.nodup, by simp, fun a ha b hb hab => by
      rw [List.mem_singleton.mp hb] at hab
      exact hx (hab ▸ ha)⟩
  · rw [List.map_append]
    exact sequential_snoc h.sequential happly
  · rcases List.mem_append.mp hy with hold | hnew
    · rw [Committed, hids]
      exact List.mem_append_left _ (h.responded y hold)
    · cases List.mem_singleton.mp hnew
  · rcases before_snoc hb with hold | ⟨_, hnew⟩
    · rw [Committed, hids] at hz
      rw [hids]
      rcases List.mem_append.mp hz with hz | hz
      · exact before_append (h.real_time y z hold hz) _
      · obtain rfl := List.mem_singleton.mp hz
        exact before_last (h.responded y (hold.subset (by simp))) _
    · cases hnew

theorem linearized_step {apply : S → Op → Option (S × Val)} [DecidableEq Id] {w : S}
    {m n : Machine Id Op Val S} {a : Action Id Op} (h : Linearized apply w m)
    (hs : step apply m a = some n) : Linearized apply w n := by
  cases a with
  | invoke x op =>
    simp only [step] at hs
    split at hs
    · rename_i hx
      obtain rfl := Option.some.inj hs
      exact linearized_invoke op h hx
    · cases hs
  | commit x =>
    simp only [step] at hs
    split at hs
    · cases hs
    · rename_i hx
      obtain ⟨op, hop, hs⟩ := Option.bind_eq_some_iff.mp hs
      obtain ⟨⟨object, result⟩, happly, rfl⟩ := Option.map_eq_some_iff.mp hs
      exact linearized_commit h hx hop happly
  | respond x =>
    simp only [step] at hs
    split at hs
    · rename_i hx
      obtain rfl := Option.some.inj hs
      refine ⟨h.invoked, h.nodup, h.sequential, fun y hy => ?_, fun y z hb hz => ?_⟩
      · rcases List.mem_append.mp hy with hold | hnew
        · exact h.responded y hold
        · cases List.mem_singleton.mp hnew
          exact hx
      · rcases before_snoc hb with hold | ⟨_, hnew⟩
        · exact h.real_time y z hold hz
        · cases hnew
    · cases hs

/-- Every run of the machine is linearized by its log. -/
theorem linearized_of_reach {apply : S → Op → Option (S × Val)} [DecidableEq Id] {w : S}
    {m : Machine Id Op Val S} (h : Reach (step apply) Any (start w) m) :
    Linearized apply w m :=
  h.invariant (linearized_start apply w) fun _ _ _ hi _ hs => linearized_step hi hs

end Dousi.Lib.Atomic
