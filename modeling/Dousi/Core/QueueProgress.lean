import Dousi.Core.StdLockedQueue
import Dousi.Lib.Progress

/-!
# The calls of a StdLockedQueue return

Nobody calls `Push` or `WaitAndPop` any more. Whichever thread gets the mutex and whichever
one is notified, the threads inside come to an end: every `Push` has returned, and so has
every `WaitAndPop` unless the queue is empty. A spurious wakeup costs a round of the loop.
-/
namespace Dousi.Core.StdLockedQueue

open Dousi.Lib.Transition
open Dousi.Lib.Progress hiding Moves
open Dousi.Lib.Mutex
open Dousi.Lib.Pool (number total total_update total_le_number number_pos)

variable {ι κ T : Type}

/-- The steps of the threads inside. A call and a spurious wakeup come from outside. -/
def Own : Action ι κ T → Prop
  | .push .. | .waitAndPop _ | .wakeSpuriously _ => False
  | _ => True

def Action.spurious : Action ι κ T → Bool
  | .wakeSpuriously _ => true
  | _ => false

/-- What goes on when nobody calls any more. -/
def Inside (a : Action ι κ T) : Prop := Own a ∨ a.spurious = true

/-- The notification is one step for the producer and as many as a wakeup costs. -/
def Producer.work : Producer T → Nat
  | .outside => 0
  | .called _ => 8
  | .locked _ => 7
  | .pushed => 6
  | .notified => 1

def Consumer.work : Consumer → Nat
  | .outside | .waiting => 0
  | .called | .woken => 4
  | .testing => 3
  | .popping => 2
  | .leaving => 1

def Producer.inside : Producer T → Bool
  | .outside => false
  | _ => true

/-- Inside and not waiting. -/
def Consumer.running : Consumer → Bool
  | .outside | .waiting => false
  | _ => true

variable [DecidableEq ι] [DecidableEq κ]

/-! The mutex is given back -/

theorem owned_setProducer {s : Queue ι κ T} (h : Owned (holdsMutex s) s.mutex) {p : ι}
    {at' : Producer T} (hp : at'.holdsMutex = (s.producers p).holdsMutex) :
    Owned (holdsMutex (setProducer s p at')) s.mutex := by
  rw [holdsMutex_setProducer]
  exact h.keep hp

theorem owned_setConsumer {s : Queue ι κ T} (h : Owned (holdsMutex s) s.mutex) {c : κ}
    {at' : Consumer} (hc : at'.holdsMutex = (s.consumers c).holdsMutex) :
    Owned (holdsMutex (setConsumer s c at')) s.mutex := by
  rw [holdsMutex_setConsumer]
  exact h.keep hc

theorem owned_moves {s t : Queue ι κ T} (h : Owned (holdsMutex s) s.mutex) (hm : Moves s t) :
    Owned (holdsMutex t) t.mutex := by
  cases hm with
  | push hp => exact owned_setProducer h (by rw [hp]; rfl)
  | @lockPush p o hp _ =>
    change Owned (holdsMutex (setProducer s p _)) _
    rw [holdsMutex_setProducer]
    exact Owned.lock _
  | pushData hp => exact owned_setProducer h (by rw [hp]; rfl)
  | notify hp hc =>
    exact owned_setConsumer (owned_setProducer h (by rw [hp]; rfl)) (by
      simp only [setProducer]; rw [hc]; rfl)
  | notifyNobody hp _ => exact owned_setProducer h (by rw [hp]; rfl)
  | waitAndPop hc => exact owned_setConsumer h (by rw [hc]; rfl)
  | @lock c _ _ =>
    change Owned (holdsMutex (setConsumer s c _)) _
    rw [holdsMutex_setConsumer]
    exact Owned.lock _
  | testTrue hc _ => exact owned_setConsumer h (by rw [hc]; rfl)
  | pop hc _ => exact owned_setConsumer h (by rw [hc]; rfl)
  | wakeSpuriously hc => exact owned_setConsumer h (by rw [hc]; rfl)
  | unlockPush _ | wait _ _ | unlock _ => exact Owned.unlock

/-! The work that is left -/

variable [Fintype ι] [Fintype κ]

def work (s : Queue ι κ T) : Nat :=
  total Producer.work s.producers + total Consumer.work s.consumers

omit [DecidableEq κ] in
theorem work_setProducer (s : Queue ι κ T) (p : ι) (at' : Producer T) :
    work (setProducer s p at') + (s.producers p).work = work s + at'.work := by
  have htotal := total_update Producer.work s.producers p at'
  simp only [work, setProducer]
  omega

omit [DecidableEq ι] in
theorem work_setConsumer (s : Queue ι κ T) (c : κ) (at' : Consumer) :
    work (setConsumer s c at') + (s.consumers c).work = work s + at'.work := by
  have htotal := total_update Consumer.work s.consumers c at'
  simp only [work, setConsumer]
  omega

omit [DecidableEq κ] in
/-- What a producer does next, if nobody is woken, is less than what it had to do. -/
theorem work_producer {s t : Queue ι κ T} {p : ι} {at' : Producer T}
    (hp : at'.work < (s.producers p).work) (ht : work t = work (setProducer s p at')) :
    work t < work s := by
  have hwork := work_setProducer s p at'
  omega

omit [DecidableEq ι] in
theorem work_consumer {s t : Queue ι κ T} {c : κ} {at' : Consumer}
    (hc : at'.work < (s.consumers c).work) (ht : work t = work (setConsumer s c at')) :
    work t < work s := by
  have hwork := work_setConsumer s c at'
  omega

theorem work_step {s t : Queue ι κ T} {a : Action ι κ T} (ha : Own a) (hs : step s a = some t) :
    work t < work s := by
  cases a with
  | push p o => exact ha.elim
  | lockPush p =>
    simp only [step] at hs
    split at hs <;> cases hs
    next hp _ => exact work_producer (by simp [hp, Producer.work]) rfl
  | pushData p =>
    simp only [step] at hs
    split at hs <;> cases hs
    next hp => exact work_producer (by simp [hp, Producer.work]) rfl
  | notifyOne p woken =>
    simp only [step] at hs
    split at hs
    · next c hp =>
      split at hs <;> cases hs
      next hc =>
      have hproducer := work_setProducer s p .notified
      have hconsumer := work_setConsumer (setProducer s p .notified) c .woken
      have hwaiting : (setProducer s p .notified).consumers c = .waiting := hc
      rw [hp] at hproducer
      rw [hwaiting] at hconsumer
      simp only [Producer.work, Consumer.work] at hproducer hconsumer
      omega
    · next hp =>
      split at hs <;> cases hs
      exact work_producer (by simp [hp, Producer.work]) rfl
    · cases hs
  | unlockPush p =>
    simp only [step] at hs
    split at hs <;> cases hs
    next hp => exact work_producer (by simp [hp, Producer.work]) rfl
  | waitAndPop c => exact ha.elim
  | lock c =>
    simp only [step] at hs
    split at hs
    · split at hs <;> cases hs
      next hc => exact work_consumer (by rcases hc with hc | hc <;> rw [hc] <;> decide) rfl
    · cases hs
  | test c =>
    simp only [step] at hs
    split at hs <;> cases hs
    · next hc _ => exact work_consumer (by rw [hc]; decide) rfl
    · next hc _ => exact work_consumer (by rw [hc]; decide) rfl
  | pop c =>
    simp only [step] at hs
    split at hs <;> cases hs
    next hc _ => exact work_consumer (by rw [hc]; decide) rfl
  | unlock c =>
    simp only [step] at hs
    split at hs <;> cases hs
    next hc => exact work_consumer (by rw [hc]; decide) rfl
  | wakeSpuriously c => exact ha.elim

/-- A consumer that is woken for nothing has its round of the loop before it. -/
theorem work_inside {s t : Queue ι κ T} {a : Action ι κ T} (ha : Inside a)
    (hs : step s a = some t) : work t + 1 ≤ work s + if a.spurious then 5 else 0 := by
  rcases ha with ha | ha
  · have hlt := work_step ha hs
    omega
  · cases a with
    | wakeSpuriously c =>
      simp only [step] at hs
      split at hs <;> cases hs
      next hc =>
      have hwork := work_setConsumer s c .woken
      rw [hc] at hwork
      simp only [Consumer.work, Action.spurious, if_true] at hwork ⊢
      omega
    | _ => cases ha

omit [DecidableEq ι] [DecidableEq κ] in
/-- Eight steps for a `Push` and four for a `WaitAndPop` that does not wait. -/
theorem work_le (s : Queue ι κ T) :
    work s ≤ 8 * number Producer.inside s.producers + 4 * number Consumer.running s.consumers := by
  have hproducers := total_le_number (f := Producer.work) (p := Producer.inside) (c := 8)
    (fun a => by cases a <;> simp [Producer.work, Producer.inside]) s.producers
  have hconsumers := total_le_number (f := Consumer.work) (p := Consumer.running) (c := 4)
    (fun a => by cases a <;> decide) s.consumers
  rw [work]
  omega

/-- Every call has returned but those that wait for an item, and there is none. -/
structure Settled (s : Queue ι κ T) : Prop where
  mutex : s.mutex = none
  producers : ∀ p, s.producers p = .outside
  consumers : ∀ c, s.consumers c = .outside ∨ s.consumers c = .waiting
  data : ∀ c, s.consumers c = .waiting → s.data = []

/-- The thread inside can go on, so that a queue where nobody can has its mutex free. -/
theorem mutex_of_stuck {s : Queue ι κ T} (hi : Invariant s) (ho : Owned (holdsMutex s) s.mutex)
    (hstuck : Stuck step Own s) : s.mutex = none := by
  cases hm : s.mutex with
  | none => rfl
  | some x =>
    have hx := ho x hm
    cases x with
    | inl p =>
      rw [holdsMutex] at hx
      cases hp : s.producers p with
      | outside | called _ =>
        rw [hp] at hx
        cases hx
      | locked o =>
        have hnone := hstuck (.pushData p) trivial
        simp [step, hp] at hnone
      | pushed =>
        by_cases hwaiting : ∃ c, s.consumers c = .waiting
        · obtain ⟨c, hc⟩ := hwaiting
          have hnone := hstuck (.notifyOne p (some c)) trivial
          simp [step, hp, hc] at hnone
        · have hnobody : ∀ c, s.consumers c ≠ .waiting := fun c hc => hwaiting ⟨c, hc⟩
          have hnone := hstuck (.notifyOne p none) trivial
          simp [step, hp, hnobody] at hnone
      | notified =>
        have hnone := hstuck (.unlockPush p) trivial
        simp [step, hp] at hnone
    | inr c =>
      rw [holdsMutex] at hx
      cases hc : s.consumers c with
      | outside | called | waiting | woken =>
        rw [hc] at hx
        cases hx
      | testing =>
        have hnone := hstuck (.test c) trivial
        simp only [step, hc] at hnone
        cases hdata : s.data <;> rw [hdata] at hnone <;> cases hnone
      | popping =>
        obtain ⟨o, rest, hdata⟩ := List.exists_cons_of_ne_nil (hi.nonempty c hc)
        have hnone := hstuck (.pop c) trivial
        simp [step, hc, hdata] at hnone
      | leaving =>
        have hnone := hstuck (.unlock c) trivial
        simp [step, hc] at hnone

theorem producer_of_stuck {s : Queue ι κ T} (hi : Invariant s) (hfree : s.mutex = none)
    (hstuck : Stuck step Own s) (p : ι) : s.producers p = .outside := by
  have hout (hp : (s.producers p).holdsMutex = true) : False := by
    have hmutex := hi.mutex (.inl p) hp
    rw [hfree] at hmutex
    cases hmutex
  cases hp : s.producers p with
  | outside => rfl
  | called o =>
    have hnone := hstuck (.lockPush p) trivial
    simp [step, hp, hfree] at hnone
  | _ =>
    refine (hout ?_).elim
    rw [hp]
    rfl

theorem consumer_of_stuck {s : Queue ι κ T} (hi : Invariant s) (hfree : s.mutex = none)
    (hstuck : Stuck step Own s) (c : κ) : s.consumers c = .outside ∨ s.consumers c = .waiting := by
  have hout (hc : (s.consumers c).holdsMutex = true) : False := by
    have hmutex := hi.mutex (.inr c) hc
    rw [hfree] at hmutex
    cases hmutex
  cases hc : s.consumers c with
  | outside => exact .inl rfl
  | waiting => exact .inr rfl
  | called | woken =>
    have hnone := hstuck (.lock c) trivial
    simp [step, hc, hfree] at hnone
  | _ =>
    refine (hout ?_).elim
    rw [hc]
    rfl

omit [DecidableEq ι] [DecidableEq κ] in
/-- Nobody is left who is awake or notifies, so that who waits waits for an empty queue. -/
theorem data_of_stuck {s : Queue ι κ T} (hi : Invariant s)
    (hproducers : ∀ p, s.producers p = .outside)
    (hconsumers : ∀ c, s.consumers c = .outside ∨ s.consumers c = .waiting) {c : κ}
    (hc : s.consumers c = .waiting) : s.data = [] := by
  have hawake : number Consumer.awake s.consumers = 0 :=
    Finset.sum_eq_zero fun d _ => by rcases hconsumers d with hd | hd <;> rw [hd] <;> rfl
  have hnotifying : number Producer.notifying s.producers = 0 :=
    Finset.sum_eq_zero fun p _ => by rw [hproducers p]; rfl
  have hcovered := hi.covered c hc
  exact List.eq_nil_of_length_eq_zero (by omega)

theorem settled_of_stuck {s : Queue ι κ T} (hi : Invariant s) (ho : Owned (holdsMutex s) s.mutex)
    (hstuck : Stuck step Own s) : Settled s := by
  have hfree := mutex_of_stuck hi ho hstuck
  have hproducers := producer_of_stuck hi hfree hstuck
  have hconsumers := consumer_of_stuck hi hfree hstuck
  exact ⟨hfree, hproducers, hconsumers, fun _ hc => data_of_stuck hi hproducers hconsumers hc⟩

/-- From any state of any run, when nobody calls any more: the threads inside take at most
eight steps for each `Push`, four for each `WaitAndPop` and five for each spurious wakeup,
and when none of them can take one, every `Push` has returned and every `WaitAndPop` too or
the queue is empty. -/
theorem calls_return {s : Queue ι κ T} (h : Reach step Any empty s) :
    (∀ acts t, run step s acts = some t → (∀ a ∈ acts, Inside a) → acts.length ≤
      8 * number Producer.inside s.producers + 4 * number Consumer.running s.consumers +
        5 * acts.countP Action.spurious) ∧
    (∀ t, Reach step (fun _ a => Inside a) s t → Stuck step Own t → Settled t) ∧
    ∃ acts t, ComesToRest step Own s acts t := by
  refine ⟨fun acts t hrun hinside => ?_, fun t ht hstuck => ?_, exists_rest ?_⟩
  · have hlength := length_le_of_disturbed (I := fun _ => True)
      (fun _ _ _ _ ha hs => ⟨trivial, work_inside ha hs⟩) trivial hrun hinside
    have hle := work_le s
    omega
  · have hreach : Reach step Any empty t := h.trans (ht.weaken fun _ _ _ _ _ => trivial)
    refine settled_of_stuck (invariant_reach hreach) ?_ hstuck
    exact hreach.invariant (I := fun u => Owned (holdsMutex u) u.mutex) (by rintro x ⟨⟩)
      fun _ _ _ hu _ hs => owned_moves hu (step_moves hs)
  · exact terminates_of_measure (I := fun _ => True) wellFounded_lt work
      (fun _ _ _ _ ha hs => ⟨trivial, work_step ha hs⟩) trivial

/-- Consumer 0 waits, and the item it was notified of has gone to consumer 1. It wakes up
for nothing before the next item is pushed. -/
theorem calls_return_stolen : ∃ s t,
    run step empty (stolen ++ [.push 0 8, .waitAndPop 1]) = some s ∧
    run step s [.wakeSpuriously 0, .lockPush 0] = some t ∧
    (∀ acts t, run step s acts = some t → (∀ a ∈ acts, Inside a) → acts.length ≤
      8 * number Producer.inside s.producers + 4 * number Consumer.running s.consumers +
        5 * acts.countP Action.spurious) ∧
    (∀ t, Reach step (fun _ a => Inside a) s t → Stuck step Own t → Settled t) ∧
    ∃ acts t, ComesToRest step Own s acts t := by
  obtain ⟨s, hs⟩ : ∃ s, run step empty (stolen ++ [.push 0 8, .waitAndPop 1]) = some s := ⟨_, rfl⟩
  obtain ⟨t, ht⟩ : ∃ t, run step s [.wakeSpuriously 0, .lockPush 0] = some t := by
    cases hs
    exact ⟨_, rfl⟩
  exact ⟨s, t, hs, ht, calls_return (Reach.of_run hs)⟩

end Dousi.Core.StdLockedQueue
