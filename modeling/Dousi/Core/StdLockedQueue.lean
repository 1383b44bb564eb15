import Dousi.Core.ConcurrentQueue
import Dousi.Lib.Mutex
import Dousi.Lib.Pool
import Dousi.Lib.Transition

/-!
# StdLockedQueue under any number of threads

A mutex around a `std::queue` and a condition variable. Producers `ι` notify one waiting
consumer of `κ` while they hold the mutex. A notified consumer may find the queue empty
again, because one that never waited was faster. What is kept is a count: as long as
someone waits, every item has an awake consumer or a notification still to come.
-/
namespace Dousi.Core.StdLockedQueue

open Dousi.Lib.Transition
open Dousi.Lib.Mutex
open Dousi.Lib.Pool (number number_update number_pos)
open ConcurrentQueue (Fifo)

/-- Where a thread is in `Push`: before the lock, with the lock, between `data_.push` and
`notify_one`, before the unlock. -/
inductive Producer (T : Type) where
  | outside
  | called (o : T)
  | locked (o : T)
  | pushed
  | notified
  deriving DecidableEq

/-- Where a thread is in `WaitAndPop`. It holds the mutex while `testing` the predicate,
`popping` and `leaving`; `woken` it has left the condition variable and needs the mutex. -/
inductive Consumer where
  | outside
  | called
  | testing
  | waiting
  | woken
  | popping
  | leaving
  deriving DecidableEq

/-- The values pushed and popped so far are histories. -/
structure Queue (ι κ T : Type) where
  data : List T
  mutex : Option (ι ⊕ κ)
  producers : ι → Producer T
  consumers : κ → Consumer
  pushed : List T
  popped : List T

inductive Action (ι κ T : Type) where
  | push (p : ι) (o : T)
  | lockPush (p : ι)
  | pushData (p : ι)
  | notifyOne (p : ι) (woken : Option κ)
  | unlockPush (p : ι)
  | waitAndPop (c : κ)
  | lock (c : κ)
  | test (c : κ)
  | pop (c : κ)
  | unlock (c : κ)
  | wakeSpuriously (c : κ)

section
variable {ι κ T : Type} [DecidableEq ι] [DecidableEq κ]

def empty : Queue ι κ T := ⟨[], none, fun _ => .outside, fun _ => .outside, [], []⟩

def setProducer (s : Queue ι κ T) (p : ι) (at' : Producer T) : Queue ι κ T :=
  { s with producers := Function.update s.producers p at' }

def setConsumer (s : Queue ι κ T) (c : κ) (at' : Consumer) : Queue ι κ T :=
  { s with consumers := Function.update s.consumers c at' }

section
variable [Fintype κ]

def step (s : Queue ι κ T) : Action ι κ T → Option (Queue ι κ T)
  | .push p o =>
    match s.producers p with
    | .outside => some (setProducer s p (.called o))
    | _ => none
  | .lockPush p =>
    match s.producers p, s.mutex with
    | .called o, none => some { setProducer s p (.locked o) with mutex := some (.inl p) }
    | _, _ => none
  | .pushData p =>
    match s.producers p with
    | .locked o => some { setProducer s p .pushed with
        data := s.data ++ [o]
        pushed := s.pushed ++ [o] }
    | _ => none
  | .notifyOne p woken =>
    match s.producers p, woken with
    | .pushed, some c =>
      if s.consumers c = .waiting then some (setConsumer (setProducer s p .notified) c .woken)
      else none
    | .pushed, none =>
      -- nobody is notified only when nobody waits
      if ∀ c, s.consumers c ≠ .waiting then some (setProducer s p .notified) else none
    | _, _ => none
  | .unlockPush p =>
    match s.producers p with
    | .notified => some { setProducer s p .outside with mutex := none }
    | _ => none
  | .waitAndPop c =>
    match s.consumers c with
    | .outside => some (setConsumer s c .called)
    | _ => none
  | .lock c =>
    match s.mutex with
    | none =>
      if s.consumers c = .called ∨ s.consumers c = .woken then
        some { setConsumer s c .testing with mutex := some (.inr c) }
      else none
    | some _ => none
  | .test c =>
    match s.consumers c, s.data with
    | .testing, [] => some { setConsumer s c .waiting with mutex := none }
    | .testing, _ :: _ => some (setConsumer s c .popping)
    | _, _ => none
  | .pop c =>
    match s.consumers c, s.data with
    | .popping, o :: rest => some { setConsumer s c .leaving with
        data := rest
        popped := s.popped ++ [o] }
    | _, _ => none
  | .unlock c =>
    match s.consumers c with
    | .leaving => some { setConsumer s c .outside with mutex := none }
    | _ => none
  | .wakeSpuriously c =>
    match s.consumers c with
    | .waiting => some (setConsumer s c .woken)
    | _ => none

end

/-- What a step can do. -/
inductive Moves (s : Queue ι κ T) : Queue ι κ T → Prop
  | push {p o} : s.producers p = .outside → Moves s (setProducer s p (.called o))
  | lockPush {p o} : s.producers p = .called o → s.mutex = none →
      Moves s { setProducer s p (.locked o) with mutex := some (.inl p) }
  | pushData {p o} : s.producers p = .locked o →
      Moves s { setProducer s p .pushed with data := s.data ++ [o], pushed := s.pushed ++ [o] }
  | notify {p c} : s.producers p = .pushed → s.consumers c = .waiting →
      Moves s (setConsumer (setProducer s p .notified) c .woken)
  | notifyNobody {p} : s.producers p = .pushed → (∀ c, s.consumers c ≠ .waiting) →
      Moves s (setProducer s p .notified)
  | unlockPush {p} : s.producers p = .notified →
      Moves s { setProducer s p .outside with mutex := none }
  | waitAndPop {c} : s.consumers c = .outside → Moves s (setConsumer s c .called)
  | lock {c} : s.mutex = none → s.consumers c = .called ∨ s.consumers c = .woken →
      Moves s { setConsumer s c .testing with mutex := some (.inr c) }
  | wait {c} : s.consumers c = .testing → s.data = [] →
      Moves s { setConsumer s c .waiting with mutex := none }
  | testTrue {c} : s.consumers c = .testing → s.data ≠ [] → Moves s (setConsumer s c .popping)
  | pop {c o rest} : s.consumers c = .popping → s.data = o :: rest →
      Moves s { setConsumer s c .leaving with data := rest, popped := s.popped ++ [o] }
  | unlock {c} : s.consumers c = .leaving →
      Moves s { setConsumer s c .outside with mutex := none }
  | wakeSpuriously {c} : s.consumers c = .waiting → Moves s (setConsumer s c .woken)

theorem step_moves [Fintype κ] {s t : Queue ι κ T} {a : Action ι κ T} (h : step s a = some t) :
    Moves s t := by
  cases a with
  | push p o =>
    simp only [step] at h
    split at h <;> cases h
    exact .push ‹_›
  | lockPush p =>
    simp only [step] at h
    split at h <;> cases h
    exact .lockPush ‹_› ‹_›
  | pushData p =>
    simp only [step] at h
    split at h <;> cases h
    exact .pushData ‹_›
  | notifyOne p woken =>
    simp only [step] at h
    split at h
    · split at h <;> cases h
      exact .notify ‹_› ‹_›
    · split at h <;> cases h
      exact .notifyNobody ‹_› ‹_›
    · cases h
  | unlockPush p =>
    simp only [step] at h
    split at h <;> cases h
    exact .unlockPush ‹_›
  | waitAndPop c =>
    simp only [step] at h
    split at h <;> cases h
    exact .waitAndPop ‹_›
  | lock c =>
    simp only [step] at h
    split at h
    · split at h <;> cases h
      exact .lock ‹_› ‹_›
    · cases h
  | test c =>
    simp only [step] at h
    split at h <;> cases h
    · exact .wait ‹_› ‹_›
    · next hdata => exact .testTrue ‹_› (by rw [hdata]; simp)
  | pop c =>
    simp only [step] at h
    split at h <;> cases h
    exact .pop ‹_› ‹_›
  | unlock c =>
    simp only [step] at h
    split at h <;> cases h
    exact .unlock ‹_›
  | wakeSpuriously c =>
    simp only [step] at h
    split at h <;> cases h
    exact .wakeSpuriously ‹_›

/-! The mutex -/

def Producer.holdsMutex : Producer T → Bool
  | .locked _ | .pushed | .notified => true
  | .outside | .called _ => false

def Consumer.holdsMutex : Consumer → Bool
  | .testing | .popping | .leaving => true
  | .outside | .called | .waiting | .woken => false

def holdsMutex (s : Queue ι κ T) : ι ⊕ κ → Bool
  | .inl p => (s.producers p).holdsMutex
  | .inr c => (s.consumers c).holdsMutex

theorem holdsMutex_setProducer (s : Queue ι κ T) (p : ι) (at' : Producer T) :
    holdsMutex (setProducer s p at') =
      Function.update (holdsMutex s) (.inl p) at'.holdsMutex := by
  funext x
  cases x with
  | inl q =>
    by_cases hq : q = p
    · subst hq; simp [holdsMutex, setProducer]
    · simp [holdsMutex, setProducer, hq]
  | inr c => simp [holdsMutex, setProducer]

theorem holdsMutex_setConsumer (s : Queue ι κ T) (c : κ) (at' : Consumer) :
    holdsMutex (setConsumer s c at') =
      Function.update (holdsMutex s) (.inr c) at'.holdsMutex := by
  funext x
  cases x with
  | inl p => simp [holdsMutex, setConsumer]
  | inr d =>
    by_cases hd : d = c
    · subst hd; simp [holdsMutex, setConsumer]
    · simp [holdsMutex, setConsumer, hd]

theorem exclusive_setProducer {s : Queue ι κ T} (h : Exclusive (holdsMutex s) s.mutex) {p : ι}
    {at' : Producer T} (hp : at'.holdsMutex = (s.producers p).holdsMutex) :
    Exclusive (holdsMutex (setProducer s p at')) s.mutex := by
  rw [holdsMutex_setProducer]
  exact h.keep hp

theorem exclusive_setConsumer {s : Queue ι κ T} (h : Exclusive (holdsMutex s) s.mutex) {c : κ}
    {at' : Consumer} (hc : at'.holdsMutex = (s.consumers c).holdsMutex) :
    Exclusive (holdsMutex (setConsumer s c at')) s.mutex := by
  rw [holdsMutex_setConsumer]
  exact h.keep hc

theorem exclusive_moves {s t : Queue ι κ T} (h : Exclusive (holdsMutex s) s.mutex)
    (hm : Moves s t) : Exclusive (holdsMutex t) t.mutex := by
  cases hm with
  | push hp => exact exclusive_setProducer h (by rw [hp]; rfl)
  | @lockPush p o hp hfree =>
    change Exclusive (holdsMutex (setProducer s p _)) _
    rw [hfree] at h
    rw [holdsMutex_setProducer]
    exact h.lock _
  | pushData hp => exact exclusive_setProducer h (by rw [hp]; rfl)
  | notify hp hc =>
    exact exclusive_setConsumer (exclusive_setProducer h (by rw [hp]; rfl)) (by
      simp only [setProducer]; rw [hc]; rfl)
  | notifyNobody hp _ => exact exclusive_setProducer h (by rw [hp]; rfl)
  | @unlockPush p hp =>
    change Exclusive (holdsMutex (setProducer s p _)) _
    rw [holdsMutex_setProducer]
    exact h.unlock (by simp only [holdsMutex, hp]; rfl)
  | waitAndPop hc => exact exclusive_setConsumer h (by rw [hc]; rfl)
  | @lock c hfree _ =>
    change Exclusive (holdsMutex (setConsumer s c _)) _
    rw [hfree] at h
    rw [holdsMutex_setConsumer]
    exact h.lock _
  | @wait c hc _ =>
    change Exclusive (holdsMutex (setConsumer s c _)) _
    rw [holdsMutex_setConsumer]
    exact h.unlock (by simp only [holdsMutex, hc]; rfl)
  | testTrue hc _ => exact exclusive_setConsumer h (by rw [hc]; rfl)
  | pop hc _ => exact exclusive_setConsumer h (by rw [hc]; rfl)
  | @unlock c hc =>
    change Exclusive (holdsMutex (setConsumer s c _)) _
    rw [holdsMutex_setConsumer]
    exact h.unlock (by simp only [holdsMutex, hc]; rfl)
  | wakeSpuriously hc => exact exclusive_setConsumer h (by rw [hc]; rfl)

/-! First in, first out -/

theorem fifo_moves {s t : Queue ι κ T} (h : s.popped ++ s.data = s.pushed) (hm : Moves s t) :
    t.popped ++ t.data = t.pushed := by
  cases hm with
  | pushData _ =>
    change s.popped ++ (s.data ++ _) = s.pushed ++ _
    rw [← List.append_assoc, h]
  | pop _ hdata =>
    change (s.popped ++ [_]) ++ _ = s.pushed
    rw [List.append_assoc, List.singleton_append, ← hdata, h]
  | _ => exact h

/-- `pushData` and `pop` are the operations of a FIFO, and no other step is seen. -/
theorem fifo_step {s t : Queue ι κ T} (h : s.popped ++ s.data = s.pushed) (hm : Moves s t) :
    t.pushed = s.pushed ∧ t.popped = s.popped ∨
      ∃ op output, Fifo.step ⟨s.pushed, s.popped.length⟩ op =
        some (⟨t.pushed, t.popped.length⟩, output) := by
  cases hm with
  | @pushData p o _ => exact .inr ⟨.push o, _, rfl⟩
  | @pop c o rest _ hdata =>
    have hnext : s.pushed[s.popped.length]? = some o := by
      rw [← h, hdata, List.getElem?_append_right (Nat.le_refl _), Nat.sub_self]
      rfl
    refine .inr ⟨.waitAndPop, .popped o, ?_⟩
    change _ = some ((⟨s.pushed, (s.popped ++ [o]).length⟩ : Fifo T), _)
    rw [Fifo.step, hnext, List.length_append]
    rfl
  | _ => exact .inl ⟨rfl, rfl⟩

omit [DecidableEq ι] in
theorem consumers_setConsumer {s : Queue ι κ T} {c d : κ} {at' what : Consumer}
    (h : (setConsumer s c at').consumers d = what) (hne : at' ≠ what) :
    d ≠ c ∧ s.consumers d = what := by
  by_cases hd : d = c
  · subst hd
    exact absurd ((Function.update_self ..).symm.trans h) hne
  · exact ⟨hd, (Function.update_of_ne hd ..).symm.trans h⟩

/-- A consumer that has seen an item and keeps the mutex finds it when it pops. -/
theorem nonempty_moves {s t : Queue ι κ T} (hmutex : Exclusive (holdsMutex s) s.mutex)
    (h : ∀ c, s.consumers c = .popping → s.data ≠ []) (hm : Moves s t) :
    ∀ c, t.consumers c = .popping → t.data ≠ [] := by
  intro d hd
  cases hm with
  | push _ | lockPush _ _ | notifyNobody _ _ | unlockPush _ => exact h d hd
  | pushData _ => exact List.append_ne_nil_of_right_ne_nil _ (List.cons_ne_nil _ _)
  | notify _ _ | waitAndPop _ | lock _ _ | wait _ _ | unlock _ | wakeSpuriously _ =>
    exact h d (consumers_setConsumer hd (by decide)).2
  | testTrue _ hdata => exact hdata
  | @pop c o rest hc _ =>
    obtain ⟨hne, hd'⟩ := consumers_setConsumer hd (by decide)
    have hholds : holdsMutex s (.inr d) = true := by simp only [holdsMutex, hd']; rfl
    have hpops : holdsMutex s (.inr c) = true := by simp only [holdsMutex, hc]; rfl
    exact absurd (Sum.inr.inj (hmutex.unique hholds hpops)) hne

/-! The wakeups -/

/-- Inside `WaitAndPop`, not blocked, and yet to pop. -/
def Consumer.awake : Consumer → Bool
  | .called | .testing | .woken | .popping => true
  | .outside | .waiting | .leaving => false

/-- Between `data_.push` and `notify_one`. -/
def Producer.notifying : Producer T → Bool
  | .pushed => true
  | .outside | .called _ | .locked _ | .notified => false

variable [Fintype ι] [Fintype κ]

/-- As long as someone waits there are no more items than awake consumers and
notifications to come. -/
def Covered (s : Queue ι κ T) : Prop :=
  ∀ c, s.consumers c = .waiting →
    s.data.length ≤ number Consumer.awake s.consumers + number Producer.notifying s.producers

omit [DecidableEq κ] in
theorem covered_setProducer {s : Queue ι κ T} (h : Covered s) {p : ι} {at' : Producer T}
    (hp : (s.producers p).notifying = at'.notifying) : Covered (setProducer s p at') := by
  intro d hd
  have hold := h d hd
  have hn := number_update Producer.notifying s.producers p at'
  rw [hp] at hn
  simp only [setProducer]
  omega

omit [DecidableEq ι] in
theorem covered_setConsumer {s : Queue ι κ T} (h : Covered s) {c : κ} {at' : Consumer}
    (hwaiting : at' ≠ .waiting) (hc : (s.consumers c).awake.toNat ≤ at'.awake.toNat) :
    Covered (setConsumer s c at') := by
  intro d hd
  have hold := h d (consumers_setConsumer hd hwaiting).2
  have hn := number_update Consumer.awake s.consumers c at'
  simp only [setConsumer]
  omega

theorem covered_moves {s t : Queue ι κ T} (h : Covered s) (hm : Moves s t) : Covered t := by
  cases hm with
  | push hp => exact covered_setProducer h (by rw [hp]; rfl)
  | lockPush hp _ => exact covered_setProducer h (by rw [hp]; rfl)
  | @pushData p o hp =>
    -- one item more, and its notification is still to come
    intro d hd
    have hold := h d hd
    have hn := number_update Producer.notifying s.producers p .pushed
    rw [hp] at hn
    simp only [Producer.notifying, Bool.toNat_true, Bool.toNat_false] at hn
    simp only [setProducer, List.length_append, List.length_singleton]
    omega
  | @notify p c hp hc =>
    -- the notification becomes an awake consumer
    intro d hd
    have hold := h c hc
    have hn := number_update Producer.notifying s.producers p .notified
    have ha := number_update Consumer.awake s.consumers c .woken
    rw [hp] at hn
    rw [hc] at ha
    simp only [Producer.notifying, Consumer.awake, Bool.toNat_true, Bool.toNat_false] at hn ha
    simp only [setConsumer, setProducer]
    omega
  | notifyNobody _ hnobody =>
    intro d hd
    exact absurd hd (hnobody d)
  | unlockPush hp => exact covered_setProducer h (by rw [hp]; rfl)
  | waitAndPop hc => exact covered_setConsumer h (by decide) (by rw [hc]; decide)
  | lock _ hc =>
    refine covered_setConsumer h (by decide) ?_
    rcases hc with hc | hc <;> rw [hc] <;> decide
  | wait _ hdata =>
    intro d _
    simp only [setConsumer, hdata, List.length_nil]
    omega
  | testTrue hc _ => exact covered_setConsumer h (by decide) (by rw [hc]; decide)
  | @pop c o rest hc hdata =>
    -- one item and one awake consumer less
    intro d hd
    have hold := h d (consumers_setConsumer hd (by decide)).2
    have ha := number_update Consumer.awake s.consumers c .leaving
    rw [hc] at ha
    rw [hdata, List.length_cons] at hold
    simp only [Consumer.awake, Bool.toNat_true, Bool.toNat_false] at ha
    simp only [setConsumer]
    omega
  | unlock hc => exact covered_setConsumer h (by decide) (by rw [hc]; decide)
  | wakeSpuriously hc => exact covered_setConsumer h (by decide) (by rw [hc]; decide)

structure Invariant (s : Queue ι κ T) : Prop where
  fifo : s.popped ++ s.data = s.pushed
  mutex : Exclusive (holdsMutex s) s.mutex
  nonempty : ∀ c, s.consumers c = .popping → s.data ≠ []
  covered : Covered s

omit [DecidableEq ι] [DecidableEq κ] in
theorem invariant_empty : Invariant (empty : Queue ι κ T) where
  fifo := rfl
  mutex x hx := by cases x <;> cases hx
  nonempty c hc := by cases hc
  covered c hc := by cases hc

theorem invariant_moves {s t : Queue ι κ T} (h : Invariant s) (hm : Moves s t) : Invariant t where
  fifo := fifo_moves h.fifo hm
  mutex := exclusive_moves h.mutex hm
  nonempty := nonempty_moves h.mutex h.nonempty hm
  covered := covered_moves h.covered hm

theorem invariant_reach {s : Queue ι κ T} (h : Reach step Any empty s) : Invariant s :=
  h.invariant invariant_empty fun _ _ _ hi _ hs => invariant_moves hi (step_moves hs)

/-- In any interleaving the queue is a FIFO whose operations are done one after another. -/
theorem refines_fifo {s : Queue ι κ T} (h : Reach step Any empty s) :
    ∃ f, Reach (fun f op => (Fifo.step f op).map Prod.fst) Any Fifo.new f ∧
      f.pushed = s.pushed ∧ f.popped = s.popped.length ∧ f.Holds s.data := by
  have hsim : ∃ f, Reach (fun f op => (Fifo.step f op).map Prod.fst) Any Fifo.new f ∧
      Invariant s ∧ f = ⟨s.pushed, s.popped.length⟩ := by
    refine h.simulate
      (R := fun (s : Queue ι κ T) (f : Fifo T) => Invariant s ∧ f = ⟨s.pushed, s.popped.length⟩)
      ⟨invariant_empty, rfl⟩ ?_
    rintro s₁ a s₂ f ⟨hi, rfl⟩ _ hs
    have hm := step_moves hs
    have hi' := invariant_moves hi hm
    rcases fifo_step hi.fifo hm with ⟨hpushed, hpopped⟩ | ⟨op, output, hop⟩
    · exact .inl ⟨hi', by rw [hpushed, hpopped]⟩
    · exact .inr ⟨op, _, trivial, by rw [hop]; rfl, hi', rfl⟩
  obtain ⟨f, hf, hi, rfl⟩ := hsim
  refine ⟨_, hf, rfl, rfl, ?_, ?_⟩
  · rw [← hi.fifo, List.length_append]
    exact Nat.le_add_right ..
  · rw [← hi.fifo, List.drop_left]

/-- Items in the queue, consumers in `WaitAndPop`, all of them blocked on the condition
variable, and nobody about to notify one. -/
def LostWakeup (s : Queue ι κ T) : Prop :=
  s.data ≠ [] ∧ (∃ c, s.consumers c ≠ .outside) ∧
    (∀ c, s.consumers c ≠ .outside → s.consumers c = .waiting) ∧
    ∀ p, s.producers p ≠ .pushed

/-- In every reachable state the values popped, followed by the contents, are the values
pushed; a consumer about to pop finds an item; and no wakeup is lost. -/
theorem fifo_no_lost_wakeup {s : Queue ι κ T} (h : Reach step Any empty s) :
    s.popped ++ s.data = s.pushed ∧ (∀ c, s.consumers c = .popping → s.data ≠ []) ∧
      ¬ LostWakeup s := by
  have hi := invariant_reach h
  refine ⟨hi.fifo, hi.nonempty, ?_⟩
  rintro ⟨hdata, ⟨c, hc⟩, hblocked, hquiet⟩
  have hcount := hi.covered c (hblocked c hc)
  have hpos := List.length_pos_iff.mpr hdata
  by_cases hawake : 0 < number Consumer.awake s.consumers
  · obtain ⟨d, hd⟩ := number_pos hawake
    have hwaiting := hblocked d fun hout => by rw [hout] at hd; cases hd
    rw [hwaiting] at hd
    cases hd
  · have hnotifying : 0 < number Producer.notifying s.producers := by omega
    obtain ⟨p, hp⟩ := number_pos hnotifying
    cases hprod : s.producers p with
    | pushed => exact hquiet p hprod
    | _ => rw [hprod] at hp; cases hp

end

/-- Consumer 0 waits and is notified of the first item, but consumer 1 takes it. -/
def stolen : List (Action (Fin 1) (Fin 2) Nat) :=
  [.waitAndPop 0, .lock 0, .test 0, .push 0 7, .lockPush 0, .pushData 0, .notifyOne 0 (some 0),
    .waitAndPop 1, .unlockPush 0, .lock 1, .test 1, .pop 1, .unlock 1, .lock 0, .test 0]

theorem fifo_no_lost_wakeup_stolen : ∃ s, run step empty stolen = some s ∧
    s.consumers 0 = .waiting ∧ s.popped = [7] ∧
    (s.popped ++ s.data = s.pushed ∧ (∀ c, s.consumers c = .popping → s.data ≠ []) ∧
      ¬ LostWakeup s) := by
  obtain ⟨s, hs⟩ : ∃ s, run step empty stolen = some s := ⟨_, rfl⟩
  have hfacts : s.consumers 0 = .waiting ∧ s.popped = [7] := by cases hs; exact ⟨rfl, rfl⟩
  exact ⟨s, hs, hfacts.1, hfacts.2, fifo_no_lost_wakeup (Reach.of_run hs)⟩

end Dousi.Core.StdLockedQueue
