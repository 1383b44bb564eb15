import Dousi.Lib.Interface
import Mathlib.Algebra.Group.Nat.Defs

/-!
# The two queues with the operations of ConcurrentQueueInterface

Operations are done one after another. `boost::lockfree::queue` is a third-party type and
enters as a structure of its functions with the documented fact that it is a FIFO. The
specification keeps all values pushed and the number of pops.
-/
namespace Dousi.Core.ConcurrentQueue

open Dousi.Lib.Interface

inductive Op (T : Type) where
  | push (o : T)
  | waitAndPop
  | getSize
  | isEmpty

inductive Output (T : Type) where
  | done
  | popped (o : T)
  | size (n : Nat)
  | empty (b : Bool)
  deriving DecidableEq

section
variable {Q T : Type}

/-! `StdLockedQueue`, as a thread sees it that has the lock -/

structure StdLockedQueue (T : Type) where
  data : List T

namespace StdLockedQueue

def push (q : StdLockedQueue T) (o : T) : StdLockedQueue T := ⟨q.data ++ [o]⟩

/-- `none` while the queue is empty: the condition variable waits. -/
def waitAndPop (q : StdLockedQueue T) : Option (T × StdLockedQueue T) :=
  match q.data with
  | [] => none
  | o :: rest => some (o, ⟨rest⟩)

/-- `data_.size()`, narrowed to the return type. -/
def getSize (q : StdLockedQueue T) : UInt32 := UInt32.ofNat q.data.length

def isEmpty (q : StdLockedQueue T) : Bool := q.data.isEmpty

def step (q : StdLockedQueue T) : Op T → Option (StdLockedQueue T × Output T)
  | .push o => some (q.push o, .done)
  | .waitAndPop => q.waitAndPop.map fun r => (r.2, .popped r.1)
  | .getSize => some (q, .size q.getSize.toNat)
  | .isEmpty => some (q, .empty q.isEmpty)

end StdLockedQueue

/-! `BoostLockFreeQueue` -/

/-- `boost::lockfree::queue<T>`. -/
structure LockFree (Q T : Type) where
  init : Q
  push : Q → T → Q × Bool
  pop : Q → Q × Option T
  empty : Q → Bool

/-- What the library documents, for one thread: a FIFO whose `push` succeeds. -/
structure LockFree.IsFifo (lf : LockFree Q T) (contents : Q → List T) : Prop where
  init : contents lf.init = []
  push : ∀ q o, contents (lf.push q o).1 = contents q ++ [o] ∧ (lf.push q o).2 = true
  pop_nil : ∀ q, contents q = [] → (lf.pop q).2 = none
  pop_cons : ∀ q o rest, contents q = o :: rest →
    (lf.pop q).2 = some o ∧ contents (lf.pop q).1 = rest
  empty : ∀ q, lf.empty q = (contents q).isEmpty

structure BoostLockFreeQueue (Q : Type) where
  data : Q

namespace BoostLockFreeQueue

/-- What `data_.push` returns is not looked at. -/
def push (lf : LockFree Q T) (q : BoostLockFreeQueue Q) (o : T) : BoostLockFreeQueue Q :=
  ⟨(lf.push q.data o).1⟩

/-- One round of the loop; `none` when it sleeps and tries again. -/
def waitAndPop (lf : LockFree Q T) (q : BoostLockFreeQueue Q) :
    Option (T × BoostLockFreeQueue Q) :=
  (lf.pop q.data).2.map fun o => (o, ⟨(lf.pop q.data).1⟩)

def getSize (_ : BoostLockFreeQueue Q) : UInt32 := 0

def isEmpty (lf : LockFree Q T) (q : BoostLockFreeQueue Q) : Bool := lf.empty q.data

def step (lf : LockFree Q T) (q : BoostLockFreeQueue Q) :
    Op T → Option (BoostLockFreeQueue Q × Output T)
  | .push o => some (push lf q o, .done)
  | .waitAndPop => (waitAndPop lf q).map fun r => (r.2, .popped r.1)
  | .getSize => some (q, .size q.getSize.toNat)
  | .isEmpty => some (q, .empty (isEmpty lf q))

end BoostLockFreeQueue

/-! What the interface is for -/

/-- The pops take the first of the values pushed, each once. -/
structure Fifo (T : Type) where
  pushed : List T
  popped : Nat

namespace Fifo

def new : Fifo T := ⟨[], 0⟩

def step (f : Fifo T) : Op T → Option (Fifo T × Output T)
  | .push o => some ({ f with pushed := f.pushed ++ [o] }, .done)
  | .waitAndPop => f.pushed[f.popped]?.map fun o => ({ f with popped := f.popped + 1 }, .popped o)
  | .getSize => some (f, .size (f.pushed.length - f.popped))
  | .isEmpty => some (f, .empty (f.pushed.length == f.popped))

/-- The values pushed and not popped. -/
structure Holds (f : Fifo T) (contents : List T) : Prop where
  popped : f.popped ≤ f.pushed.length
  contents : contents = f.pushed.drop f.popped

theorem Holds.length {f : Fifo T} {contents : List T} (h : f.Holds contents) :
    contents.length = f.pushed.length - f.popped := by
  rw [h.contents, List.length_drop]

theorem Holds.isEmpty {f : Fifo T} {contents : List T} (h : f.Holds contents) :
    contents.isEmpty = (f.pushed.length == f.popped) := by
  have hp := h.popped
  rw [Bool.eq_iff_iff, List.isEmpty_iff_length_eq_zero, h.length, beq_iff_eq]
  omega

theorem Holds.push {f : Fifo T} {contents : List T} (h : f.Holds contents) (o : T) :
    Holds { f with pushed := f.pushed ++ [o] } (contents ++ [o]) := by
  refine ⟨?_, ?_⟩
  · have hp := h.popped
    simp only [List.length_append, List.length_singleton]
    omega
  · rw [h.contents, List.drop_append_of_le_length h.popped]

theorem Holds.pop {f : Fifo T} {contents : List T} (h : f.Holds contents) {o : T}
    (ho : f.pushed[f.popped]? = some o) :
    ∃ rest, contents = o :: rest ∧ Holds { f with popped := f.popped + 1 } rest := by
  obtain ⟨hlt, rfl⟩ := List.getElem?_eq_some_iff.mp ho
  exact ⟨_, h.contents.trans (List.drop_eq_getElem_cons hlt), hlt, rfl⟩

end Fifo

/-- A size is asked for only when it is a 32-bit number. -/
def SizeFits (f : Fifo T) : Op T → Prop
  | .getSize => f.pushed.length - f.popped < 2 ^ 32
  | _ => True

/-- A size is asked for only when everything pushed has been popped. -/
def AskedWhenEmpty (f : Fifo T) : Op T → Prop
  | .getSize => f.pushed.length = f.popped
  | _ => True

theorem std_agrees (q : StdLockedQueue T) (f : Fifo T) (op : Op T) (r : Fifo T × Output T)
    (h : f.Holds q.data) (hf : f.step op = some r) (hfits : SizeFits f op) :
    ∃ q', q.step op = some (q', r.2) ∧ r.1.Holds q'.data := by
  cases op with
  | push o =>
    cases hf
    exact ⟨_, rfl, h.push o⟩
  | waitAndPop =>
    obtain ⟨o, ho, rfl⟩ := Option.map_eq_some_iff.mp hf
    obtain ⟨rest, hdata, hrest⟩ := h.pop ho
    exact ⟨⟨rest⟩, by simp [StdLockedQueue.step, StdLockedQueue.waitAndPop, hdata], hrest⟩
  | getSize =>
    cases hf
    refine ⟨q, ?_, h⟩
    have hsize : q.getSize.toNat = q.data.length :=
      UInt32.toNat_ofNat_of_lt' (h.length ▸ hfits)
    rw [StdLockedQueue.step, hsize, h.length]
  | isEmpty =>
    cases hf
    exact ⟨q, by rw [StdLockedQueue.step, StdLockedQueue.isEmpty, h.isEmpty], h⟩

theorem std_differs (q : StdLockedQueue T) (f : Fifo T) (op : Op T) (r : Fifo T × Output T)
    (q' : StdLockedQueue T) (_ : f.Holds q.data) (hf : f.step op = some r)
    (hs : q.step op = some (q', r.2)) : SizeFits f op := by
  cases op with
  | getSize =>
    cases hf
    have hsize : q.getSize.toNat = f.pushed.length - f.popped := by
      simpa [StdLockedQueue.step] using congrArg (Option.map Prod.snd) hs
    change f.pushed.length - f.popped < 2 ^ 32
    rw [← hsize]
    exact q.getSize.toNat_lt
  | _ => trivial

theorem boost_agrees {lf : LockFree Q T} {contents : Q → List T} (hlf : lf.IsFifo contents)
    (q : BoostLockFreeQueue Q) (f : Fifo T) (op : Op T) (r : Fifo T × Output T)
    (h : f.Holds (contents q.data)) (hf : f.step op = some r) (hempty : AskedWhenEmpty f op) :
    ∃ q', q.step lf op = some (q', r.2) ∧ r.1.Holds (contents q'.data) := by
  cases op with
  | push o =>
    cases hf
    refine ⟨_, rfl, ?_⟩
    rw [BoostLockFreeQueue.push, (hlf.push q.data o).1]
    exact h.push o
  | waitAndPop =>
    obtain ⟨o, ho, rfl⟩ := Option.map_eq_some_iff.mp hf
    obtain ⟨rest, hdata, hrest⟩ := h.pop ho
    obtain ⟨hpop, hleft⟩ := hlf.pop_cons _ _ _ hdata
    refine ⟨⟨(lf.pop q.data).1⟩, ?_, ?_⟩
    · simp [BoostLockFreeQueue.step, BoostLockFreeQueue.waitAndPop, hpop]
    · rw [hleft]
      exact hrest
  | getSize =>
    cases hf
    refine ⟨q, ?_, h⟩
    have hzero : f.pushed.length - f.popped = 0 := Nat.sub_eq_zero_of_le (Nat.le_of_eq hempty)
    rw [hzero]
    rfl
  | isEmpty =>
    cases hf
    exact ⟨q, by rw [BoostLockFreeQueue.step, BoostLockFreeQueue.isEmpty, hlf.empty, h.isEmpty], h⟩

theorem boost_differs {lf : LockFree Q T} {contents : Q → List T} (q : BoostLockFreeQueue Q)
    (f : Fifo T) (op : Op T) (r : Fifo T × Output T) (q' : BoostLockFreeQueue Q)
    (h : f.Holds (contents q.data)) (hf : f.step op = some r)
    (hs : q.step lf op = some (q', r.2)) : AskedWhenEmpty f op := by
  cases op with
  | getSize =>
    cases hf
    have hzero : 0 = f.pushed.length - f.popped := by
      simpa [BoostLockFreeQueue.step, BoostLockFreeQueue.getSize] using
        congrArg (Option.map Prod.snd) hs
    exact Nat.le_antisymm (Nat.le_of_sub_eq_zero hzero.symm) h.popped
  | _ => trivial

theorem holds_new : (Fifo.new : Fifo T).Holds [] := ⟨Nat.le_refl 0, rfl⟩

/-- On a sequence that pops only what there is, with fewer than `2 ^ 32` items whenever a
size is asked for: the two queues return the same values, and the right ones, exactly when
sizes are asked for only at an empty queue. -/
theorem interchangeable_iff {lf : LockFree Q T} {contents : Q → List T}
    (hlf : lf.IsFifo contents) {ops : List (Op T)} {outs : List (Output T)}
    (houts : outputs Fifo.step Fifo.new ops = some outs)
    (hfits : Along Fifo.step SizeFits Fifo.new ops) :
    (outputs (BoostLockFreeQueue.step lf) ⟨lf.init⟩ ops =
        outputs StdLockedQueue.step ⟨[]⟩ ops ∧
      outputs StdLockedQueue.step ⟨[]⟩ ops = some outs) ↔
    Along Fifo.step AskedWhenEmpty Fifo.new ops := by
  have hstd : outputs StdLockedQueue.step ⟨[]⟩ ops = some outs :=
    (outputs_eq_iff std_agrees std_differs holds_new houts).mpr hfits
  have hinit : Fifo.new.Holds (contents (BoostLockFreeQueue.mk lf.init).data) := by
    rw [hlf.init]
    exact holds_new
  have hboost := outputs_eq_iff
    (R := fun (q : BoostLockFreeQueue Q) f => Fifo.Holds f (contents q.data))
    (boost_agrees hlf) boost_differs hinit houts
  rw [hstd, ← hboost]
  exact and_iff_left rfl

end

/-- The lock-free queue as a list. -/
def listQueue : LockFree (List Nat) Nat where
  init := []
  push q o := (q ++ [o], true)
  pop q := (q.tail, q.head?)
  empty := List.isEmpty

theorem listQueue_isFifo : listQueue.IsFifo id where
  init := rfl
  push _ _ := ⟨rfl, rfl⟩
  pop_nil q h := by obtain rfl : q = [] := h; rfl
  pop_cons q o rest h := by obtain rfl : q = o :: rest := h; exact ⟨rfl, rfl⟩
  empty _ := rfl

/-- After one push the sizes are 0 and 1. -/
theorem size_differs :
    outputs (BoostLockFreeQueue.step listQueue) ⟨listQueue.init⟩ [.push 7, .getSize] =
      some [.done, .size 0] ∧
    outputs StdLockedQueue.step ⟨[]⟩ [.push 7, .getSize] = some [.done, .size 1] ∧
    outputs (BoostLockFreeQueue.step listQueue) ⟨listQueue.init⟩ [.push 7, .getSize] ≠
      outputs StdLockedQueue.step ⟨[]⟩ [.push 7, .getSize] := by
  decide

/-- With the size asked for after the pop they agree. -/
theorem interchangeable_popped :
    (outputs (BoostLockFreeQueue.step listQueue) ⟨listQueue.init⟩
          [.push 7, .isEmpty, .waitAndPop, .getSize] =
        outputs StdLockedQueue.step ⟨[]⟩ [.push 7, .isEmpty, .waitAndPop, .getSize] ∧
      outputs StdLockedQueue.step ⟨[]⟩ [.push 7, .isEmpty, .waitAndPop, .getSize] =
        some [.done, .empty false, .popped 7, .size 0]) ↔
    Along Fifo.step AskedWhenEmpty Fifo.new [.push 7, .isEmpty, .waitAndPop, .getSize] := by
  refine interchangeable_iff listQueue_isFifo rfl ⟨trivial, ?_⟩
  rintro r ⟨⟩
  refine ⟨trivial, ?_⟩
  rintro r ⟨⟩
  refine ⟨trivial, ?_⟩
  rintro r ⟨⟩
  exact ⟨by change 0 < 2 ^ 32; decide, fun _ _ => trivial⟩

end Dousi.Core.ConcurrentQueue
