import Dousi.Lib.Mutex
import Dousi.Lib.Transition
import Dousi.Lib.Word

/-!
# GetObject against the io thread

Threads `ι` wait in `GetObject` for a response while the io thread stores responses. The
loop looks under `mutex_`; once it has found the id it breaks out, which gives the mutex
back, and looks once more without it. One step is one statement of one thread that touches
what they share, but the change of the map takes two: what looks into the map in between
finds anything, and so does an iterator that an insertion has left behind.
-/
namespace Dousi.Client.GetObject

open Dousi.Lib.Word
open Dousi.Lib.Transition
open Dousi.Lib.Mutex

/-- Where a thread is in `GetObject`. It holds `mutex_` while `locked`, `found` and
`missed`. -/
inductive Getter where
  | outside
  | called (objectId : UInt64)
  | locked (objectId : UInt64)
  | found (objectId : UInt64)
  | missed (objectId : UInt64)
  | sleeping (objectId : UInt64)
  /-- before the second `find` -/
  | leftLoop (objectId : UInt64)
  /-- before the copy of `it->second` -/
  | iterator (objectId : UInt64)
  /-- the same, with an iterator that may not be valid -/
  | dangling (objectId : UInt64)
  /-- before the decoding, which returns or throws -/
  | copied (objectId : UInt64) (serializedBytes : Bytes)

/-- Where the io thread is in the callback of `DoConnect`. -/
inductive IoThread where
  | reading
  | received (objectId : UInt32) (buffer : Bytes)
  | locked (objectId : UInt32) (buffer : Bytes)
  /-- in the change of the map -/
  | storing (objectId : UInt32) (buffer : Bytes)
  | stored

/-- What was stored is a history. -/
structure State (ι : Type) where
  mutex : Option (ι ⊕ Unit)
  cachedObjects : UInt64 → Option Bytes
  getters : ι → Getter
  ioThread : IoThread
  /-- the assertion after the loop has failed -/
  aborted : Bool
  history : List (UInt64 × Bytes)

/-- `tornFind` and `tornCopy` are `findAgain` and `copy` in a map that is being changed, or
with an iterator that is not valid, with what comes of it. -/
inductive Action (ι : Type) where
  | getObject (i : ι) (objectId : UInt64)
  | lock (i : ι)
  | find (i : ι)
  | unlock (i : ι)
  | wake (i : ι)
  | findAgain (i : ι)
  | tornFind (i : ι) (found : Bool)
  | copy (i : ι)
  | tornCopy (i : ι) (serializedBytes : Bytes)
  | done (i : ι)
  | receive (objectId : UInt32) (buffer : Bytes)
  | lockIo
  | insert
  | store
  | unlockIo

/-- The thread that takes the step; the io thread is `.inr ()`. -/
def Action.thread {ι : Type} : Action ι → ι ⊕ Unit
  | .getObject i _ | .lock i | .find i | .unlock i | .wake i | .findAgain i | .tornFind i _
  | .copy i | .tornCopy i _ | .done i => .inl i
  | .receive .. | .lockIo | .insert | .store | .unlockIo => .inr ()

def IoThread.changes : IoThread → Bool
  | .storing .. => true
  | _ => false

/-- An insertion may rehash the table, which makes the iterators invalid. -/
def Getter.rehashed : Getter → Getter
  | .iterator objectId => .dangling objectId
  | g => g

section
variable {ι : Type} [DecidableEq ι]

def init : State ι := ⟨none, fun _ => none, fun _ => .outside, .reading, false, []⟩

def setGetter (s : State ι) (i : ι) (g : Getter) : State ι :=
  { s with getters := Function.update s.getters i g }

/-- Nothing happens after a failed assertion. -/
def step (s : State ι) (a : Action ι) : Option (State ι) :=
  if s.aborted then none else
  match a with
  | .getObject i objectId =>
    match s.getters i with
    | .outside => some (setGetter s i (.called objectId))
    | _ => none
  | .lock i =>
    match s.getters i, s.mutex with
    | .called objectId, none =>
      some { setGetter s i (.locked objectId) with mutex := some (.inl i) }
    | _, _ => none
  | .find i =>
    match s.getters i with
    | .locked objectId =>
      if (s.cachedObjects objectId).isSome then some (setGetter s i (.found objectId))
      else some (setGetter s i (.missed objectId))
    | _ => none
  | .unlock i =>
    match s.getters i with
    | .found objectId => some { setGetter s i (.leftLoop objectId) with mutex := none }
    | .missed objectId => some { setGetter s i (.sleeping objectId) with mutex := none }
    | _ => none
  | .wake i =>
    match s.getters i with
    | .sleeping objectId => some (setGetter s i (.called objectId))
    | _ => none
  | .findAgain i =>
    match s.getters i, s.ioThread.changes with
    | .leftLoop objectId, false =>
      if (s.cachedObjects objectId).isSome then some (setGetter s i (.iterator objectId))
      else some { s with aborted := true }
    | _, _ => none
  | .tornFind i found =>
    match s.getters i, s.ioThread.changes, found with
    | .leftLoop objectId, true, true => some (setGetter s i (.dangling objectId))
    | .leftLoop _, true, false => some { s with aborted := true }
    | _, _, _ => none
  | .copy i =>
    match s.getters i, s.ioThread.changes with
    | .iterator objectId, false =>
      (s.cachedObjects objectId).map fun bytes => setGetter s i (.copied objectId bytes)
    | _, _ => none
  | .tornCopy i bytes =>
    match s.getters i, s.ioThread.changes with
    | .iterator objectId, true => some (setGetter s i (.copied objectId bytes))
    | .dangling objectId, _ => some (setGetter s i (.copied objectId bytes))
    | _, _ => none
  | .done i =>
    match s.getters i with
    | .copied .. => some (setGetter s i .outside)
    | _ => none
  | .receive objectId buffer =>
    match s.ioThread with
    | .reading => some { s with ioThread := .received objectId buffer }
    | _ => none
  | .lockIo =>
    match s.ioThread, s.mutex with
    | .received objectId buffer, none =>
      some { s with ioThread := .locked objectId buffer, mutex := some (.inr ()) }
    | _, _ => none
  | .insert =>
    match s.ioThread with
    | .locked objectId buffer =>
      some { s with
        ioThread := .storing objectId buffer
        getters :=
          if (s.cachedObjects objectId.toUInt64).isSome then s.getters
          else fun i => (s.getters i).rehashed }
    | _ => none
  | .store =>
    match s.ioThread with
    | .storing objectId buffer =>
      some { s with
        ioThread := .stored
        cachedObjects := Function.update s.cachedObjects objectId.toUInt64 (some buffer)
        history := s.history ++ [(objectId.toUInt64, buffer)] }
    | _ => none
  | .unlockIo =>
    match s.ioThread with
    | .stored => some { s with ioThread := .reading, mutex := none }
    | _ => none

/-- Nobody looks into the map while it is being changed, or through an iterator that is not
valid. -/
def Undisturbed (_ : State ι) : Action ι → Prop
  | .tornFind .. | .tornCopy .. => False
  | _ => True

instance (s : State ι) : (a : Action ι) → Decidable (Undisturbed s a)
  | .tornFind .. | .tornCopy .. => isFalse id
  | .getObject .. | .lock _ | .find _ | .unlock _ | .wake _ | .findAgain _ | .copy _ | .done _
  | .receive .. | .lockIo | .insert | .store | .unlockIo => isTrue trivial

/-- How an action of thread `i` takes it on. -/
inductive Next (s : State ι) (i : ι) : Action ι → Getter → Getter → Prop
  | getObject (objectId : UInt64) : Next s i (.getObject i objectId) .outside (.called objectId)
  | lock (objectId : UInt64) : s.mutex = none →
      Next s i (.lock i) (.called objectId) (.locked objectId)
  | find {objectId : UInt64} : (s.cachedObjects objectId).isSome = true →
      Next s i (.find i) (.locked objectId) (.found objectId)
  | miss {objectId : UInt64} : ¬ (s.cachedObjects objectId).isSome = true →
      Next s i (.find i) (.locked objectId) (.missed objectId)
  | leaveLoop (objectId : UInt64) : Next s i (.unlock i) (.found objectId) (.leftLoop objectId)
  | sleep (objectId : UInt64) : Next s i (.unlock i) (.missed objectId) (.sleeping objectId)
  | wake (objectId : UInt64) : Next s i (.wake i) (.sleeping objectId) (.called objectId)
  | findAgain {objectId : UInt64} : (s.cachedObjects objectId).isSome = true →
      Next s i (.findAgain i) (.leftLoop objectId) (.iterator objectId)
  | tornFind (objectId : UInt64) :
      Next s i (.tornFind i true) (.leftLoop objectId) (.dangling objectId)
  | copy {objectId : UInt64} {bytes : Bytes} : s.cachedObjects objectId = some bytes →
      Next s i (.copy i) (.iterator objectId) (.copied objectId bytes)
  | tornCopy (objectId : UInt64) (bytes : Bytes) :
      Next s i (.tornCopy i bytes) (.iterator objectId) (.copied objectId bytes)
  | danglingCopy (objectId : UInt64) (bytes : Bytes) :
      Next s i (.tornCopy i bytes) (.dangling objectId) (.copied objectId bytes)
  | done (objectId : UInt64) (bytes : Bytes) :
      Next s i (.done i) (.copied objectId bytes) .outside

/-- Who has the mutex after an action. -/
def Action.mutexAfter (m : Option (ι ⊕ Unit)) : Action ι → Option (ι ⊕ Unit)
  | .lock i => some (.inl i)
  | .lockIo => some (.inr ())
  | .unlock _ | .unlockIo => none
  | _ => m

/-- What a step can do. -/
inductive Moves (s : State ι) : Action ι → State ι → Prop
  | getter {i a g} : a.thread = .inl i → Next s i a (s.getters i) g →
      Moves s a { setGetter s i g with mutex := a.mutexAfter s.mutex }
  | abort {i objectId} : s.getters i = .leftLoop objectId →
      ¬ (s.cachedObjects objectId).isSome = true →
      Moves s (.findAgain i) { s with aborted := true }
  | tornAbort {i objectId} : s.getters i = .leftLoop objectId → s.ioThread.changes = true →
      Moves s (.tornFind i false) { s with aborted := true }
  | receive (objectId buffer) : s.ioThread = .reading →
      Moves s (.receive objectId buffer) { s with ioThread := .received objectId buffer }
  | lockIo {objectId buffer} : s.ioThread = .received objectId buffer → s.mutex = none →
      Moves s .lockIo { s with ioThread := .locked objectId buffer, mutex := some (.inr ()) }
  | insert {objectId buffer} : s.ioThread = .locked objectId buffer → Moves s .insert { s with
      ioThread := .storing objectId buffer
      getters :=
        if (s.cachedObjects objectId.toUInt64).isSome then s.getters
        else fun i => (s.getters i).rehashed }
  | store {objectId buffer} : s.ioThread = .storing objectId buffer → Moves s .store { s with
      ioThread := .stored
      cachedObjects := Function.update s.cachedObjects objectId.toUInt64 (some buffer)
      history := s.history ++ [(objectId.toUInt64, buffer)] }
  | unlockIo : s.ioThread = .stored →
      Moves s .unlockIo { s with ioThread := .reading, mutex := none }

theorem step_moves {s t : State ι} {a : Action ι} (h : step s a = some t) : Moves s a t := by
  unfold step at h
  split at h
  · cases h
  cases a with
  | getObject i objectId =>
    dsimp only at h
    split at h <;> cases h
    next hg => exact .getter rfl (hg ▸ .getObject objectId)
  | lock i =>
    dsimp only at h
    split at h <;> cases h
    next hg hfree => exact .getter rfl (hg ▸ .lock _ hfree)
  | find i =>
    dsimp only at h
    split at h
    · next hg =>
      split at h <;> cases h
      · next hsome => exact .getter rfl (hg ▸ .find hsome)
      · next hnone => exact .getter rfl (hg ▸ .miss hnone)
    · cases h
  | unlock i =>
    dsimp only at h
    split at h <;> cases h
    · next hg => exact .getter rfl (hg ▸ .leaveLoop _)
    · next hg => exact .getter rfl (hg ▸ .sleep _)
  | wake i =>
    dsimp only at h
    split at h <;> cases h
    next hg => exact .getter rfl (hg ▸ .wake _)
  | findAgain i =>
    dsimp only at h
    split at h
    · next hg _ =>
      split at h <;> cases h
      · next hsome => exact .getter rfl (hg ▸ .findAgain hsome)
      · next hnone => exact .abort hg hnone
    · cases h
  | tornFind i found =>
    dsimp only at h
    split at h <;> cases h
    · next hg _ => exact .getter rfl (hg ▸ .tornFind _)
    · next hg hchanges => exact .tornAbort hg hchanges
  | copy i =>
    dsimp only at h
    split at h
    · next hg _ =>
      obtain ⟨bytes, hbytes, rfl⟩ := Option.map_eq_some_iff.mp h
      exact .getter rfl (hg ▸ .copy hbytes)
    · cases h
  | tornCopy i bytes =>
    dsimp only at h
    split at h <;> cases h
    · next hg _ => exact .getter rfl (hg ▸ .tornCopy _ bytes)
    · next hg => exact .getter rfl (hg ▸ .danglingCopy _ bytes)
  | done i =>
    dsimp only at h
    split at h <;> cases h
    next hg => exact .getter rfl (hg ▸ .done _ _)
  | receive objectId buffer =>
    dsimp only at h
    split at h <;> cases h
    exact .receive objectId buffer ‹_›
  | lockIo =>
    dsimp only at h
    split at h <;> cases h
    exact .lockIo ‹_› ‹_›
  | insert =>
    dsimp only at h
    split at h <;> cases h
    exact .insert ‹_›
  | store =>
    dsimp only at h
    split at h <;> cases h
    exact .store ‹_›
  | unlockIo =>
    dsimp only at h
    split at h <;> cases h
    exact .unlockIo ‹_›

/-! The mutex -/

def Getter.holdsMutex : Getter → Bool
  | .locked _ | .found _ | .missed _ => true
  | _ => false

def IoThread.holdsMutex : IoThread → Bool
  | .locked .. | .storing .. | .stored => true
  | _ => false

def holdsMutex (s : State ι) : ι ⊕ Unit → Bool
  | .inl i => (s.getters i).holdsMutex
  | .inr () => s.ioThread.holdsMutex

omit [DecidableEq ι] in
theorem Getter.holdsMutex_rehashed (g : Getter) : g.rehashed.holdsMutex = g.holdsMutex := by
  cases g <;> rfl

theorem holdsMutex_setGetter (s : State ι) (i : ι) (g : Getter) (m : Option (ι ⊕ Unit)) :
    holdsMutex { setGetter s i g with mutex := m } =
      Function.update (holdsMutex s) (.inl i) g.holdsMutex := by
  funext x
  cases x with
  | inl j =>
    by_cases hj : j = i
    · subst hj; simp [holdsMutex, setGetter]
    · simp [holdsMutex, setGetter, hj]
  | inr u => simp [holdsMutex, setGetter]

theorem holdsMutex_ioThread (s : State ι) (io : IoThread) :
    holdsMutex { s with ioThread := io } =
      Function.update (holdsMutex s) (.inr ()) io.holdsMutex := by
  funext x
  cases x with
  | inl j => simp [holdsMutex]
  | inr u => simp [holdsMutex]

/-- The mutex is held by the one thread that is between locking and unlocking. -/
structure Locking (s : State ι) : Prop where
  exclusive : Exclusive (holdsMutex s) s.mutex
  owned : Owned (holdsMutex s) s.mutex

omit [DecidableEq ι] in
theorem locking_init : Locking (init : State ι) := by
  constructor
  · intro x hx
    cases x <;> cases hx
  · rintro x ⟨⟩

theorem locking_keep {s t : State ι} (h : Locking s) {x : ι ⊕ Unit} {b : Bool}
    (ht : holdsMutex t = Function.update (holdsMutex s) x b) (hmutex : t.mutex = s.mutex)
    (hb : b = holdsMutex s x) : Locking t := by
  constructor <;> rw [ht, hmutex]
  · exact h.exclusive.keep hb
  · exact h.owned.keep hb

theorem locking_lock {s t : State ι} (h : Locking s) (hfree : s.mutex = none) {x : ι ⊕ Unit}
    (ht : holdsMutex t = Function.update (holdsMutex s) x true) (hmutex : t.mutex = some x) :
    Locking t := by
  have hx := h.exclusive
  rw [hfree] at hx
  constructor <;> rw [ht, hmutex]
  · exact hx.lock x
  · exact Owned.lock x

theorem locking_unlock {s t : State ι} (h : Locking s) {x : ι ⊕ Unit}
    (ht : holdsMutex t = Function.update (holdsMutex s) x false) (hmutex : t.mutex = none)
    (hheld : holdsMutex s x = true) : Locking t := by
  constructor <;> rw [hmutex]
  · rw [ht]
    exact h.exclusive.unlock hheld
  · exact Owned.unlock

theorem locking_moves {s t : State ι} {a : Action ι} (h : Locking s) (hm : Moves s a t) :
    Locking t := by
  cases hm with
  | @getter i a g _ hnext =>
    have hset := holdsMutex_setGetter s i g (a.mutexAfter s.mutex)
    have hold : holdsMutex s (.inl i) = (s.getters i).holdsMutex := rfl
    generalize hg : s.getters i = old at hnext hold
    cases hnext with
    | lock objectId hfree => exact locking_lock h hfree hset rfl
    | leaveLoop objectId => exact locking_unlock h hset rfl hold
    | sleep objectId => exact locking_unlock h hset rfl hold
    | _ => exact locking_keep h hset rfl hold.symm
  | abort _ _ => exact ⟨h.exclusive, h.owned⟩
  | tornAbort _ _ => exact ⟨h.exclusive, h.owned⟩
  | receive objectId buffer hio =>
    exact locking_keep h (holdsMutex_ioThread ..) rfl (by simp only [holdsMutex, hio]; rfl)
  | lockIo hio hfree => exact locking_lock h hfree (holdsMutex_ioThread ..) rfl
  | @insert objectId buffer hio =>
    have hsame : holdsMutex { s with
        ioThread := .storing objectId buffer
        getters := if (s.cachedObjects objectId.toUInt64).isSome then s.getters
          else fun i => (s.getters i).rehashed } =
        holdsMutex { s with ioThread := .storing objectId buffer } := by
      funext x
      cases x with
      | inl i =>
        simp only [holdsMutex]
        split
        · rfl
        · exact Getter.holdsMutex_rehashed _
      | inr u => rfl
    exact locking_keep h (hsame.trans (holdsMutex_ioThread ..)) rfl
      (by simp only [holdsMutex, hio]; rfl)
  | store hio =>
    exact locking_keep h (holdsMutex_ioThread ..) rfl (by simp only [holdsMutex, hio]; rfl)
  | unlockIo hio =>
    exact locking_unlock h (holdsMutex_ioThread ..) rfl (by simp only [holdsMutex, hio]; rfl)

theorem locking_reach {C : State ι → Action ι → Prop} {s : State ι} (h : Reach step C init s) :
    Locking s :=
  h.invariant locking_init fun _ _ _ hi _ hs => locking_moves hi (step_moves hs)

/-! What is stored stays -/

/-- The last response stored under an id. -/
def lastStored (history : List (UInt64 × Bytes)) (objectId : UInt64) : Option Bytes :=
  ((history.filter fun e => e.1 = objectId).getLast?).map Prod.snd

theorem lastStored_mem {history : List (UInt64 × Bytes)} {objectId : UInt64} {bytes : Bytes}
    (h : lastStored history objectId = some bytes) : (objectId, bytes) ∈ history := by
  obtain ⟨⟨id, b⟩, he, rfl⟩ := Option.map_eq_some_iff.mp h
  obtain ⟨hmem, hid⟩ := List.mem_filter.mp (List.mem_of_getLast? he)
  obtain rfl : id = objectId := of_decide_eq_true hid
  exact hmem

theorem lastStored_snoc (history : List (UInt64 × Bytes)) (key : UInt64) (buffer : Bytes) :
    lastStored (history ++ [(key, buffer)]) =
      Function.update (lastStored history) key (some buffer) := by
  funext objectId
  by_cases hid : objectId = key
  · subst hid
    simp [lastStored]
  · rw [Function.update_of_ne hid]
    simp [lastStored, Ne.symm hid]

theorem cached_moves {s t : State ι} {a : Action ι}
    (h : s.cachedObjects = lastStored s.history) (hm : Moves s a t) :
    t.cachedObjects = lastStored t.history := by
  cases hm with
  | store _ =>
    dsimp only
    rw [lastStored_snoc, h]
  | _ => exact h

theorem cached_reach {C : State ι → Action ι → Prop} {s : State ι} (h : Reach step C init s) :
    s.cachedObjects = lastStored s.history :=
  h.invariant (I := fun s => s.cachedObjects = lastStored s.history) rfl
    fun _ _ _ hi _ hs => cached_moves hi (step_moves hs)

/-- Entries are added and replaced, never taken away. -/
theorem stored_moves {s t : State ι} {a : Action ι} (hm : Moves s a t) {objectId : UInt64}
    (h : (s.cachedObjects objectId).isSome = true) :
    (t.cachedObjects objectId).isSome = true := by
  cases hm with
  | @store key buffer _ =>
    by_cases hk : objectId = key.toUInt64
    · subst hk
      simp
    · simpa [Function.update_of_ne hk] using h
  | _ => exact h

/-- A thread past the loop has found its id, and copies what was stored under it. -/
def Found (s : State ι) : Getter → Prop
  | .found objectId | .leftLoop objectId | .iterator objectId | .dangling objectId =>
    (s.cachedObjects objectId).isSome = true
  | .copied objectId bytes => (objectId, bytes) ∈ s.history
  | _ => True

structure Kept (s : State ι) : Prop where
  getters : ∀ i, Found s (s.getters i)
  alive : s.aborted = false

omit [DecidableEq ι] in
theorem kept_init : Kept (init : State ι) := ⟨fun _ => trivial, rfl⟩

omit [DecidableEq ι] in
theorem found_rehashed {s : State ι} {g : Getter} (h : Found s g) : Found s g.rehashed := by
  cases g <;> exact h

theorem found_moves {s t : State ι} {a : Action ι} (hm : Moves s a t) {g : Getter}
    (h : Found s g) : Found t g := by
  have hhistory : ∀ e ∈ s.history, e ∈ t.history := by
    cases hm with
    | store _ => exact fun e he => List.mem_append_left _ he
    | _ => exact fun e he => he
  cases g with
  | found _ | leftLoop _ | iterator _ | dangling _ => exact stored_moves hm h
  | copied objectId bytes => exact hhistory _ h
  | _ => trivial

theorem kept_moves {s t : State ι} {a : Action ι} (h : Kept s)
    (hcached : s.cachedObjects = lastStored s.history) (hc : Undisturbed s a) (hm : Moves s a t) :
    Kept t := by
  have hkeep := fun i => found_moves hm (h.getters i)
  cases hm with
  | @getter i a g _ hnext =>
    refine ⟨fun j => ?_, h.alive⟩
    by_cases hj : j = i
    · subst hj
      have hnew : Found s g := by
        have hold := h.getters j
        generalize s.getters j = old at hnext hold
        cases hnext with
        | find hsome => exact hsome
        | leaveLoop objectId => exact hold
        | findAgain hsome => exact hsome
        | copy hbytes =>
          rw [hcached] at hbytes
          exact lastStored_mem hbytes
        | tornFind _ | tornCopy _ _ | danglingCopy _ _ => exact hc.elim
        | _ => trivial
      simp only [setGetter, Function.update_self]
      cases g <;> exact hnew
    · simp only [setGetter, Function.update_of_ne hj]
      exact hkeep j
  | @abort i objectId hi hnone =>
    have hg := h.getters i
    rw [hi] at hg
    exact absurd hg hnone
  | tornAbort _ _ => exact hc.elim
  | @insert objectId buffer _ =>
    refine ⟨fun i => ?_, h.alive⟩
    dsimp only
    split
    · exact hkeep i
    · exact found_rehashed (hkeep i)
  | _ => exact ⟨hkeep, h.alive⟩

theorem kept_reach {s : State ι} (h : Reach step Undisturbed init s) : Kept s := by
  have hboth := h.invariant (I := fun s => Kept s ∧ s.cachedObjects = lastStored s.history)
    ⟨kept_init, rfl⟩ fun _ _ _ hi hc hs =>
      ⟨kept_moves hi.1 hi.2 hc (step_moves hs), cached_moves hi.2 (step_moves hs)⟩
  exact hboth.1

/-- Whatever the threads do, the map has the last response stored under every id and no two
threads are between locking and unlocking. As long as nobody looks into the map while it is
being changed, or through an iterator that an insertion has left behind, the assertion after
the loop holds, and what a call of `GetObject` decodes was stored under its id. -/
theorem returns_stored :
    (∀ s : State ι, Reach step Any init s →
      (∀ objectId, s.cachedObjects objectId = lastStored s.history objectId) ∧
        ∀ x y, holdsMutex s x = true → holdsMutex s y = true → x = y) ∧
    ∀ s : State ι, Reach step Undisturbed init s → s.aborted = false ∧
      ∀ i objectId bytes, s.getters i = .copied objectId bytes → (objectId, bytes) ∈ s.history := by
  refine ⟨fun s h => ⟨fun objectId => congrFun (cached_reach h) objectId, fun x y hx hy =>
    (locking_reach h).exclusive.unique hx hy⟩, fun s h => ⟨(kept_reach h).alive, ?_⟩⟩
  intro i objectId bytes hi
  have hg := (kept_reach h).getters i
  rwa [hi] at hg

end

/-- Two threads ask for the same response before it comes, and one of them for another one
that is stored in between. -/
def copiedTwo : List (Action Bool) :=
  [.getObject true 0, .lock true, .find true, .unlock true, .getObject false 0,
    .receive 0 [7], .lockIo, .insert, .store, .unlockIo, .lock false, .find false,
    .unlock false, .wake true, .receive 1 [8], .lockIo, .insert, .store, .findAgain false,
    .unlockIo, .lock true, .copy false, .find true, .unlock true, .findAgain true, .copy true]

theorem returns_stored_copiedTwo : ∃ s : State Bool, run step init copiedTwo = some s ∧
    (∀ i, s.getters i = .copied 0 [7]) ∧ s.history = [(0, [7]), (1, [8])] ∧
    ((∀ objectId, s.cachedObjects objectId = lastStored s.history objectId) ∧
      ∀ x y, holdsMutex s x = true → holdsMutex s y = true → x = y) ∧
    s.aborted = false ∧ ∀ i objectId bytes, s.getters i = .copied objectId bytes →
      (objectId, bytes) ∈ s.history := by
  have hrun : run (guarded step Undisturbed) init copiedTwo = run step init copiedTwo := rfl
  obtain ⟨s, hs, hcopied, hhistory⟩ : ∃ s : State Bool, run step init copiedTwo = some s ∧
      (∀ i, s.getters i = .copied 0 [7]) ∧ s.history = [(0, [7]), (1, [8])] :=
    ⟨_, rfl, by rintro (_ | _) <;> rfl, rfl⟩
  exact ⟨s, hs, hcopied, hhistory, returns_stored.1 s (Reach.of_run hs),
    returns_stored.2 s (Reach.of_guarded (hrun.trans hs))⟩

/-! The accesses without the mutex -/

/-- The next statement of the thread reads the map. -/
def Getter.reads : Getter → Bool
  | .locked _ | .leftLoop _ | .iterator _ | .dangling _ => true
  | _ => false

/-- The io thread is about to change the map or in the middle of it. -/
def IoThread.writes : IoThread → Bool
  | .locked .. | .storing .. => true
  | _ => false

/-- Past the loop, with the map still to be read. -/
def Getter.unprotected : Getter → Bool
  | .leftLoop _ | .iterator _ | .dangling _ => true
  | _ => false

section
variable {ι : Type} [DecidableEq ι]

/-- A run of the other threads that leaves thread `i` where it is. -/
structure Around (i : ι) (s : State ι) (acts : List (Action ι)) (t : State ι) : Prop where
  replays : run (guarded step Undisturbed) s acts = some t
  others : ∀ a ∈ acts, a.thread ≠ .inl i
  stays : t.getters i = s.getters i
  alive : t.aborted = false

theorem Around.trans {i : ι} {s t u : State ι} {left right : List (Action ι)}
    (hl : Around i s left t) (hr : Around i t right u) : Around i s (left ++ right) u where
  replays := by rw [run_append, hl.replays, Option.bind_some, hr.replays]
  others a ha := (List.mem_append.mp ha).elim (hl.others a) (hr.others a)
  stays := hr.stays.trans hl.stays
  alive := hr.alive

theorem around_refl {i : ι} {s : State ι} (halive : s.aborted = false) : Around i s [] s :=
  ⟨rfl, nofun, rfl, halive⟩

theorem around_single {i : ι} {s t : State ι} {a : Action ι} (ha : a.thread ≠ .inl i)
    (hc : Undisturbed s a) (hs : step s a = some t) (hstays : t.getters i = s.getters i)
    (halive : t.aborted = false) : Around i s [a] t where
  replays := by
    rw [run, guarded_eq_some.mpr ⟨hc, hs⟩]
    rfl
  others b hb := by
    rw [List.mem_singleton.mp hb]
    exact ha
  stays := hstays
  alive := halive

theorem around_setGetter {i j : ι} {s : State ι} (halive : s.aborted = false) (hj : j ≠ i)
    {a : Action ι} {g : Getter} {m : Option (ι ⊕ Unit)} (ha : a.thread = .inl j)
    (hc : Undisturbed s a) (hs : step s a = some { setGetter s j g with mutex := m }) :
    Around i s [a] { setGetter s j g with mutex := m } :=
  around_single (by rw [ha]; simpa using hj) hc hs (Function.update_of_ne (Ne.symm hj) ..) halive

/-- A thread in the loop that has the mutex goes on to give it back. -/
theorem getter_unlocks {i j : ι} {s : State ι} (halive : s.aborted = false) (hj : j ≠ i)
    (hheld : (s.getters j).holdsMutex = true) :
    ∃ acts t, Around i s acts t ∧ t.mutex = none ∧ t.ioThread = s.ioThread := by
  have hunlock : ∀ u : State ι, u.aborted = false → u.ioThread = s.ioThread →
      (∃ objectId, u.getters j = .found objectId ∨ u.getters j = .missed objectId) →
      ∃ acts t, Around i u acts t ∧ t.mutex = none ∧ t.ioThread = s.ioThread := by
    rintro u halive hio ⟨objectId, hu | hu⟩
    · exact ⟨[.unlock j], _, around_setGetter (g := .leftLoop objectId) (m := none) halive hj rfl
        trivial (by simp [step, halive, hu]), rfl, hio⟩
    · exact ⟨[.unlock j], _, around_setGetter (g := .sleeping objectId) (m := none) halive hj rfl
        trivial (by simp [step, halive, hu]), rfl, hio⟩
  cases hg : s.getters j with
  | locked objectId =>
    obtain ⟨g, hstep, hnext⟩ : ∃ g, step s (.find j) = some (setGetter s j g) ∧
        (g = .found objectId ∨ g = .missed objectId) := by
      by_cases hsome : (s.cachedObjects objectId).isSome
      · exact ⟨.found objectId, by simp [step, halive, hg, hsome], .inl rfl⟩
      · exact ⟨.missed objectId, by simp [step, halive, hg, hsome], .inr rfl⟩
    have hfind : Around i s [.find j] (setGetter s j g) :=
      around_setGetter (m := s.mutex) halive hj rfl trivial hstep
    obtain ⟨acts, t, haround, hfree, hio⟩ := hunlock (setGetter s j g) halive rfl
      ⟨objectId, by simpa [setGetter] using hnext⟩
    exact ⟨_, t, hfind.trans haround, hfree, hio⟩
  | found objectId => exact hunlock s halive rfl ⟨objectId, .inl hg⟩
  | missed objectId => exact hunlock s halive rfl ⟨objectId, .inr hg⟩
  | _ => rw [hg] at hheld; cases hheld

theorem step_insert {s : State ι} (halive : s.aborted = false) {objectId : UInt32}
    {buffer : Bytes} (hio : s.ioThread = .locked objectId buffer) :
    ∃ t, step s .insert = some t ∧ t.aborted = false ∧ t.ioThread = .storing objectId buffer ∧
      ∀ i, t.getters i = s.getters i ∨ t.getters i = (s.getters i).rehashed := by
  refine ⟨{ s with
    ioThread := .storing objectId buffer
    getters := if (s.cachedObjects objectId.toUInt64).isSome then s.getters
      else fun i => (s.getters i).rehashed }, by simp [step, halive, hio], halive, rfl, ?_⟩
  intro i
  dsimp only
  split
  · exact .inl rfl
  · exact .inr rfl

end

/-- The id a thread is waiting for. -/
def Getter.asks : Getter → Option UInt64
  | .called objectId | .locked objectId | .found objectId | .missed objectId
  | .sleeping objectId | .leftLoop objectId | .iterator objectId | .dangling objectId =>
    some objectId
  | .outside | .copied .. => none

/-- The steps that a thread has to take when its id is there. One that looked too early
goes through the loop once more. -/
def Getter.rest : Getter → Nat
  | .missed _ => 7
  | .sleeping _ => 6
  | .called _ => 5
  | .locked _ => 4
  | .found _ => 3
  | .leftLoop _ => 2
  | .iterator _ | .dangling _ => 1
  | .outside | .copied .. => 0

theorem Getter.rest_le (g : Getter) : g.rest ≤ 7 := by
  cases g <;> simp [Getter.rest]

theorem Getter.rest_rehashed (g : Getter) : g.rehashed.rest = g.rest := by
  cases g <;> rfl

/-- The thread waits for `objectId` or has copied its response. -/
def Getter.comesTo (objectId : UInt64) (g : Getter) : Prop :=
  g.asks = some objectId ∨ ∃ bytes, g = .copied objectId bytes

theorem Getter.comesTo_rehashed {objectId : UInt64} {g : Getter} (h : g.comesTo objectId) :
    g.rehashed.comesTo objectId := by
  cases g with
  | iterator id => exact h.imp_right fun ⟨_, hcopied⟩ => nomatch hcopied
  | _ => exact h

theorem Getter.asked {objectId id : UInt64} {g : Getter} (h : g.comesTo objectId)
    (hid : g.asks = some id) : objectId = id := by
  rcases h with heq | ⟨bytes, rfl⟩
  · exact Option.some.inj (heq.symm.trans hid)
  · cases hid

section
variable {ι : Type} [DecidableEq ι]

/-- The response for thread `i` is stored, and it is on its way to copy it. -/
structure Due (s : State ι) (i : ι) (objectId : UInt64) : Prop where
  stored : (s.cachedObjects objectId).isSome = true
  comesTo : (s.getters i).comesTo objectId

/-- A step of the thread itself is one step less to go. -/
theorem due_own {s t : State ι} {i : ι} {objectId : UInt64} (h : Due s i objectId)
    {a : Action ι} (ha : a.thread = .inl i) (hdone : a ≠ .done i) (hc : Undisturbed s a)
    (hs : step s a = some t) : Due t i objectId ∧ (t.getters i).rest < (s.getters i).rest := by
  cases step_moves hs with
  | @getter j a g hj hnext =>
    obtain rfl : j = i := Sum.inl.inj (hj.symm.trans ha)
    have hself : (setGetter s j g).getters j = g := Function.update_self ..
    have hg : g.comesTo objectId ∧ g.rest < (s.getters j).rest := by
      have hcomes := h.comesTo
      generalize s.getters j = old at hnext hcomes
      cases hnext with
      | getObject id => rcases hcomes with hasks | ⟨bytes, hcopied⟩ <;> contradiction
      | miss hnone =>
        obtain rfl := Getter.asked hcomes rfl
        exact absurd h.stored hnone
      | copy _ =>
        obtain rfl := Getter.asked hcomes rfl
        exact ⟨.inr ⟨_, rfl⟩, Nat.one_pos⟩
      | tornFind _ | tornCopy _ _ | danglingCopy _ _ => exact hc.elim
      | done id bytes => exact absurd rfl hdone
      | _ =>
        obtain rfl := Getter.asked hcomes rfl
        exact ⟨.inl rfl, by simp [Getter.rest]⟩
    exact ⟨⟨h.stored, by rw [hself]; exact hg.1⟩, by rw [hself]; exact hg.2⟩
  | @abort j id hj hnone =>
    obtain rfl : j = i := Sum.inl.inj ha
    obtain rfl := Getter.asked h.comesTo (by rw [hj]; rfl)
    exact absurd h.stored hnone
  | tornAbort _ _ => exact hc.elim
  | _ => cases ha

/-- A thread moves by its own steps only, but an insertion may make its iterator dangle. -/
theorem getters_step {s t : State ι} {a : Action ι} (hs : step s a = some t) {i : ι}
    (ha : a.thread ≠ .inl i) :
    t.getters i = s.getters i ∨ t.getters i = (s.getters i).rehashed := by
  cases step_moves hs with
  | @getter j a g hj _ =>
    rw [hj] at ha
    exact .inl (Function.update_of_ne (fun heq => ha (by rw [heq])) ..)
  | @insert objectId buffer _ =>
    dsimp only
    split
    · exact .inl rfl
    · exact .inr rfl
  | _ => exact .inl rfl

/-- A step of another thread leaves it as much to do. -/
theorem due_other {s t : State ι} {i : ι} {objectId : UInt64} (h : Due s i objectId)
    {a : Action ι} (ha : a.thread ≠ .inl i) (hs : step s a = some t) :
    Due t i objectId ∧ (t.getters i).rest = (s.getters i).rest := by
  have hstored := stored_moves (step_moves hs) h.stored
  rcases getters_step hs ha with hsame | hsame
  · exact ⟨⟨hstored, by rw [hsame]; exact h.comesTo⟩, by rw [hsame]⟩
  · exact ⟨⟨hstored, by rw [hsame]; exact Getter.comesTo_rehashed h.comesTo⟩,
      by rw [hsame, Getter.rest_rehashed]⟩

/-- The steps of thread `i` in a schedule. -/
def ownSteps (i : ι) (acts : List (Action ι)) : Nat := acts.countP fun a => a.thread = .inl i

theorem due_run {s t : State ι} {i : ι} {objectId : UInt64} (h : Due s i objectId)
    {acts : List (Action ι)} (hrun : run (guarded step Undisturbed) s acts = some t)
    (hdone : ∀ a ∈ acts, a ≠ .done i) :
    Due t i objectId ∧ ownSteps i acts + (t.getters i).rest ≤ (s.getters i).rest := by
  induction acts generalizing s with
  | nil =>
    cases hrun
    exact ⟨h, Nat.le_of_eq (Nat.zero_add _)⟩
  | cons a rest ih =>
    obtain ⟨u, hs, hrest⟩ := Option.bind_eq_some_iff.mp hrun
    obtain ⟨hc, hs⟩ := guarded_eq_some.mp hs
    have hdone' : ∀ b ∈ rest, b ≠ .done i := fun b hb => hdone b (List.mem_cons_of_mem _ hb)
    by_cases ha : a.thread = .inl i
    · obtain ⟨hu, hlt⟩ := due_own h ha (hdone a List.mem_cons_self) hc hs
      obtain ⟨ht, hle⟩ := ih hu hrest hdone'
      refine ⟨ht, ?_⟩
      rw [ownSteps, List.countP_cons_of_pos (by simpa using ha), ← ownSteps]
      omega
    · obtain ⟨hu, hsame⟩ := due_other h ha hs
      obtain ⟨ht, hle⟩ := ih hu hrest hdone'
      refine ⟨ht, ?_⟩
      rw [ownSteps, List.countP_cons_of_neg (by simpa using ha), ← ownSteps, ← hsame]
      exact hle

/-- The mutex is free where the thread needs it, and nobody is changing the map where it
looks without it. -/
def Ready (s : State ι) (i : ι) : Prop :=
  ((∃ id, s.getters i = .called id) → s.mutex = none) ∧
    ((s.getters i).unprotected = true → s.ioThread.changes = false)

/-- The io thread ends the change of the map. -/
theorem io_stores {i : ι} {s : State ι} (halive : s.aborted = false)
    (hchanges : s.ioThread.changes = true) :
    ∃ acts t, Around i s acts t ∧ t.ioThread = .stored := by
  cases hio : s.ioThread with
  | storing objectId buffer =>
    have hstore : Around i s [.store] { s with
        cachedObjects := Function.update s.cachedObjects objectId.toUInt64 (some buffer)
        ioThread := .stored
        history := s.history ++ [(objectId.toUInt64, buffer)] } :=
      around_single (a := .store) nofun trivial (by simp [step, halive, hio]) rfl halive
    exact ⟨_, _, hstore, rfl⟩
  | _ => rw [hio] at hchanges; cases hchanges

/-- Who has the mutex gives it back. -/
theorem others_unlock {i : ι} {s : State ι} (hl : Locking s) (halive : s.aborted = false)
    {objectId : UInt64} (hi : s.getters i = .called objectId) :
    ∃ acts t, Around i s acts t ∧ t.mutex = none := by
  cases hm : s.mutex with
  | none => exact ⟨[], s, around_refl halive, hm⟩
  | some x =>
    have hheld := hl.owned x hm
    cases x with
    | inl j =>
      have hj : j ≠ i := by
        rintro rfl
        change (s.getters j).holdsMutex = true at hheld
        rw [hi] at hheld
        cases hheld
      obtain ⟨acts, t, haround, hfree, -⟩ := getter_unlocks halive hj hheld
      exact ⟨acts, t, haround, hfree⟩
    | inr u =>
      change s.ioThread.holdsMutex = true at hheld
      have hstored : ∀ {acts t}, Around i s acts t → t.ioThread = .stored →
          ∃ acts t, Around i s acts t ∧ t.mutex = none := by
        intro acts t haround hio
        have hunlock : Around i t [.unlockIo] { t with ioThread := .reading, mutex := none } :=
          around_single (a := .unlockIo) nofun trivial (by simp [step, haround.alive, hio]) rfl
            haround.alive
        exact ⟨_, _, haround.trans hunlock, rfl⟩
      cases hio : s.ioThread with
      | locked key buffer =>
        obtain ⟨u, hu, halive', hio', hgetters⟩ := step_insert halive hio
        have hinsert : Around i s [.insert] u := by
          refine around_single (a := .insert) nofun trivial hu ?_ halive'
          rcases hgetters i with hsame | hsame <;> rw [hsame, hi]
          rfl
        obtain ⟨acts, t, haround, ht⟩ := io_stores (i := i) halive' (by rw [hio']; rfl)
        exact hstored (hinsert.trans haround) ht
      | storing key buffer =>
        obtain ⟨acts, t, haround, ht⟩ := io_stores (i := i) halive (by rw [hio]; rfl)
        exact hstored haround ht
      | stored => exact hstored (around_refl halive) hio
      | _ => rw [hio] at hheld; cases hheld

/-- The others can go on until the thread can take its next step. -/
theorem others_ready {i : ι} {s : State ι} (hl : Locking s) (halive : s.aborted = false) :
    ∃ acts t, Around i s acts t ∧ Ready t i := by
  by_cases hcalled : ∃ id, s.getters i = .called id
  · obtain ⟨id, hi⟩ := hcalled
    obtain ⟨acts, t, haround, hfree⟩ := others_unlock hl halive hi
    refine ⟨acts, t, haround, fun _ => hfree, fun hpast => ?_⟩
    rw [haround.stays, hi] at hpast
    cases hpast
  · cases hchanges : s.ioThread.changes with
    | false => exact ⟨[], s, around_refl halive, fun h => absurd h hcalled, fun _ => hchanges⟩
    | true =>
      obtain ⟨acts, t, haround, hio⟩ := io_stores (i := i) halive hchanges
      exact ⟨acts, t, haround, fun h => absurd (haround.stays ▸ h) hcalled,
        fun _ => by rw [hio]; rfl⟩

/-- A thread on its way with a valid iterator has a next step. -/
theorem own_enabled {s : State ι} {i : ι} {objectId : UInt64} (halive : s.aborted = false)
    (h : Due s i objectId) (hrest : 0 < (s.getters i).rest) (hready : Ready s i)
    (hvalid : ∀ id, s.getters i ≠ .dangling id) :
    ∃ a t, a.thread = .inl i ∧ a ≠ .done i ∧ Undisturbed s a ∧ step s a = some t ∧
      ∀ id, t.getters i ≠ .dangling id := by
  have htake : ∀ {a : Action ι} {g : Getter} {m : Option (ι ⊕ Unit)}, a.thread = .inl i →
      a ≠ .done i → Undisturbed s a → (∀ id, g ≠ .dangling id) →
      step s a = some { setGetter s i g with mutex := m } →
      ∃ a t, a.thread = .inl i ∧ a ≠ .done i ∧ Undisturbed s a ∧ step s a = some t ∧
        ∀ id, t.getters i ≠ .dangling id := by
    intro a g m ha hdone hc hg hs
    refine ⟨a, _, ha, hdone, hc, hs, fun id => ?_⟩
    simp only [setGetter, Function.update_self]
    exact hg id
  cases hg : s.getters i with
  | outside | copied _ _ =>
    rw [hg] at hrest
    exact absurd hrest (Nat.lt_irrefl 0)
  | called id =>
    have hfree := hready.1 ⟨id, hg⟩
    exact htake (a := .lock i) (g := .locked id) (m := some (.inl i)) rfl nofun trivial nofun
      (by simp [step, halive, hg, hfree])
  | locked id =>
    obtain rfl := Getter.asked h.comesTo (by rw [hg]; rfl)
    exact htake (a := .find i) (g := .found objectId) (m := s.mutex) rfl nofun trivial nofun
      (by simp [step, halive, hg, h.stored]; rfl)
  | found id =>
    exact htake (a := .unlock i) (g := .leftLoop id) (m := none) rfl nofun trivial nofun
      (by simp [step, halive, hg])
  | missed id =>
    exact htake (a := .unlock i) (g := .sleeping id) (m := none) rfl nofun trivial nofun
      (by simp [step, halive, hg])
  | sleeping id =>
    exact htake (a := .wake i) (g := .called id) (m := s.mutex) rfl nofun trivial nofun
      (by simp [step, halive, hg]; rfl)
  | leftLoop id =>
    obtain rfl := Getter.asked h.comesTo (by rw [hg]; rfl)
    have hquiet := hready.2 (by rw [hg]; rfl)
    exact htake (a := .findAgain i) (g := .iterator objectId) (m := s.mutex) rfl nofun trivial
      nofun (by simp [step, halive, hg, hquiet, h.stored]; rfl)
  | iterator id =>
    obtain rfl := Getter.asked h.comesTo (by rw [hg]; rfl)
    have hquiet := hready.2 (by rw [hg]; rfl)
    obtain ⟨bytes, hbytes⟩ := Option.isSome_iff_exists.mp h.stored
    exact htake (a := .copy i) (g := .copied objectId bytes) (m := s.mutex) rfl nofun trivial
      nofun (by simp [step, halive, hg, hquiet, hbytes]; rfl)
  | dangling id => exact absurd hg (hvalid id)

/-- It takes its next step, when the others have made way for it. -/
theorem due_goes_on {s : State ι} {i : ι} {objectId : UInt64} (hl : Locking s)
    (halive : s.aborted = false) (h : Due s i objectId) (hrest : 0 < (s.getters i).rest)
    (hvalid : ∀ id, s.getters i ≠ .dangling id) :
    ∃ acts t, run (guarded step Undisturbed) s acts = some t ∧ (∀ a ∈ acts, a ≠ .done i) ∧
      (t.getters i).rest < (s.getters i).rest ∧ ∀ id, t.getters i ≠ .dangling id := by
  obtain ⟨acts, t, haround, hready⟩ := others_ready (i := i) hl halive
  have hother : ∀ a ∈ acts, a ≠ .done i := by
    rintro a ha rfl
    exact haround.others _ ha rfl
  have ht := (due_run h haround.replays hother).1
  rw [← haround.stays] at hrest hvalid ⊢
  obtain ⟨a, u, ha, hdone, hc, hs, hvalid'⟩ := own_enabled haround.alive ht hrest hready hvalid
  refine ⟨acts ++ [a], u, ?_, ?_, (due_own ht ha hdone hc hs).2, hvalid'⟩
  · rw [run_append, haround.replays, Option.bind_some, run, guarded_eq_some.mpr ⟨hc, hs⟩]
    rfl
  · intro b hb
    rcases List.mem_append.mp hb with hb | hb
    · exact hother b hb
    · rw [List.mem_singleton.mp hb]
      exact hdone

omit [DecidableEq ι] in
theorem copied_of_due {s : State ι} {i : ι} {objectId : UInt64} (h : Due s i objectId)
    (hrest : (s.getters i).rest = 0) : ∃ bytes, s.getters i = .copied objectId bytes := by
  rcases h.comesTo with hasks | hcopied
  · cases hg : s.getters i with
    | outside | copied _ _ =>
      rw [hg] at hasks
      cases hasks
    | _ =>
      rw [hg] at hrest
      cases hrest
  · exact hcopied

theorem due_copies {s : State ι} {i : ι} {objectId : UInt64}
    (hs : Reach step Undisturbed init s) (h : Due s i objectId)
    (hvalid : ∀ id, s.getters i ≠ .dangling id) :
    ∃ acts t bytes, run (guarded step Undisturbed) s acts = some t ∧
      (∀ a ∈ acts, a ≠ .done i) ∧ t.getters i = .copied objectId bytes ∧
      (objectId, bytes) ∈ t.history := by
  generalize hn : (s.getters i).rest = n
  induction n using Nat.strongRecOn generalizing s with
  | ind n ih =>
    rcases Nat.eq_zero_or_pos n with rfl | hpos
    · obtain ⟨bytes, hbytes⟩ := copied_of_due h hn
      exact ⟨[], s, bytes, rfl, nofun, hbytes, returns_stored.2 s hs |>.2 i _ _ hbytes⟩
    · obtain ⟨acts, t, hrun, hdone, hlt, hvalid'⟩ := due_goes_on (locking_reach hs)
        (kept_reach hs).alive h (hn ▸ hpos) hvalid
      obtain ⟨more, u, bytes, hmore, hdone', hu⟩ := ih _ (hn ▸ hlt)
        (hs.trans (Reach.of_guarded hrun)) (due_run h hrun hdone).1 hvalid' rfl
      refine ⟨acts ++ more, u, bytes, ?_, ?_, hu⟩
      · rw [run_append, hrun, Option.bind_some, hmore]
      · exact fun a ha => (List.mem_append.mp ha).elim (hdone a) (hdone' a)

/-- Once the response is in the map, whatever the other threads and the io thread do as
long as nobody looks into the map while it is being changed: a thread that asks for it takes
at most seven steps more until it has a copy of what was stored, and unless an insertion has
made its iterator dangle it can never be kept from it for good. -/
theorem returns_once_stored {s : State ι} (h : Reach step Undisturbed init s) {i : ι}
    {objectId : UInt64} (hi : (s.getters i).asks = some objectId)
    (hstored : (s.cachedObjects objectId).isSome = true) {acts : List (Action ι)} {t : State ι}
    (hrun : run (guarded step Undisturbed) s acts = some t) (hdone : ∀ a ∈ acts, a ≠ .done i) :
    ownSteps i acts ≤ 7 ∧ ((∀ id, t.getters i ≠ .dangling id) →
      ∃ more u bytes, run (guarded step Undisturbed) t more = some u ∧
        (∀ a ∈ more, a ≠ .done i) ∧ u.getters i = .copied objectId bytes ∧
        (objectId, bytes) ∈ u.history) := by
  obtain ⟨hdue, hsteps⟩ := due_run ⟨hstored, .inl hi⟩ hrun hdone
  have hle := (s.getters i).rest_le
  exact ⟨by omega, due_copies (h.trans (Reach.of_guarded hrun)) hdue⟩

end

/-- A thread that has looked too early, and the response then. -/
def lookedEarly : List (Action Unit) :=
  [.getObject () 0, .lock (), .find (), .unlock (), .receive 0 [7], .lockIo, .insert, .store]

theorem returns_once_stored_lookedEarly : ∃ s t : State Unit,
    run step init lookedEarly = some s ∧
    run (guarded step Undisturbed) s [.wake (), .unlockIo, .lock ()] = some t ∧
    (s.getters ()).asks = some 0 ∧ (s.cachedObjects 0).isSome = true ∧
    (∀ id, t.getters () ≠ .dangling id) ∧
    (ownSteps () [.wake (), .unlockIo, .lock ()] ≤ 7 ∧ ((∀ id, t.getters () ≠ .dangling id) →
      ∃ more u bytes, run (guarded step Undisturbed) t more = some u ∧
        (∀ a ∈ more, a ≠ .done ()) ∧ u.getters () = .copied 0 bytes ∧ (0, bytes) ∈ u.history)) :=
  ⟨_, _, rfl, rfl, rfl, rfl, nofun, returns_once_stored
    (Reach.of_guarded (show run (guarded step Undisturbed) init lookedEarly = some _ from rfl))
    rfl rfl rfl (by simp)⟩

end Dousi.Client.GetObject
