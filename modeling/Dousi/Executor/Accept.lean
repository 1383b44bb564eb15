import Dousi.Lib.Log
import Dousi.Lib.Transition
import Dousi.Lib.Word
import Mathlib.Logic.Function.Basic
import Mathlib.Tactic.Common

/-!
# DoAccept, the stream ids and the streams map

`DoAccept` runs on the thread of `Loop`, one handler after another. Its handler on
success takes a stream id, makes the `AsioStream`, and under `streams_mutex_` puts
it into `streams_` and starts its read loop. `connections` lists the `AsioStream`
objects in the order they are made; the map refers to them by position.
-/
namespace Dousi.Executor.Accept

open Dousi.Lib.Transition
open Dousi.Lib.Log
open Dousi.Lib.Word (ofNat_inj)

variable {io : Nat}

/-- An `AsioStream` with the thread that runs its handlers. `reading` holds while its
read loop goes on. -/
structure AsioStream (io : Nat) where
  streamId : UInt64
  ioThread : Fin io
  reading : Bool
  isOpen : Bool

/-- Where the handler chain of `DoAccept` stands. -/
inductive Phase (io : Nat) where
  | listening (ioThread : Fin io)
  | made (connection : Nat)
  /-- `streams_mutex_` is held -/
  | inserted (connection : Nat)

structure Acceptor (io : Nat) where
  phase : Phase io
  nextIndex : Fin io
  currStreamId : UInt64
  streams : UInt64 → Option Nat
  connections : List (AsioStream io)

inductive Action where
  | accept
  | acceptError
  | insert
  | start
  | readError (connection : Nat)
  | writeError (connection : Nat)

/-- `next_index_ = (++next_index_) % pool_size_`. -/
def nextIndex (i : Fin io) : Fin io :=
  ⟨(i.val + 1) % io, Nat.mod_lt _ (Nat.lt_of_le_of_lt (Nat.zero_le _) i.isLt)⟩

/-- `DoAccept` gives the next socket to `GetNextIOService()`. -/
def doAccept (a : Acceptor io) : Acceptor io :=
  { a with phase := .listening a.nextIndex, nextIndex := nextIndex a.nextIndex }

/-- The state in which `Loop` has called `DoAccept` for the first time. -/
def loop (h : 0 < io) : Acceptor io :=
  doAccept ⟨.listening ⟨0, h⟩, ⟨0, h⟩, 0, fun _ => none, []⟩

def setStream (a : Acceptor io) (k : Nat) (f : AsioStream io → AsioStream io) : Acceptor io :=
  { a with connections := a.connections.modify k f }

def step (a : Acceptor io) : Action → Option (Acceptor io)
  | .accept =>
    match a.phase with
    | .listening ioThread =>
      some { a with
        phase := .made a.connections.length
        currStreamId := a.currStreamId + 1
        connections := a.connections ++ [⟨a.currStreamId, ioThread, false, true⟩] }
    | _ => none
  | .acceptError =>
    match a.phase with
    | .listening _ => some (doAccept a)
    | _ => none
  | .insert =>
    match a.phase with
    | .made k => (a.connections[k]?).map fun stream =>
        { a with
          phase := .inserted k
          streams := Function.update a.streams stream.streamId (some k) }
    | _ => none
  | .start =>
    match a.phase with
    | .inserted k => some (doAccept (setStream a k fun stream => { stream with reading := true }))
    | _ => none
  | .readError k =>
    -- the handler logs and returns, so that no further read is started
    some (setStream a k fun stream => { stream with reading := false })
  | .writeError k => some (setStream a k fun stream => { stream with isOpen := false })

/-- What a step can do. -/
inductive Moves (a : Acceptor io) : Action → Acceptor io → Prop
  | accept {ioThread : Fin io} : a.phase = .listening ioThread → Moves a .accept { a with
      phase := .made a.connections.length
      currStreamId := a.currStreamId + 1
      connections := a.connections ++ [⟨a.currStreamId, ioThread, false, true⟩] }
  | acceptError {ioThread : Fin io} : a.phase = .listening ioThread →
      Moves a .acceptError (doAccept a)
  | insert {k : Nat} {stream : AsioStream io} : a.phase = .made k →
      a.connections[k]? = some stream → Moves a .insert { a with
        phase := .inserted k
        streams := Function.update a.streams stream.streamId (some k) }
  | start {k : Nat} : a.phase = .inserted k → Moves a .start
      (doAccept (setStream a k fun stream => { stream with reading := true }))
  | readError (k : Nat) :
      Moves a (.readError k) (setStream a k fun stream => { stream with reading := false })
  | writeError (k : Nat) :
      Moves a (.writeError k) (setStream a k fun stream => { stream with isOpen := false })

theorem step_moves {a b : Acceptor io} {act : Action} (hs : step a act = some b) :
    Moves a act b := by
  cases act with
  | accept =>
    simp only [step] at hs
    split at hs
    · next hp =>
      obtain rfl := Option.some.inj hs
      exact .accept hp
    · cases hs
  | acceptError =>
    simp only [step] at hs
    split at hs
    · next hp =>
      obtain rfl := Option.some.inj hs
      exact .acceptError hp
    · cases hs
  | insert =>
    simp only [step] at hs
    split at hs
    · next hp =>
      obtain ⟨stream, hk, rfl⟩ := Option.map_eq_some_iff.mp hs
      exact .insert hp hk
    · cases hs
  | start =>
    simp only [step] at hs
    split at hs
    · next hp =>
      obtain rfl := Option.some.inj hs
      exact .start hp
    · cases hs
  | readError k => obtain rfl := Option.some.inj hs; exact .readError k
  | writeError k => obtain rfl := Option.some.inj hs; exact .writeError k

/-- `streams_mutex_` can be locked by another thread. -/
def unlocked (a : Acceptor io) : Bool :=
  match a.phase with
  | .inserted _ => false
  | _ => true

/-- The stream of connection `k` is in the map, or was. -/
def Started (a : Acceptor io) (k : Nat) : Prop :=
  k < a.connections.length ∧ ∀ j, a.phase = .made j → j ≠ k

/-- As long as the ids have not wrapped around, connection `k` has id `k` and the map
leads from the id back to the connection. -/
structure Routes (a : Acceptor io) : Prop where
  few : a.connections.length < 2 ^ 64
  counter : a.currStreamId = UInt64.ofNat a.connections.length
  ids : ∀ k c, a.connections[k]? = some c → c.streamId = UInt64.ofNat k
  pending : ∀ k, a.phase = .made k ∨ a.phase = .inserted k → k + 1 = a.connections.length
  streams : ∀ k, Started a k → a.streams (UInt64.ofNat k) = some k
  reading : ∀ k c, a.connections[k]? = some c → c.reading = true → Started a k

/-- Fewer than `2 ^ 64` connections are accepted. -/
def IdsLeft (a : Acceptor io) : Action → Prop
  | .accept => a.connections.length + 1 < 2 ^ 64
  | _ => True

theorem routes_loop (h : 0 < io) : Routes (loop h) :=
  ⟨by simp [loop, doAccept], rfl, by simp [loop, doAccept], by simp [loop, doAccept],
    by simp [Started, loop, doAccept], by simp [loop, doAccept]⟩

theorem setStream_get (a : Acceptor io) (k j : Nat) (f : AsioStream io → AsioStream io) :
    (setStream a k f).connections[j]? =
      (a.connections[j]?).map fun c => if k = j then f c else c := by
  simp [setStream, List.getElem?_modify]

/-- Changing the flags of a stream keeps the routes. -/
theorem routes_setStream {a : Acceptor io} (h : Routes a) (k : Nat)
    (f : AsioStream io → AsioStream io) (hid : ∀ c, (f c).streamId = c.streamId)
    (hr : ∀ c, (f c).reading = true → c.reading = true ∨ Started a k) :
    Routes (setStream a k f) := by
  have hlen : (setStream a k f).connections.length = a.connections.length := by simp [setStream]
  have hstarted : ∀ j, Started (setStream a k f) j ↔ Started a j := by
    intro j; rw [Started, hlen]; rfl
  refine ⟨by rw [hlen]; exact h.few, by rw [hlen]; exact h.counter, fun j c hc => ?_,
    by rw [hlen]; exact h.pending,
    fun j hj => h.streams j ((hstarted j).mp hj), fun j c hc hread => (hstarted j).mpr ?_⟩
  · rw [setStream_get, Option.map_eq_some_iff] at hc
    obtain ⟨c₀, hc₀, rfl⟩ := hc
    have hk : (if k = j then f c₀ else c₀).streamId = c₀.streamId := by
      split
      · exact hid c₀
      · rfl
    exact hk.trans (h.ids j c₀ hc₀)
  · rw [setStream_get, Option.map_eq_some_iff] at hc
    obtain ⟨c₀, hc₀, rfl⟩ := hc
    by_cases hk : k = j
    · rw [if_pos hk] at hread
      exact (hr c₀ hread).elim (h.reading j c₀ hc₀) (hk ▸ id)
    · rw [if_neg hk] at hread
      exact h.reading j c₀ hc₀ hread

theorem routes_doAccept {a : Acceptor io} (h : Routes a) (hp : ∀ k, a.phase ≠ .made k) :
    Routes (doAccept a) :=
  ⟨h.few, h.counter, h.ids, by simp [doAccept],
    fun k hk => h.streams k ⟨hk.1, fun j hj => absurd hj (hp j)⟩,
    fun k c hc _ => ⟨(List.getElem?_eq_some_iff.mp hc).1, by simp [doAccept]⟩⟩

/-- A stream that is started remains so. -/
theorem started_step {a b : Acceptor io} {act : Action} {k : Nat}
    (hk : Started a k) (hs : step a act = some b) : Started b k := by
  obtain ⟨hlt, hmade⟩ := hk
  cases step_moves hs with
  | accept _ =>
    refine ⟨by simp only [List.length_append]; omega, fun j hj => ?_⟩
    cases hj
    omega
  | acceptError _ => exact ⟨hlt, by simp [doAccept]⟩
  | insert _ _ => exact ⟨hlt, by simp⟩
  | start _ => exact ⟨by simpa [doAccept, setStream] using hlt, by simp [doAccept]⟩
  | readError j => exact ⟨by simpa [setStream] using hlt, hmade⟩
  | writeError j => exact ⟨by simpa [setStream] using hlt, hmade⟩

/-- A connection keeps its thread. -/
theorem thread_step {a b : Acceptor io} {act : Action} {k : Nat} {c : AsioStream io}
    (hk : a.connections[k]? = some c) (hs : step a act = some b) :
    ∃ c', b.connections[k]? = some c' ∧ c'.ioThread = c.ioThread := by
  have hset : ∀ j (f : AsioStream io → AsioStream io), (∀ x, (f x).ioThread = x.ioThread) →
      ∃ c', (setStream a j f).connections[k]? = some c' ∧ c'.ioThread = c.ioThread := by
    intro j f hf
    refine ⟨if j = k then f c else c, by rw [setStream_get, hk]; rfl, ?_⟩
    split
    · exact hf c
    · rfl
  cases step_moves hs with
  | accept _ => exact ⟨c, get_append hk _, rfl⟩
  | acceptError _ | insert _ _ => exact ⟨c, hk, rfl⟩
  | start _ | readError _ | writeError _ => exact hset _ _ fun _ => rfl

theorem routes_accept {a : Acceptor io} {ioThread : Fin io} (h : Routes a)
    (hlen : a.connections.length + 1 < 2 ^ 64) (hp : a.phase = .listening ioThread) :
    Routes { a with
      phase := .made a.connections.length
      currStreamId := a.currStreamId + 1
      connections := a.connections ++ [⟨a.currStreamId, ioThread, false, true⟩] } := by
  have hold : ∀ k, k < a.connections.length → Started a k := fun k hk => ⟨hk, by simp [hp]⟩
  refine ⟨by simpa using hlen, by simp [h.counter], fun k c hc => ?_, ?_, fun k hk => ?_,
    fun k c hc hread => ?_⟩
  · rcases get_snoc hc with hc | ⟨rfl, rfl⟩
    · exact h.ids k c hc
    · exact h.counter
  · rintro k (hk | hk)
    · cases hk; simp
    · cases hk
  · obtain ⟨hlt, hne⟩ := hk
    have hk := hne _ rfl
    simp only [List.length_append, List.length_singleton] at hlt
    exact h.streams k (hold k (by omega))
  · rcases get_snoc hc with hc | ⟨rfl, rfl⟩
    · have hlt := (List.getElem?_eq_some_iff.mp hc).1
      refine ⟨by simp only [List.length_append]; omega, fun j hj => ?_⟩
      cases hj
      omega
    · cases hread

/-- The new entry does not replace another one: ids of different connections differ. -/
theorem routes_insert {a : Acceptor io} {k : Nat} {stream : AsioStream io} (h : Routes a)
    (hp : a.phase = .made k)
    (hk : a.connections[k]? = some stream) :
    Routes { a with
      phase := .inserted k, streams := Function.update a.streams stream.streamId (some k) } := by
  have hid := h.ids k stream hk
  have hpend := h.pending k (.inl hp)
  have hfew := h.few
  refine ⟨h.few, h.counter, h.ids, ?_, fun j hj => ?_, fun j c hc hread => ?_⟩
  · rintro j (hj | hj)
    · cases hj
    · cases hj; exact hpend
  · by_cases hjk : j = k
    · subst hjk
      simp only [hid, Function.update_self]
    · have hne : UInt64.ofNat j ≠ stream.streamId := by
        rw [hid]
        have hlt : j < a.connections.length := hj.1
        exact fun he => hjk (ofNat_inj (by omega) (by omega) he)
      simp only [Function.update_of_ne hne]
      exact h.streams j ⟨hj.1, fun i hi => by rw [hp] at hi; cases hi; exact Ne.symm hjk⟩
  · obtain ⟨hlt, _⟩ := h.reading j c hc hread
    exact ⟨hlt, by simp⟩

/-- Every step keeps the routes, as long as ids are left. -/
theorem routes_step {a b : Acceptor io} {act : Action} (h : Routes a)
    (hc : IdsLeft a act) (hs : step a act = some b) : Routes b := by
  cases step_moves hs with
  | accept hp => exact routes_accept h hc hp
  | acceptError hp => exact routes_doAccept h (by simp [hp])
  | insert hp hk => exact routes_insert h hp hk
  | @start k hp =>
    have hk : Started a k := ⟨by have := h.pending k (.inr hp); omega, by simp [hp]⟩
    refine routes_doAccept (routes_setStream h k _ (fun _ => rfl) fun _ _ => .inr hk) ?_
    simp [setStream, hp]
  | readError k => exact routes_setStream h k _ (fun _ => rfl) fun _ hr => by cases hr
  | writeError k => exact routes_setStream h k _ (fun _ => rfl) fun _ hr => .inl hr

end Dousi.Executor.Accept
