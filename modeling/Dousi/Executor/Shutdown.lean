import Dousi.Executor.Accept
import Dousi.Lib.Progress

/-!
# Shutdown under the handler chain of DoAccept

`Executor::Shutdown` closes the acceptor. An `async_accept` comes out first, and its handler
is run on the thread of `Loop` some time later: what has come out by then is not taken back,
and on a closed acceptor every one comes out with an error. The handler of `DoAccept` calls
`DoAccept` again in both cases.
-/
namespace Dousi.Executor.Shutdown

open Dousi.Lib.Log
open Dousi.Lib.Transition
open Dousi.Lib.Progress
open Accept (Acceptor Routes Started Phase)

variable {io : Nat}

structure State (io : Nat) where
  acceptor : Acceptor io
  isOpen : Bool
  /-- how the pending `async_accept` has come out, until its handler is run -/
  completed : Option Bool

inductive Action where
  /-- the pending `async_accept` takes a connection -/
  | connect
  | fail
  /-- its handler begins -/
  | handle
  /-- the rest of the handler, and the streams -/
  | go (action : Accept.Action)
  | shutdown

def loop (h : 0 < io) : State io := ⟨Accept.loop h, true, none⟩

/-- The `async_accept` of the last `DoAccept` has not come out. -/
def pending (s : State io) : Bool :=
  match s.acceptor.phase, s.completed with
  | .listening _, none => true
  | _, _ => false

/-- Steps that do not begin a handler. -/
def goesOn : Accept.Action → Bool
  | .accept | .acceptError => false
  | .insert | .start | .readError _ | .writeError _ => true

def step (s : State io) : Action → Option (State io)
  | .connect => if pending s ∧ s.isOpen then some { s with completed := some true } else none
  | .fail => if pending s then some { s with completed := some false } else none
  | .handle => s.completed.bind fun ok =>
    (Accept.step s.acceptor (if ok then .accept else .acceptError)).map fun acceptor =>
      { s with acceptor, completed := none }
  | .go a =>
    if goesOn a then (Accept.step s.acceptor a).map fun acceptor => { s with acceptor } else none
  | .shutdown => some { s with isOpen := false }

/-- What a step can do. -/
inductive Moves (s : State io) : Action → State io → Prop
  | connect : pending s = true → s.isOpen = true →
      Moves s .connect { s with completed := some true }
  | fail : pending s = true → Moves s .fail { s with completed := some false }
  | accepted {acceptor : Acceptor io} : s.completed = some true →
      Accept.step s.acceptor .accept = some acceptor →
      Moves s .handle { s with acceptor, completed := none }
  | failed {acceptor : Acceptor io} : s.completed = some false →
      Accept.step s.acceptor .acceptError = some acceptor →
      Moves s .handle { s with acceptor, completed := none }
  | go {a : Accept.Action} {acceptor : Acceptor io} : goesOn a = true →
      Accept.step s.acceptor a = some acceptor → Moves s (.go a) { s with acceptor }
  | shutdown : Moves s .shutdown { s with isOpen := false }

theorem step_moves {s t : State io} {a : Action} (hs : step s a = some t) : Moves s a t := by
  cases a with
  | connect =>
    simp only [step] at hs
    split at hs
    · next h =>
      cases hs
      exact .connect h.1 h.2
    · cases hs
  | fail =>
    simp only [step] at hs
    split at hs
    · next h =>
      cases hs
      exact .fail h
    · cases hs
  | handle =>
    obtain ⟨ok, hok, hs⟩ := Option.bind_eq_some_iff.mp hs
    obtain ⟨acceptor, hstep, rfl⟩ := Option.map_eq_some_iff.mp hs
    cases ok with
    | true => exact .accepted hok hstep
    | false => exact .failed hok hstep
  | go a =>
    simp only [step] at hs
    split at hs
    · next h =>
      obtain ⟨acceptor, hstep, rfl⟩ := Option.map_eq_some_iff.mp hs
      exact .go h hstep
    · cases hs
  | shutdown =>
    cases hs
    exact .shutdown

/-- Fewer than `2 ^ 64` connections are accepted. -/
def IdsLeft (s : State io) : Action → Prop
  | .handle => s.completed = some true → s.acceptor.connections.length + 1 < 2 ^ 64
  | _ => True

theorem routes_step {s t : State io} {a : Action} (h : Routes s.acceptor) (hids : IdsLeft s a)
    (hs : step s a = some t) : Routes t.acceptor := by
  cases step_moves hs with
  | connect _ _ | fail _ | shutdown => exact h
  | accepted hok hstep =>
    have hleft : Accept.IdsLeft s.acceptor .accept := hids hok
    exact Accept.routes_step h hleft hstep
  | failed _ hstep =>
    have hleft : Accept.IdsLeft s.acceptor .acceptError := trivial
    exact Accept.routes_step h hleft hstep
  | @go a acceptor hgoes hstep =>
    refine Accept.routes_step h ?_ hstep
    cases a with
    | accept => cases hgoes
    | _ => exact trivial

theorem started_step {s t : State io} {a : Action} {k : Nat} (h : Started s.acceptor k)
    (hs : step s a = some t) : Started t.acceptor k := by
  cases step_moves hs with
  | connect _ _ | fail _ | shutdown => exact h
  | accepted _ hstep | failed _ hstep | go _ hstep => exact Accept.started_step h hstep

/-! After the acceptor is closed -/

/-- The connections made, and the one that is to be made. -/
def taken (s : State io) : Nat :=
  s.acceptor.connections.length + if s.completed = some true then 1 else 0

theorem connections_step {a b : Acceptor io} {act : Accept.Action}
    (hs : Accept.step a act = some b) (hact : act ≠ .accept) :
    b.connections.length = a.connections.length := by
  cases Accept.step_moves hs with
  | accept _ => exact absurd rfl hact
  | acceptError _ | insert _ _ => rfl
  | start _ | readError _ | writeError _ =>
    simp [Accept.setStream, Accept.doAccept]

theorem closed_step {s t : State io} {a : Action} (h : s.isOpen = false)
    (hs : step s a = some t) : t.isOpen = false ∧ taken t = taken s := by
  cases step_moves hs with
  | connect _ hopen =>
    rw [h] at hopen
    cases hopen
  | fail hpending =>
    refine ⟨h, ?_⟩
    unfold pending at hpending
    split at hpending
    · next hnone => simp [taken, hnone]
    · cases hpending
  | accepted hok hstep =>
    refine ⟨h, ?_⟩
    cases Accept.step_moves hstep with
    | accept _ => simp [taken, hok]
  | failed hok hstep =>
    refine ⟨h, ?_⟩
    simp [taken, hok, connections_step hstep nofun]
  | @go a acceptor hgoes hstep =>
    refine ⟨h, ?_⟩
    have hne : a ≠ .accept := by
      rintro rfl
      cases hgoes
    simp [taken, connections_step hstep hne]
  | shutdown => exact ⟨rfl, rfl⟩

/-- The handler chain: what the acceptor and its closing do by themselves. -/
def Chain : Action → Prop
  | .fail | .handle | .go .insert | .go .start => True
  | _ => False

/-- Where the chain stands it can go on. -/
structure Ready (s : State io) : Prop where
  made : ∀ k, s.acceptor.phase = .made k → k < s.acceptor.connections.length
  completed : ∀ ok, s.completed = some ok → ∃ ioThread, s.acceptor.phase = .listening ioThread

theorem ready_loop (h : 0 < io) : Ready (loop h) :=
  ⟨nofun, nofun⟩

theorem listening_of_pending {s : State io} (h : pending s = true) :
    (∃ ioThread, s.acceptor.phase = .listening ioThread) ∧ s.completed = none := by
  unfold pending at h
  split at h
  · next ioThread hphase hnone => exact ⟨⟨ioThread, hphase⟩, hnone⟩
  · cases h

theorem ready_step {s t : State io} {a : Action} (h : Ready s) (hs : step s a = some t) :
    Ready t := by
  cases step_moves hs with
  | connect hpending _ | fail hpending =>
    exact ⟨h.made, fun _ _ => (listening_of_pending hpending).1⟩
  | accepted hok hstep =>
    cases Accept.step_moves hstep with
    | accept hphase =>
      refine ⟨fun k hk => ?_, nofun⟩
      cases hk
      simp
  | failed hok hstep =>
    cases Accept.step_moves hstep with
    | acceptError hphase => exact ⟨nofun, nofun⟩
  | go hgoes hstep =>
    cases Accept.step_moves hstep with
    | accept _ | acceptError _ => cases hgoes
    | insert hphase hk =>
      refine ⟨nofun, fun ok hok => ?_⟩
      obtain ⟨ioThread, hlistening⟩ := h.completed ok hok
      rw [hphase] at hlistening
      cases hlistening
    | start hphase => exact ⟨nofun, fun ok hok => ⟨_, rfl⟩⟩
    | readError k | writeError k =>
      exact ⟨fun j hj => by simpa [Accept.setStream] using h.made j hj, h.completed⟩
  | shutdown => exact ⟨h.made, h.completed⟩

/-- After a handler there is another `async_accept`, and it comes out. -/
theorem chain_goes_on {s : State io} (h : Ready s) : ∃ a t, Chain a ∧ step s a = some t := by
  have henabled {a : Action} (ha : Chain a) (hs : (step s a).isSome = true) :
      ∃ a t, Chain a ∧ step s a = some t := by
    obtain ⟨t, ht⟩ := Option.isSome_iff_exists.mp hs
    exact ⟨a, t, ha, ht⟩
  cases hphase : s.acceptor.phase with
  | listening ioThread =>
    cases hok : s.completed with
    | none =>
      have hpending : pending s = true := by simp only [pending, hphase, hok]
      exact henabled (a := .fail) trivial (by simp [step, hpending])
    | some ok =>
      refine henabled (a := .handle) trivial ?_
      cases ok <;> simp [step, hok, Accept.step, hphase]
  | made k =>
    obtain ⟨stream, hk⟩ : ∃ stream, s.acceptor.connections[k]? = some stream :=
      ⟨_, List.getElem?_eq_getElem (h.made k hphase)⟩
    exact henabled (a := .go .insert) trivial (by simp [step, goesOn, Accept.step, hphase, hk])
  | inserted k =>
    exact henabled (a := .go .start) trivial (by simp [step, goesOn, Accept.step, hphase])

/-- From any state of any run in which the acceptor has been closed: no connection is made
any more but the one, if there is one, whose `async_accept` had come out before its handler
was run; every stream stays in the map under its id; and the handlers go on for ever, so
that `Loop` does not return. -/
theorem after_shutdown {h : 0 < io} {s t : State io} (hs : Reach step IdsLeft (loop h) s)
    (hclosed : s.isOpen = false) (ht : Reach step IdsLeft s t) :
    t.acceptor.connections.length ≤
      s.acceptor.connections.length + (if s.completed = some true then 1 else 0) ∧
    (∀ k, Started s.acceptor k → t.acceptor.streams (UInt64.ofNat k) = some k) ∧
    ¬ Terminates step Chain t := by
  have htaken : t.isOpen = false ∧ taken t = taken s :=
    ht.invariant (I := fun u => u.isOpen = false ∧ taken u = taken s) ⟨hclosed, rfl⟩
      fun u a v hu _ huv => by
        obtain ⟨hv, heq⟩ := closed_step hu.1 huv
        exact ⟨hv, heq.trans hu.2⟩
  have hroutes : Routes t.acceptor := (hs.trans ht).invariant (I := fun u => Routes u.acceptor)
    (Accept.routes_loop h) fun _ _ _ hu hids huv => routes_step hu hids huv
  have hready : Ready t := (hs.trans ht).invariant (ready_loop h)
    fun _ _ _ hu _ huv => ready_step hu huv
  refine ⟨?_, fun k hk => hroutes.streams k ?_, not_terminates (I := Ready) (fun u hu => ?_) hready⟩
  · have heq := htaken.2
    unfold taken at heq
    omega
  · exact ht.invariant (I := fun u => Started u.acceptor k) hk
      fun _ _ _ hu _ huv => started_step hu huv
  · obtain ⟨a, v, ha, huv⟩ := chain_goes_on hu
    exact ⟨a, v, ha, huv, ready_step hu huv⟩

instance (s : State io) : ∀ a, Decidable (IdsLeft s a)
  | .handle => inferInstanceAs (Decidable (_ → _))
  | .connect | .fail | .go _ | .shutdown => isTrue trivial

/-- The acceptor is closed between a connection and its handler. -/
theorem after_shutdown_connected : ∃ s t : State 1,
    run (guarded step IdsLeft) (loop Nat.one_pos) [.connect, .shutdown] = some s ∧
    run (guarded step IdsLeft) s [.handle, .go .insert, .go .start, .fail] = some t ∧
    s.isOpen = false ∧ s.acceptor.connections.length = 0 ∧ t.acceptor.connections.length = 1 ∧
    t.acceptor.connections.length ≤
      s.acceptor.connections.length + (if s.completed = some true then 1 else 0) ∧
    (∀ k, Started s.acceptor k → t.acceptor.streams (UInt64.ofNat k) = some k) ∧
    ¬ Terminates step Chain t := by
  obtain ⟨s, hs⟩ : ∃ s : State 1,
      run (guarded step IdsLeft) (loop Nat.one_pos) [.connect, .shutdown] = some s := ⟨_, rfl⟩
  obtain ⟨t, ht⟩ : ∃ t, run (guarded step IdsLeft) s
      [.handle, .go .insert, .go .start, .fail] = some t := by
    cases hs
    exact ⟨_, rfl⟩
  have hafter (hclosed : s.isOpen = false) :=
    after_shutdown (Reach.of_guarded hs) hclosed (Reach.of_guarded ht)
  refine ⟨s, t, hs, ht, ?_⟩
  cases hs
  cases ht
  exact ⟨rfl, rfl, rfl, hafter rfl⟩

end Dousi.Executor.Shutdown
