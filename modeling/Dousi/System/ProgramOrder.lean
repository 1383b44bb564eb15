import Dousi.System.Wires

/-!
# The calls of one connection in the order in which they are made

Frames are written whole, so the wire and the read loop keep their order, and so does
the request queue. The handlers run in this order too as long as no worker pops a
request while another one has a request of the same connection in hand whose handler has
not returned, as is always so with a single worker or none. Two workers that have popped
two requests of one connection may call either first. A method runs as one step.
-/
namespace Dousi.System.ProgramOrder

open Dousi.Lib.Word
open Dousi.Lib.Transition
open Dousi.Core.Msgpack
open Dousi.Stream.AsioStream
open Dousi.Executor.Services (Registry empty)
open Dousi.Executor.InvokeHelper (MethodType Objects)
open Dousi.Executor.Server (ExecutorOptions Run)
open Dousi.Executor.Routing (Replays)
open Dousi.Executor.Pipeline
open Dousi.Client.Calls (Buffers nonempty)
open Network Wires

variable {τ : Type} {El : τ → Type} {σ : Type} {o : ExecutorOptions} {order : ByteOrder}

/-- The messages of connection `k` whose handlers have run, in the order of the runs. -/
def executed (s : Config El σ o order) (k : Nat) : List Message :=
  (ranOn s.server k).map messageOfFrame

/-- The calls executed for a connection are the first ones sent on it, in this order, and
every handler acts on what the handlers before it have left. -/
structure InProgramOrder (mp : Codec τ El) (w : Objects El σ) (s : Config El σ o order) :
    Prop where
  calls : ∀ k, executed s k <+: (s.up k).sent
  effects : ∃ w', Replays mp w s.server.ran w'

/-- A request is shorter than `2 ^ 32` bytes. -/
def Short : Action o → Prop
  | .requestObjectID _ buffer _ => buffer.length < 2 ^ 32
  | _ => True

instance : (a : Action o) → Decidable (Short a)
  | .requestObjectID .. => inferInstanceAs (Decidable (_ < _))
  | .connect _ | .submit .. | .get .. | .clientReceive _ | .clientReadError _
  | .clientWriteError _ | .serverReceive _ | .server _ => isTrue trivial

/-- A worker pops a request when the handlers of those of the same connection that were
popped before it have returned. -/
def PopsInTurn (s : Config El σ o order) : Action o → Prop
  | .server action => InTurn s.server action
  | _ => True

instance (s : Config El σ o order) : (a : Action o) → Decidable (PopsInTurn s a)
  | .server action => inferInstanceAs (Decidable (InTurn s.server action))
  | .connect _ | .requestObjectID .. | .submit .. | .get .. | .clientReceive _
  | .clientReadError _ | .clientWriteError _ | .serverReceive _ => isTrue trivial

/-- What the proofs of a run carry from step to step. -/
structure Invariant (mp : Codec τ El) (r : Registry (MethodType El σ)) (w : Objects El σ)
    (s : Config El σ o order) : Prop where
  regular : Regular mp r w s
  short : ∀ client ∈ s.clients, Buffers (fun buffer => buffer.length < 2 ^ 32) client
  line : InLine s.server

theorem invariant_start (mp : Codec τ El) (r : Registry (MethodType El σ)) (w : Objects El σ) :
    Invariant mp r w (start o order r w) :=
  ⟨regular_start mp r w, by simp [start], inLine_loop r w⟩

theorem invariant_step {mp : Codec τ El} {r : Registry (MethodType El σ)} {w : Objects El σ}
    {s t : Config El σ o order} {a : Action o} (h : Invariant mp r w s)
    (hc : Short a ∧ PopsInTurn s a) (hs : step mp s a = some t) : Invariant mp r w t := by
  refine ⟨regular_step h.regular hs,
    buffers_step h.short (by rintro k buffer decodes rfl; exact hc.1) hs,
    server_invariant h.line (fun act u hact =>
      inLine_step h.regular.always.traced h.line ?_) hs⟩
  rcases hact with rfl | ⟨k, objectId, body, rfl⟩
  · exact hc.2
  · trivial

theorem inProgramOrder_of {mp : Codec τ El} {r : Registry (MethodType El σ)} {w : Objects El σ}
    {s : Config El σ o order} (h : Invariant mp r w s) : InProgramOrder mp w s := by
  refine ⟨fun k => ?_, ?_⟩
  · have hran := (ranOn_prefix_arrivedOn h.line k).map messageOfFrame
    refine hran.trans (arrived_prefix_sent h.regular.wires fun m hm => ?_)
    obtain ⟨c, hc⟩ := h.regular.wires.sent k m hm
    exact submitted_buffer h.short hc
  · obtain ⟨w', hrep, _⟩ := h.regular.replayed
    exact ⟨w', hrep⟩

/-- In a run in which requests are popped in turn, the calls of every connection are
executed in the order in which they were submitted. -/
theorem program_order {mp : Codec τ El} {r : Registry (MethodType El σ)} {w : Objects El σ}
    {s : Config El σ o order}
    (h : Reach (step mp) (fun s a => Short a ∧ PopsInTurn s a) (start o order r w) s) :
    InProgramOrder mp w s :=
  inProgramOrder_of (h.invariant (invariant_start mp r w) fun _ _ _ hi hc hs =>
    invariant_step hi hc hs)

/-- A single worker always does. -/
theorem popsInTurn_of_one {mp : Codec τ El} {s t : Config El σ o order} {a : Action o}
    (hw : o.workThreadNum ≤ 1) (hs : step mp s a = some t) : PopsInTurn s a := by
  cases a with
  | server action =>
    obtain ⟨_, server, hserver, _⟩ := serverStep_cases hs
    exact inTurn_of_one hw hserver
  | _ => trivial

/-- `VoidReturnService::Perform`. -/
def perform : MethodType (fun _ : Unit => Int) Bytes :=
  ⟨[.string], none, fun _ args => (args.1, some ())⟩

/-- `VoidReturnService::Get`. -/
def get : MethodType (fun _ : Unit => Int) Bytes :=
  ⟨[], some .string, fun data _ => (data, some data)⟩

/-- The service under the name `V`, its methods under `P` and `G`. -/
def voidReturnService : List (Executor.Services.Op (MethodType (fun _ : Unit => Int) Bytes)) :=
  [.createService [86], .registerMethod 0 ⟨[80], perform⟩, .registerMethod 0 ⟨[71], get⟩]

/-- `data_` is `"123"`. -/
def data : Objects (fun _ : Unit => Int) Bytes := ⟨fun _ => [49, 50, 51], []⟩

/-- A frame of `n` bytes is read from connection `k` and queued by io thread `i`. -/
def frame (k n : Nat) (i : Fin o.ioThreadNum) : List (Action o) :=
  List.replicate n (.serverReceive k) ++ [.server (.invoke i)]

/-- `Perform("456")` and `Get()`, one after the other, and their frames at the server. -/
def twoCalls (o : ExecutorOptions) : List (Action o) :=
  [.connect .cpp, .server (.accept .accept), .server (.accept .insert), .server (.accept .start),
    .requestObjectID 0 [0x93, 0xa1, 86, 0xa1, 80, 0xa3, 52, 53, 54] nonempty, .submit 0 0,
    .requestObjectID 0 [0x92, 0xa1, 86, 0xa1, 71] nonempty, .submit 0 1] ++
  frame 0 17 ⟨0, o.io_pos⟩ ++ frame 0 13 ⟨0, o.io_pos⟩

/-- Workers 0 and 1 pop the two requests, and worker 1 is faster. -/
def overtaking : List (Action ExecutorOptions.defaults) :=
  twoCalls _ ++ [.server (.pop 0), .server (.pop 1), .server (.lookup (.inr 1)),
    .server (.call (.inr 1)), .server (.lookup (.inr 0)), .server (.call (.inr 0))]

/-- With the default options `Get()` runs first and returns `"123"`. -/
theorem overtaking_violates : ∃ r, run Executor.Services.step empty voidReturnService = some r ∧
    ∃ s, run (step fixCodec) (start .defaults .little r data) overtaking = some s ∧
      s.history = [.invoke (0, 0), .invoke (0, 1), .commit (0, 1), .commit (0, 0)] ∧
      s.server.ran.map Run.result = [[0xa3, 49, 50, 51], []] ∧
      ¬ InProgramOrder fixCodec data s := by
  obtain ⟨r, hr⟩ : ∃ r, run Executor.Services.step empty voidReturnService = some r := ⟨_, rfl⟩
  have hrun : (run (step fixCodec) (start .defaults .little r data) overtaking).map
      (fun s => (s.history, s.server.ran.map Run.result, executed s 0, (s.up 0).sent)) =
      some ([.invoke (0, 0), .invoke (0, 1), .commit (0, 1), .commit (0, 0)],
        [[0xa3, 49, 50, 51], []],
        [⟨1, [0x92, 0xa1, 86, 0xa1, 71]⟩, ⟨0, [0x93, 0xa1, 86, 0xa1, 80, 0xa3, 52, 53, 54]⟩],
        [⟨0, [0x93, 0xa1, 86, 0xa1, 80, 0xa3, 52, 53, 54]⟩, ⟨1, [0x92, 0xa1, 86, 0xa1, 71]⟩]) := by
    cases hr
    decide +kernel
  obtain ⟨s, hs, hfacts⟩ := Option.map_eq_some_iff.mp hrun
  simp only [Prod.mk.injEq] at hfacts
  obtain ⟨hhistory, hresults, hexecuted, hsent⟩ := hfacts
  refine ⟨r, hr, s, hs, hhistory, hresults, fun h => ?_⟩
  have hprefix := h.calls 0
  rw [hexecuted, hsent] at hprefix
  exact absurd hprefix (by decide)

/-- The calls `Perform("456")` and `Get()` of one client and `Get()` of another one. -/
def threeCalls : List (Action ExecutorOptions.defaults) :=
  [.connect .cpp, .connect .cpp, .server (.accept .accept), .server (.accept .insert),
    .server (.accept .start), .server (.accept .accept), .server (.accept .insert),
    .server (.accept .start),
    .requestObjectID 0 [0x93, 0xa1, 86, 0xa1, 80, 0xa3, 52, 53, 54] nonempty, .submit 0 0,
    .requestObjectID 0 [0x92, 0xa1, 86, 0xa1, 71] nonempty, .submit 0 1,
    .requestObjectID 1 [0x92, 0xa1, 86, 0xa1, 71] nonempty, .submit 1 0]

/-- Worker 1 overtakes worker 0 with the request of the other client, and worker 2 pops the
second request of the first one when `Perform` has returned. -/
def popped : List (Action ExecutorOptions.defaults) :=
  [.server (.pop 0), .server (.pop 1), .server (.lookup (.inr 0)), .server (.lookup (.inr 1)),
    .server (.call (.inr 1)), .server (.call (.inr 0)), .server (.pop 2),
    .server (.lookup (.inr 2)), .server (.call (.inr 2))]

def crossing : List (Action ExecutorOptions.defaults) :=
  threeCalls ++ frame 0 17 0 ++ frame 1 13 1 ++ frame 0 13 0 ++ popped

theorem program_order_crossing : ∃ r,
    run Executor.Services.step empty voidReturnService = some r ∧
    ∃ s, run (guarded (step fixCodec) fun s a => Short a ∧ PopsInTurn s a)
        (start .defaults .little r data) crossing = some s ∧
      s.history = [.invoke (0, 0), .invoke (0, 1), .invoke (1, 0), .commit (1, 0),
        .commit (0, 0), .commit (0, 1)] ∧
      s.server.ran.map Run.result = [[0xa3, 49, 50, 51], [], [0xa3, 52, 53, 54]] ∧
      InProgramOrder fixCodec data s := by
  obtain ⟨r, hr⟩ : ∃ r, run Executor.Services.step empty voidReturnService = some r := ⟨_, rfl⟩
  have hrun : (run (guarded (step fixCodec) fun s a => Short a ∧ PopsInTurn s a)
      (start .defaults .little r data) crossing).map
      (fun s => (s.history, s.server.ran.map Run.result)) =
      some ([.invoke (0, 0), .invoke (0, 1), .invoke (1, 0), .commit (1, 0), .commit (0, 0),
        .commit (0, 1)], [[0xa3, 49, 50, 51], [], [0xa3, 52, 53, 54]]) := by
    cases hr
    decide +kernel
  obtain ⟨s, hs, hfacts⟩ := Option.map_eq_some_iff.mp hrun
  obtain ⟨hhistory, hresults⟩ := Prod.mk.inj hfacts
  exact ⟨r, hr, s, hs, hhistory, hresults, program_order (Reach.of_guarded hs)⟩

end Dousi.System.ProgramOrder
