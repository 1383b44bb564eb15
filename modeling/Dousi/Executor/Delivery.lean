import Dousi.Executor.Routing
import Dousi.Executor.SignatureValidation

/-!
# Conservation and routing over whole runs
-/
namespace Dousi.Executor.Delivery

open Dousi.Lib.Word
open Dousi.Lib.Transition
open Dousi.Lib.Pool
open Dousi.Core.Msgpack
open Request Services InvokeHelper Server Conservation Traces Routing

variable {τ : Type} {El : τ → Type} {σ : Type} {o : ExecutorOptions}

/-- The ids of the request or response that an io thread or a worker has in hand. -/
def jobIds : Job El σ → Multiset (UInt64 × UInt32)
  | .idle => 0
  | .invoking _ frame => {(frame.streamId, frame.objectId)}
  | .request _ request => {(request.streamId, request.objectId)}
  | .bound _ request _ => {(request.streamId, request.objectId)}
  | .returned _ request _ => {(request.streamId, request.objectId)}

def writerIds : WriteJob → Multiset (UInt64 × UInt32)
  | .idle => 0
  | .popped _ response => {(response.streamId, response.objectId)}
  | .found _ response _ => {(response.streamId, response.objectId)}

/-- The ids of the frames that arrived are those of the request queue, of the io
threads and workers, of the response queue, of the writers, and of the responses
passed to `Write`. -/
def Balanced (s : State El σ o) : Prop :=
  contents (fun f => (f.streamId, f.objectId)) s.arrived =
    contents (fun e => (e.2.streamId, e.2.objectId)) s.requestQueue +
    held jobIds s.jobs +
    contents (fun e => (e.2.streamId, e.2.objectId)) s.responseQueue +
    held writerIds s.writers +
    contents (fun w => (w.response.streamId, w.response.objectId)) s.written

/-- A response passed to `Write` on the stream of connection `w.stream`: its frame came
from this connection, and it carries the object id of the frame and the result of the
one run of the handler registered for it. -/
def Answers (mp : Codec τ El) (r : Registry (MethodType El σ)) (s : State El σ o)
    (w : Written) : Prop :=
  ∃ f run, s.arrived[w.ticket]? = some f ∧ f.connection = w.stream ∧
    w.response.objectId = f.objectId ∧ run ∈ s.ran ∧ run.ticket = w.ticket ∧
    invokeMethod mp f.streamId f.objectId f.body = some run.request ∧
    r.registeredMethods run.request.methodName = some run.method ∧
    w.response.result = run.result

structure Delivered (mp : Codec τ El) (r : Registry (MethodType El σ)) (w : Objects El σ)
    (s : State El σ o) : Prop where
  balance : Balanced s
  answers : ∀ e ∈ s.written, Answers mp r s e
  /-- no frame is answered twice -/
  once : (s.written.map Written.ticket).Nodup
  /-- no handler runs twice for a frame, and the results are those of the runs in this order -/
  runs : (s.ran.map Run.ticket).Nodup ∧ Replays mp w s.ran s.objects
  /-- the lookup that a writer is about to make succeeds -/
  lookup : ∀ n ticket response, s.writers n = .popped ticket response →
    (s.acceptor.streams response.streamId).isSome
  alive : s.terminated = none

theorem frameTags_ids (arrived : List Frame) : (frameTags arrived).map Prod.snd =
    contents (fun f => (f.streamId, f.objectId)) arrived := by
  simp only [frameTags, contents, Multiset.map_coe, List.map_map]
  congr 1
  have hsnd : (Prod.snd ∘ fun e : Frame × Nat => frameTag e.2 e.1) =
      (fun f => (f.streamId, f.objectId)) ∘ Prod.fst := rfl
  rw [hsnd, ← List.map_map, List.zipIdx_map_fst]

theorem held_jobIds (jobs : Thread o → Job El σ) :
    held jobIds jobs = (held pending jobs).map Prod.snd + (held finished jobs).map Prod.snd := by
  have hjob : jobIds = fun job : Job El σ =>
      (pending job).map Prod.snd + (finished job).map Prod.snd := by
    funext job
    cases job <;> simp [jobIds, pending, finished, frameTag, requestTag]
  rw [map_held, map_held, ← held_add, hjob]

theorem held_writerIds {n : Nat} (writers : Fin n → WriteJob) :
    held writerIds writers = (held writing writers).map Prod.snd := by
  have hjob : writerIds = fun job => (writing job).map Prod.snd := by
    funext job
    cases job <;> simp [writerIds, writing, responseTag]
  rw [map_held, hjob]

theorem balanced_of_conserved {s : State El σ o} (h : Conserved s) : Balanced s := by
  have ha := congrArg (Multiset.map Prod.snd) h.arrived
  rw [h.ran] at ha
  simp only [Multiset.map_add, frameTags_ids] at ha
  rw [Balanced, held_jobIds, held_writerIds, ha]
  simp only [requestTags, responseTags, writtenTags, contents, Multiset.map_coe, List.map_map]
  have hreq : (Prod.snd ∘ fun e : Nat × DousiRequest => requestTag e.1 e.2) =
      fun e => (e.2.streamId, e.2.objectId) := rfl
  have hres : (Prod.snd ∘ fun e : Nat × DousiResponse => responseTag e.1 e.2) =
      fun e => (e.2.streamId, e.2.objectId) := rfl
  have hwri : (Prod.snd ∘ fun w : Written => responseTag w.ticket w.response) =
      fun w => (w.response.streamId, w.response.objectId) := rfl
  rw [hreq, hres, hwri]
  abel

theorem answers_of {mp : Codec τ El} {r : Registry (MethodType El σ)} {w : Objects El σ}
    {s : State El σ o} (ht : Traced mp s) (hr : Routed s) (h : Sound mp r w s) {e : Written}
    (he : e ∈ s.written) : Answers mp r s e := by
  obtain ⟨run, hmem, hticket, hresponse⟩ := ht.written e he
  obtain ⟨f, hf, hdec⟩ := ht.ran run hmem
  obtain ⟨g, hg, hconn⟩ := hr.written e he
  rw [hticket] at hf
  obtain rfl : f = g := Option.some.inj (hf.symm.trans hg)
  refine ⟨f, run, hf, hconn, ?_, hmem, hticket, hdec, h.ran run hmem, by rw [hresponse]⟩
  rw [hresponse]
  exact (invokeMethod_ids hdec).2

/-- What the proofs of a run carry from step to step. -/
structure Invariant (mp : Codec τ El) (r : Registry (MethodType El σ)) (w : Objects El σ)
    (s : State El σ o) : Prop where
  conserved : Conserved s
  traced : Traced mp s
  routed : Routed s
  sound : Sound mp r w s

theorem invariant_loop (mp : Codec τ El) (r : Registry (MethodType El σ)) (w : Objects El σ) :
    Invariant mp r w (loop o r w) :=
  ⟨conserved_loop r w, traced_loop mp r w, routed_loop r w, sound_loop mp r w⟩

theorem invariant_step {mp : Codec τ El} {r : Registry (MethodType El σ)} {w : Objects El σ}
    {s t : State El σ o} {a : Action o} (h : Invariant mp r w s) (hc : Few s a ∧ Good mp r a)
    (hs : step mp s a = some t) : Invariant mp r w t :=
  ⟨conserved_step h.conserved hs, traced_step h.traced hs,
    routed_step h.traced h.routed hc.1 hs, sound_step h.traced h.routed h.sound hc.2 hs⟩

theorem delivered_of {mp : Codec τ El} {r : Registry (MethodType El σ)} {w : Objects El σ}
    {s : State El σ o} (h : Invariant mp r w s) : Delivered mp r w s := by
  refine ⟨balanced_of_conserved h.conserved,
    fun e he => answers_of h.traced h.routed h.sound he, written_nodup h.conserved,
    ⟨ran_nodup h.conserved, h.sound.replays⟩, fun n ticket response hn => ?_, h.sound.alive⟩
  have hrun : FromRun s.ran ticket response := h.traced.writer hn
  obtain ⟨f, _, _, hstream⟩ := streams_of_run h.traced h.routed hrun
  rw [hstream]
  rfl

/-- In every run of the executor, with any numbers of threads, every frame that
arrived is in one place and every response goes, once, to where its frame came from. -/
theorem delivered {mp : Codec τ El} {r : Registry (MethodType El σ)} {w : Objects El σ}
    {s : State El σ o}
    (h : Reach (step mp) (fun s a => Few s a ∧ Good mp r a) (loop o r w) s) :
    Delivered mp r w s :=
  delivered_of (h.invariant (invariant_loop mp r w) fun _ _ _ hi hc hs =>
    invariant_step hi hc hs)

open SignatureValidation (add calculator)

/-- One thread of each kind. -/
abbrev single : ExecutorOptions := ⟨1, 1, 1, by decide⟩

instance : NeZero single.ioThreadNum := ⟨Nat.one_ne_zero⟩

theorem performs_add {r : Registry (MethodType (fun _ : Unit => Int) Unit)}
    (hadd : r.registeredMethods [97, 100, 100] = some ⟨0, add⟩) {body : Bytes} {x y : Int}
    (hbody : fixCodec.unpack body =
      some (.array [.str [67], .str [97, 100, 100], .int x, .int y]))
    (streamId : UInt64) (objectId : UInt32) : Performs fixCodec r streamId objectId body := by
  refine ⟨_, ⟨0, add⟩, invokeMethod_array fixCodec_documented streamId objectId hbody, hadd,
    fun w => ?_⟩
  have hrun : (invoke fixCodec ⟨0, add⟩
      (.array [.str [67], .str [97, 100, 100], .int x, .int y]) w).2 =
      some (fixCodec.pack (.int (x + y))) := rfl
  rw [hrun]
  exact Option.some_ne_none _

/-- Two threads of each kind. -/
abbrev twice : ExecutorOptions := ⟨2, 2, 2, by decide⟩

instance : NeZero twice.ioThreadNum := ⟨Nat.succ_ne_zero 1⟩

/-- Two connections have a frame with the object id 7 each. The second frame is answered
first. -/
def crossing : List (Action twice) :=
  [.accept .accept, .accept .insert, .accept .start, .accept .accept, .accept .insert,
    .accept .start, .arrive 0 7 [0x94, 0xa1, 67, 0xa3, 97, 100, 100, 1, 2],
    .arrive 1 7 [0x94, 0xa1, 67, 0xa3, 97, 100, 100, 3, 4], .invoke 0, .invoke 1, .pop 0, .pop 1,
    .lookup (.inr 1), .call (.inr 1), .lookup (.inr 0), .respond (.inr 1), .take 0,
    .call (.inr 0), .respond (.inr 0), .take 1, .find 1, .find 0, .write 0, .write 1]

theorem delivered_crossing : ∃ r, run Services.step empty calculator = some r ∧
    ∃ s, run (step fixCodec) (loop twice r ⟨fun _ => (), []⟩) crossing = some s ∧
      s.written = [⟨1, 1, ⟨7, 1, [7]⟩⟩, ⟨0, 0, ⟨7, 0, [3]⟩⟩] ∧
      Delivered fixCodec r ⟨fun _ => (), []⟩ s := by
  obtain ⟨r, hr⟩ : ∃ r, run Services.step empty calculator = some r := ⟨_, rfl⟩
  have hadd : r.registeredMethods [97, 100, 100] = some ⟨0, add⟩ := by cases hr; rfl
  obtain ⟨s, hs, hg, hw⟩ : ∃ s,
      run (step fixCodec) (loop twice r ⟨fun _ => (), []⟩) crossing = some s ∧
      run (guarded (step fixCodec) Few) (loop twice r ⟨fun _ => (), []⟩) crossing = some s ∧
      s.written = [⟨1, 1, ⟨7, 1, [7]⟩⟩, ⟨0, 0, ⟨7, 0, [3]⟩⟩] := by
    cases hr
    exact ⟨_, rfl, rfl, rfl⟩
  refine ⟨r, hr, s, hs, hw, delivered (Reach.of_guarded_and hg fun a ha => ?_)⟩
  cases a with
  | arrive k objectId body =>
    have hbody : ∃ x y, fixCodec.unpack body =
        some (.array [.str [67], .str [97, 100, 100], .int x, .int y]) := by
      simp only [crossing, List.mem_cons, List.not_mem_nil, or_false, reduceCtorEq, false_or,
        Action.arrive.injEq] at ha
      rcases ha with ⟨-, -, rfl⟩ | ⟨-, -, rfl⟩
      · exact ⟨1, 2, rfl⟩
      · exact ⟨3, 4, rfl⟩
    obtain ⟨x, y, hbody⟩ := hbody
    exact fun streamId => performs_add hadd hbody streamId objectId
  | _ => trivial

end Dousi.Executor.Delivery
