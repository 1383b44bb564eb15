import Dousi.Executor.Delivery
import Dousi.Lib.Progress

/-!
# A server left alone answers everything

No connection and no frame comes in any more. The threads of the executor then take only
so many steps, and they stop for one of two reasons: an exception has ended the process,
or both queues are empty, every thread is back at its loop and every frame that arrived
has been answered once.
-/
namespace Dousi.Executor.Drain

open Dousi.Lib.Word
open Dousi.Lib.Transition
open Dousi.Lib.Progress
open Dousi.Lib.Pool
open Dousi.Core.Msgpack
open Request Services InvokeHelper Server Conservation Traces Routing Delivery
open SignatureValidation (calculator)

variable {τ : Type} {El : τ → Type} {σ : Type} {o : ExecutorOptions}

/-- The steps that the threads of the executor take by themselves. A connection, a frame
and an error come from outside. -/
def Internal : Action o → Prop
  | .accept .insert => True
  | .accept .start => True
  | .accept _ => False
  | .arrive .. => False
  | _ => True

/-- How far a request is from being passed on by its thread as a written response. -/
def jobWork : Job El σ → Nat
  | .idle => 0
  | .invoking .. => 8
  | .request .. => 6
  | .bound .. => 5
  | .returned .. => 4

def writeWork : WriteJob → Nat
  | .idle => 0
  | .popped .. => 2
  | .found .. => 1

def acceptWork {io : Nat} : Accept.Phase io → Nat
  | .listening _ => 0
  | .made _ => 2
  | .inserted _ => 1

/-- A thread that throws ends the process, which is one more step. -/
def aliveWork : Option Fault → Nat
  | none => 1
  | some _ => 0

def work (s : State El σ o) : Nat :=
  acceptWork s.acceptor.phase + 7 * s.requestQueue.length + total jobWork s.jobs +
    3 * s.responseQueue.length + total writeWork s.writers + aliveWork s.terminated

theorem work_accept {s : State El σ o} {action : Accept.Action}
    {acceptor : Accept.Acceptor o.ioThreadNum} (hi : Internal (o := o) (.accept action))
    (hs : Accept.step s.acceptor action = some acceptor) :
    work { s with acceptor } < work s := by
  have hphase : acceptWork acceptor.phase < acceptWork s.acceptor.phase := by
    cases Accept.step_moves hs with
    | insert hp _ => simp [hp, acceptWork]
    | start hp => simp [hp, Accept.doAccept, acceptWork]
    | _ => exact hi.elim
  simp only [work]
  omega

/-- A thread takes its job further. -/
theorem work_job {s : State El σ o} (t : Thread o) (job : Job El σ) :
    work { s with jobs := Function.update s.jobs t job } + jobWork (s.jobs t) =
      work s + jobWork job := by
  have htotal := total_update jobWork s.jobs t job
  simp only [work]
  omega

theorem work_writer {s : State El σ o} (n : Fin o.writeThreadNum) (job : WriteJob) :
    work { s with writers := Function.update s.writers n job } + writeWork (s.writers n) =
      work s + writeWork job := by
  have htotal := total_update writeWork s.writers n job
  simp only [work]
  omega

/-- The end of the process. -/
theorem work_terminated {s t : State El σ o} (halive : s.terminated = none)
    (hacc : t.acceptor = s.acceptor) (hreq : t.requestQueue = s.requestQueue)
    (hjobs : t.jobs = s.jobs) (hres : t.responseQueue = s.responseQueue)
    (hwri : t.writers = s.writers) (hdead : t.terminated ≠ none) : work t < work s := by
  obtain ⟨fault, hdead⟩ := Option.ne_none_iff_exists'.mp hdead
  simp only [work, halive, hacc, hreq, hjobs, hres, hwri, hdead, aliveWork]
  omega

/-- Every step that the executor takes by itself is one step less to go. -/
theorem work_step {mp : Codec τ El} {s t : State El σ o} {a : Action o} (hi : Internal a)
    (hs : Server.step mp s a = some t) : work t < work s := by
  obtain ⟨halive, hs⟩ := step_cases hs
  cases a with
  | accept action =>
    obtain ⟨acceptor, ha, rfl⟩ := Option.map_eq_some_iff.mp hs
    exact work_accept hi ha
  | arrive k objectId body => exact hi.elim
  | invoke i =>
    obtain ⟨ticket, frame, hj, ⟨_, rfl⟩ | ⟨request, _, ⟨_, rfl⟩ | ⟨_, rfl⟩⟩⟩ :=
      invokeMethodOn_cases hs
    · exact work_terminated halive rfl rfl rfl rfl rfl (by simp [throwException])
    · have hjob := work_job (s := s) (.inl i) .idle
      rw [hj] at hjob
      simp only [work, jobWork, List.length_append, List.length_singleton] at hjob ⊢
      omega
    · have hjob := work_job (s := s) (.inl i) (.request ticket request)
      rw [hj] at hjob
      simp only [jobWork] at hjob
      omega
  | pop j =>
    obtain ⟨ticket, request, rest, hj, hq, rfl⟩ := pop_cases hs
    have hjob := work_job (s := s) (.inr j) (.request ticket request)
    rw [hj] at hjob
    simp only [work, jobWork, hq, List.length_cons] at hjob ⊢
    omega
  | lookup u =>
    obtain ⟨ticket, request, hj, rfl⟩ := lookupMethod_cases hs
    have hjob := work_job (s := s) u (.bound ticket request
      ((s.registeredMethods request.methodName).getD none))
    rw [hj] at hjob
    simp only [work, jobWork] at hjob ⊢
    omega
  | call u =>
    obtain ⟨ticket, request, method, hj, ⟨w, rfl, _⟩ | ⟨b, w, result, _, _, rfl⟩⟩ :=
      callMethod_cases hs
    · exact work_terminated halive rfl rfl rfl rfl rfl (by simp [throwException])
    · have hjob := work_job (s := s) u (.returned ticket request result)
      rw [hj] at hjob
      simp only [work, jobWork] at hjob ⊢
      omega
  | respond u =>
    obtain ⟨ticket, request, result, hj, rfl⟩ := respond_cases hs
    have hjob := work_job (s := s) u .idle
    rw [hj] at hjob
    simp only [work, jobWork, List.length_append, List.length_singleton] at hjob ⊢
    omega
  | take n =>
    obtain ⟨ticket, response, rest, hn, hq, rfl⟩ := take_cases hs
    have hjob := work_writer (s := s) n (.popped ticket response)
    rw [hn] at hjob
    simp only [work, writeWork, hq, List.length_cons] at hjob ⊢
    omega
  | find n =>
    obtain ⟨ticket, response, hn, ⟨_, rfl⟩ | ⟨k, _, rfl⟩⟩ := find_cases hs
    · exact work_terminated halive rfl rfl rfl rfl rfl (by simp)
    · have hjob := work_writer (s := s) n (.found ticket response k)
      rw [hn] at hjob
      simp only [writeWork] at hjob
      omega
  | write n =>
    obtain ⟨ticket, response, k, hn, rfl⟩ := write_cases hs
    have hjob := work_writer (s := s) n .idle
    rw [hn] at hjob
    simp only [work, writeWork] at hjob ⊢
    omega

/-- The frames that arrived and are not answered yet. -/
def inFlight (s : State El σ o) : Nat := s.arrived.length - s.written.length

theorem jobWork_le (job : Job El σ) : jobWork job ≤ 8 * (jobIds job).card := by
  cases job <;> simp [jobWork, jobIds]

theorem writeWork_le (job : WriteJob) : writeWork job ≤ 2 * (writerIds job).card := by
  cases job <;> simp [writeWork, writerIds]

/-- Eight steps for a frame, two for a connection that is being taken in, and one for the
end of the process. -/
theorem work_le {s : State El σ o} (h : Balanced s) : work s ≤ 8 * inFlight s + 3 := by
  have hcard := congrArg Multiset.card h
  simp only [Multiset.card_add, contents, Multiset.coe_card, List.length_map] at hcard
  have hjobs := total_le_held jobWork_le s.jobs
  have hwriters := total_le_held writeWork_le s.writers
  have hphase : acceptWork s.acceptor.phase ≤ 2 := by
    cases s.acceptor.phase <;> simp [acceptWork]
  have halive : aliveWork s.terminated ≤ 1 := by
    cases s.terminated <;> simp [aliveWork]
  simp only [work, inFlight]
  omega

def invoking : Job El σ → Bool
  | .invoking .. => true
  | _ => false

/-- Only io threads run `InvokeMethod`, and only for workers does it queue a request. -/
structure Placed (s : State El σ o) : Prop where
  queue : s.requestQueue ≠ [] → 0 < o.workThreadNum
  workers : ∀ j : Fin o.workThreadNum, invoking (s.jobs (.inr j)) = false

theorem placed_loop (r : Registry (MethodType El σ)) (w : Objects El σ) :
    Placed (loop o r w) :=
  ⟨fun h => absurd rfl h, fun _ => rfl⟩

/-- A thread goes on with a job that is a worker's as well. -/
theorem workers_update {s : State El σ o} (h : Placed s) (t : Thread o) {job : Job El σ}
    (hjob : invoking job = false) (j : Fin o.workThreadNum) :
    invoking (Function.update s.jobs t job (.inr j)) = false := by
  by_cases ht : (.inr j : Thread o) = t
  · subst ht
    rwa [Function.update_self]
  · rw [Function.update_of_ne ht]
    exact h.workers j

theorem placed_step {mp : Codec τ El} {s t : State El σ o} {a : Action o} (h : Placed s)
    (hs : Server.step mp s a = some t) : Placed t := by
  obtain ⟨_, hs⟩ := step_cases hs
  cases a with
  | accept action =>
    obtain ⟨acceptor, _, rfl⟩ := Option.map_eq_some_iff.mp hs
    exact ⟨h.queue, h.workers⟩
  | arrive k objectId body =>
    obtain ⟨stream, _, _, _, rfl⟩ := arrive_cases hs
    -- the thread of the stream is no worker
    exact ⟨h.queue, h.workers⟩
  | invoke i =>
    obtain ⟨ticket, frame, _, ⟨_, rfl⟩ | ⟨request, _, ⟨hpos, rfl⟩ | ⟨_, rfl⟩⟩⟩ :=
      invokeMethodOn_cases hs
    · exact ⟨h.queue, h.workers⟩
    · exact ⟨fun _ => hpos, h.workers⟩
    · exact ⟨h.queue, h.workers⟩
  | pop j =>
    obtain ⟨ticket, request, rest, _, _, rfl⟩ := pop_cases hs
    exact ⟨fun _ => Nat.lt_of_le_of_lt (Nat.zero_le _) j.isLt, workers_update h _ rfl⟩
  | lookup u =>
    obtain ⟨ticket, request, _, rfl⟩ := lookupMethod_cases hs
    exact ⟨h.queue, workers_update h _ rfl⟩
  | call u =>
    obtain ⟨ticket, request, method, _, ⟨w, rfl, _⟩ | ⟨b, w, result, _, _, rfl⟩⟩ :=
      callMethod_cases hs
    · exact ⟨h.queue, h.workers⟩
    · exact ⟨h.queue, workers_update h _ rfl⟩
  | respond u =>
    obtain ⟨ticket, request, result, _, rfl⟩ := respond_cases hs
    exact ⟨h.queue, workers_update h _ rfl⟩
  | take n =>
    obtain ⟨ticket, response, rest, _, _, rfl⟩ := take_cases hs
    exact ⟨h.queue, h.workers⟩
  | find n =>
    obtain ⟨ticket, response, _, ⟨_, rfl⟩ | ⟨k, _, rfl⟩⟩ := find_cases hs
    all_goals exact ⟨h.queue, h.workers⟩
  | write n =>
    obtain ⟨ticket, response, k, _, rfl⟩ := write_cases hs
    exact ⟨h.queue, h.workers⟩

/-- Nothing is left to do: the frames answered, by number, stream id and object id, are
those that arrived. -/
structure Drained (s : State El σ o) : Prop where
  requests : s.requestQueue = []
  jobs : ∀ t, s.jobs t = .idle
  responses : s.responseQueue = []
  writers : ∀ n, s.writers n = .idle
  answered : writtenTags s.written = frameTags s.arrived

/-! What is enabled when no step of the executor is. -/

theorem act_of_stuck {mp : Codec τ El} {s : State El σ o} (halive : s.terminated = none)
    (hstuck : Stuck (Server.step mp) Internal s) {a : Action o} (ha : Internal a) :
    act mp s a = none := by
  have h := hstuck a ha
  rwa [Server.step, halive] at h

/-- A thread with a job can take it further. -/
theorem idle_of_stuck {mp : Codec τ El} {s : State El σ o} (halive : s.terminated = none)
    (h : Placed s) (hstuck : Stuck (Server.step mp) Internal s) (t : Thread o) :
    s.jobs t = .idle := by
  cases hj : s.jobs t with
  | idle => rfl
  | invoking ticket frame =>
    cases t with
    | inl i =>
      have hnone := act_of_stuck halive hstuck (a := .invoke i) trivial
      simp only [act, invokeMethodOn, hj] at hnone
      split at hnone
      · cases hnone
      · split at hnone <;> cases hnone
    | inr j =>
      have hworker := h.workers j
      rw [hj] at hworker
      cases hworker
  | request ticket request =>
    have hnone := act_of_stuck halive hstuck (a := .lookup t) trivial
    simp [act, lookupMethod, hj] at hnone
  | bound ticket request method =>
    have hnone := act_of_stuck halive hstuck (a := .call t) trivial
    cases method with
    | none => simp [act, callMethod, hj] at hnone
    | some b =>
      simp only [act, callMethod, hj] at hnone
      split at hnone <;> cases hnone
  | returned ticket request result =>
    have hnone := act_of_stuck halive hstuck (a := .respond t) trivial
    simp [act, respond, hj] at hnone

/-- The handler that holds `streams_mutex_` goes on to give it back. -/
theorem unlocked_of_stuck {mp : Codec τ El} {s : State El σ o} (halive : s.terminated = none)
    (hstuck : Stuck (Server.step mp) Internal s) : Accept.unlocked s.acceptor = true := by
  cases hp : s.acceptor.phase with
  | inserted k =>
    have hnone := act_of_stuck halive hstuck (a := .accept .start) trivial
    simp [act, Accept.step, hp] at hnone
  | _ => simp [Accept.unlocked, hp]

theorem writer_idle_of_stuck {mp : Codec τ El} {s : State El σ o}
    (halive : s.terminated = none) (hstuck : Stuck (Server.step mp) Internal s)
    (n : Fin o.writeThreadNum) : s.writers n = .idle := by
  cases hn : s.writers n with
  | idle => rfl
  | popped ticket response =>
    have hnone := act_of_stuck halive hstuck (a := .find n) trivial
    simp only [act, find, hn, unlocked_of_stuck halive hstuck] at hnone
    split at hnone <;> cases hnone
  | found ticket response k =>
    have hnone := act_of_stuck halive hstuck (a := .write n) trivial
    simp [act, write, hn] at hnone

/-- A request in the queue would be popped by a worker, a response by a writer. -/
theorem queues_of_stuck {mp : Codec τ El} {s : State El σ o} (halive : s.terminated = none)
    (h : Placed s) (hstuck : Stuck (Server.step mp) Internal s) (hw : 0 < o.writeThreadNum) :
    s.requestQueue = [] ∧ s.responseQueue = [] := by
  constructor
  · by_contra hne
    obtain ⟨⟨ticket, request⟩, rest, hq⟩ := List.exists_cons_of_ne_nil hne
    let j : Fin o.workThreadNum := ⟨0, h.queue hne⟩
    have hnone := act_of_stuck halive hstuck (a := .pop j) trivial
    simp [act, pop, idle_of_stuck halive h hstuck (.inr j), hq] at hnone
  · by_contra hne
    obtain ⟨⟨ticket, response⟩, rest, hq⟩ := List.exists_cons_of_ne_nil hne
    let n : Fin o.writeThreadNum := ⟨0, hw⟩
    have hnone := act_of_stuck halive hstuck (a := .take n) trivial
    simp [act, take, writer_idle_of_stuck halive hstuck n, hq] at hnone

theorem drained_of_stuck {mp : Codec τ El} {s : State El σ o} (halive : s.terminated = none)
    (hc : Conserved s) (hp : Placed s) (hstuck : Stuck (Server.step mp) Internal s)
    (hw : 0 < o.writeThreadNum) : Drained s := by
  obtain ⟨hrequests, hresponses⟩ := queues_of_stuck halive hp hstuck hw
  have hjobs := idle_of_stuck halive hp hstuck
  have hwriters := writer_idle_of_stuck halive hstuck
  refine ⟨hrequests, hjobs, hresponses, hwriters, ?_⟩
  have hpending : held pending s.jobs = 0 := Finset.sum_eq_zero fun t _ => by rw [hjobs t]; rfl
  have hfinished : held finished s.jobs = 0 := Finset.sum_eq_zero fun t _ => by rw [hjobs t]; rfl
  have hwriting : held writing s.writers = 0 :=
    Finset.sum_eq_zero fun n _ => by rw [hwriters n]; rfl
  rw [hc.arrived, hc.ran, hpending, hfinished, hwriting, hrequests, hresponses]
  simp [requestTags, responseTags]

/-- What the proofs carry from step to step; nothing is asked of the frames. -/
structure Steady (s : State El σ o) : Prop where
  conserved : Conserved s
  placed : Placed s

theorem steady_of_reach {mp : Codec τ El} {C : State El σ o → Action o → Prop}
    {r : Registry (MethodType El σ)} {w : Objects El σ} {s : State El σ o}
    (h : Reach (Server.step mp) C (loop o r w) s) : Steady s :=
  h.invariant ⟨conserved_loop r w, placed_loop r w⟩ fun _ _ _ hi _ hs =>
    ⟨conserved_step hi.conserved hs, placed_step hi.placed hs⟩

theorem steady_run {mp : Codec τ El} {s t : State El σ o} {acts : List (Action o)}
    (h : Steady s) (hrun : run (Server.step mp) s acts = some t)
    (hi : ∀ a ∈ acts, Internal a) : Steady t :=
  run_invariant (fun _ _ _ hs _ hst =>
    ⟨conserved_step hs.conserved hst, placed_step hs.placed hst⟩) hrun hi h

theorem terminates (mp : Codec τ El) (s : State El σ o) :
    Terminates (Server.step mp) Internal s :=
  terminates_of_measure (I := fun _ => True) Nat.lt_wfRel.wf work
    (fun _ _ _ _ hi hs => ⟨trivial, work_step hi hs⟩) trivial

/-- From any state of any run, with no connection and no frame coming in and no accept, read
or write failing, the executor takes at most eight steps for a frame in flight and three
more. Where it stops, unless an exception has ended the process, the queues are empty, no
thread has a job and every frame that arrived has been answered once. It does stop. -/
theorem drains_in_flight {mp : Codec τ El} (hw : 0 < o.writeThreadNum)
    {r : Registry (MethodType El σ)} {w : Objects El σ} {s : State El σ o}
    (h : Reach (Server.step mp) Any (loop o r w) s) :
    (∀ acts t, run (Server.step mp) s acts = some t → (∀ a ∈ acts, Internal a) →
      acts.length ≤ 8 * inFlight s + 3 ∧
        (Stuck (Server.step mp) Internal t → t.terminated = none → Drained t)) ∧
      ∃ acts t, ComesToRest (Server.step mp) Internal s acts t := by
  have hs := steady_of_reach h
  refine ⟨fun acts t hrun hi => ⟨?_, fun hstuck halive => ?_⟩, exists_rest (terminates mp s)⟩
  · have hlen := length_le_of_measure (fun _ _ _ hi hs => work_step hi hs) hrun hi
    have hle := work_le (balanced_of_conserved hs.conserved)
    omega
  · have ht := steady_run hs hrun hi
    exact drained_of_stuck halive ht.conserved ht.placed hstuck hw

/-- The frame of the call of `add` has just arrived. -/
def arrived : List (Action single) :=
  [.accept .accept, .accept .insert, .accept .start,
    .arrive 0 7 [0x94, 0xa1, 67, 0xa3, 97, 100, 100, 1, 2]]

theorem drains_in_flight_arrived : ∃ r, run Services.step empty calculator = some r ∧
    ∃ s : State (fun _ : Unit => Int) Unit single,
      run (Server.step fixCodec) (loop single r ⟨fun _ => (), []⟩) arrived = some s ∧
      inFlight s = 1 ∧
      ((∀ acts t, run (Server.step fixCodec) s acts = some t → (∀ a ∈ acts, Internal a) →
        acts.length ≤ 8 * inFlight s + 3 ∧
          (Stuck (Server.step fixCodec) Internal t → t.terminated = none → Drained t)) ∧
        ∃ acts t, ComesToRest (Server.step fixCodec) Internal s acts t) := by
  obtain ⟨r, hr⟩ : ∃ r, run Services.step empty calculator = some r := ⟨_, rfl⟩
  obtain ⟨s, hs, hflight⟩ : ∃ s : State (fun _ : Unit => Int) Unit single,
      run (Server.step fixCodec) (loop single r ⟨fun _ => (), []⟩) arrived = some s ∧
      inFlight s = 1 := ⟨_, rfl, rfl⟩
  exact ⟨r, hr, s, hs, hflight, drains_in_flight Nat.one_pos (Reach.of_run hs)⟩

/-- The connection and the object id of a frame, by its number. -/
def origin (arrived : List Frame) (ticket : Nat) : Option (Nat × UInt32) :=
  (arrived[ticket]?).map fun f => (f.connection, f.objectId)

theorem origins_frameTags (arrived : List Frame) :
    ((frameTags arrived).map Prod.fst).map (origin arrived) =
      contents (fun f => some (f.connection, f.objectId)) arrived := by
  rw [tickets_frameTags, contents, Multiset.range, Multiset.map_coe]
  congr 1
  refine List.ext_getElem? fun n => ?_
  rw [List.getElem?_map, List.getElem?_map]
  by_cases hn : n < arrived.length
  · simp [origin, hn]
  · simp [hn]

/-- With all frames answered, the answers carry the connections and ids of the frames. -/
theorem contents_of_drained {mp : Codec τ El} {r : Registry (MethodType El σ)}
    {w : Objects El σ} {s : State El σ o} (hd : Drained s) (h : Delivered mp r w s) :
    contents (fun e => (e.stream, e.response.objectId)) s.written =
      contents (fun f => (f.connection, f.objectId)) s.arrived := by
  have horigin : contents (fun e => some (e.stream, e.response.objectId)) s.written =
      contents (fun e => origin s.arrived e.ticket) s.written := by
    refine congrArg _ (List.map_congr_left fun e he => ?_)
    obtain ⟨f, run, hf, hconn, hid, -⟩ := h.answers e he
    rw [origin, hf, Option.map_some, hconn, hid]
  have htickets : contents (fun e => origin s.arrived e.ticket) s.written =
      ((writtenTags s.written).map Prod.fst).map (origin s.arrived) := by
    simp [writtenTags, contents, responseTag, Function.comp_def]
  rw [hd.answered, origins_frameTags, ← horigin] at htickets
  have hsome : ∀ {α : Type} (f : α → Nat × UInt32) (l : List α),
      contents (fun a => some (f a)) l = (contents f l).map some := by
    intro α f l
    simp [contents, Function.comp_def]
  rw [hsome, hsome] at htickets
  exact Multiset.map_injective (Option.some_injective _) htickets

/-- Where every frame decodes, names a registered method and does not make it throw, the
executor comes to rest in every order of its steps, and then the responses written are one
for each frame that arrived, on the connection it came from and under its object id. -/
theorem answers_all {mp : Codec τ El} (hw : 0 < o.writeThreadNum)
    {r : Registry (MethodType El σ)} {w : Objects El σ} {s : State El σ o}
    (h : Reach (Server.step mp) (fun s a => Few s a ∧ Good mp r a) (loop o r w) s) :
    Terminates (Server.step mp) Internal s ∧
      (∃ acts t, ComesToRest (Server.step mp) Internal s acts t) ∧
      ∀ acts t, ComesToRest (Server.step mp) Internal s acts t →
        t.terminated = none ∧ Drained t ∧
          contents (fun e => (e.stream, e.response.objectId)) t.written =
            contents (fun f => (f.connection, f.objectId)) s.arrived := by
  refine ⟨terminates mp s, exists_rest (terminates mp s), fun acts t hrest => ?_⟩
  have hrun := Reach.of_run_forall hrest.replays hrest.kind
  have ht : Delivered mp r w t := by
    refine delivered_of ((h.trans (hrun.weaken fun u a v hi _ => ?_)).invariant
      (invariant_loop mp r w) fun _ _ _ hi hc hs => invariant_step hi hc hs)
    cases a with
    | accept action => cases action <;> first | exact hi.elim | exact ⟨trivial, trivial⟩
    | arrive k objectId body => exact hi.elim
    | _ => exact ⟨trivial, trivial⟩
  have hsteady := steady_run (steady_of_reach h) hrest.replays hrest.kind
  have hd := drained_of_stuck ht.alive hsteady.conserved hsteady.placed hrest.stuck hw
  have harrived : t.arrived = s.arrived := by
    refine hrun.invariant (I := fun u => u.arrived = s.arrived) rfl fun u a v hu hi hs => ?_
    rw [arrived_step hs fun k objectId body ha => by rw [ha] at hi; exact hi, hu]
  exact ⟨ht.alive, hd, harrived ▸ contents_of_drained hd ht⟩

theorem answers_all_arrived : ∃ r, run Services.step empty calculator = some r ∧
    ∃ s : State (fun _ : Unit => Int) Unit single,
      run (Server.step fixCodec) (loop single r ⟨fun _ => (), []⟩) arrived = some s ∧
      contents (fun f => (f.connection, f.objectId)) s.arrived = {(0, 7)} ∧
      (Terminates (Server.step fixCodec) Internal s ∧
        (∃ acts t, ComesToRest (Server.step fixCodec) Internal s acts t) ∧
        ∀ acts t, ComesToRest (Server.step fixCodec) Internal s acts t →
          t.terminated = none ∧ Drained t ∧
            contents (fun e => (e.stream, e.response.objectId)) t.written =
              contents (fun f => (f.connection, f.objectId)) s.arrived) := by
  obtain ⟨r, hr⟩ : ∃ r, run Services.step empty calculator = some r := ⟨_, rfl⟩
  have hadd : r.registeredMethods [97, 100, 100] = some ⟨0, SignatureValidation.add⟩ := by
    cases hr
    rfl
  obtain ⟨s, hs, hg, hone⟩ : ∃ s : State (fun _ : Unit => Int) Unit single,
      run (Server.step fixCodec) (loop single r ⟨fun _ => (), []⟩) arrived = some s ∧
      run (guarded (Server.step fixCodec) Few) (loop single r ⟨fun _ => (), []⟩) arrived = some s ∧
      contents (fun f => (f.connection, f.objectId)) s.arrived = {(0, 7)} := by
    cases hr
    exact ⟨_, rfl, rfl, rfl⟩
  refine ⟨r, hr, s, hs, hone, answers_all (r := r) Nat.one_pos (Reach.of_guarded_and hg ?_)⟩
  intro a ha
  simp only [arrived, List.mem_cons, List.not_mem_nil, or_false] at ha
  rcases ha with rfl | rfl | rfl | rfl
  case inr.inr.inr => exact fun streamId => performs_add hadd rfl streamId 7
  all_goals trivial

end Dousi.Executor.Drain
