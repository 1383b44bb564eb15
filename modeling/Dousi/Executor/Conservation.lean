import Dousi.Executor.Server

/-!
# No frame is lost or duplicated

A frame's number and ids go with it from the callback to the `Write` of its
response. At every moment the numbered ids of all frames are those of the requests
queued or in hand and of the handler runs, and those of the runs are the ones of the
responses in hand, queued, or written. This needs nothing of the frames.
-/
namespace Dousi.Executor.Conservation

open Dousi.Lib.Word
open Dousi.Lib.Transition
open Dousi.Lib.Pool
open Dousi.Core.Msgpack
open Request Services InvokeHelper Server

variable {τ : Type} {El : τ → Type} {σ : Type} {o : ExecutorOptions}

/-- The number of a frame, its stream id and its object id. -/
abbrev Tag := Nat × UInt64 × UInt32

def frameTag (ticket : Nat) (f : Frame) : Tag := (ticket, f.streamId, f.objectId)

def requestTag (ticket : Nat) (request : DousiRequest) : Tag :=
  (ticket, request.streamId, request.objectId)

def responseTag (ticket : Nat) (response : DousiResponse) : Tag :=
  (ticket, response.streamId, response.objectId)

/-- A request that an io thread or a worker has in hand, before its handler has run. -/
def pending : Job El σ → Multiset Tag
  | .invoking ticket frame => {frameTag ticket frame}
  | .request ticket request => {requestTag ticket request}
  | .bound ticket request _ => {requestTag ticket request}
  | _ => 0

/-- A response that is not yet pushed. -/
def finished : Job El σ → Multiset Tag
  | .returned ticket request _ => {requestTag ticket request}
  | _ => 0

def writing : WriteJob → Multiset Tag
  | .idle => 0
  | .popped ticket response => {responseTag ticket response}
  | .found ticket response _ => {responseTag ticket response}

def frameTags (arrived : List Frame) : Multiset Tag :=
  contents (fun e => frameTag e.2 e.1) arrived.zipIdx

def requestTags (queue : List (Nat × DousiRequest)) : Multiset Tag :=
  contents (fun e => requestTag e.1 e.2) queue

def runTags (ran : List (Run El σ)) : Multiset Tag :=
  contents (fun run => requestTag run.ticket run.request) ran

def responseTags (queue : List (Nat × DousiResponse)) : Multiset Tag :=
  contents (fun e => responseTag e.1 e.2) queue

def writtenTags (written : List Written) : Multiset Tag :=
  contents (fun w => responseTag w.ticket w.response) written

theorem frameTags_append (arrived : List Frame) (f : Frame) :
    frameTags (arrived ++ [f]) = frameTags arrived + {frameTag arrived.length f} := by
  simp [frameTags, List.zipIdx_append]

structure Conserved (s : State El σ o) : Prop where
  arrived : frameTags s.arrived =
    requestTags s.requestQueue + held pending s.jobs + runTags s.ran
  ran : runTags s.ran = held finished s.jobs + responseTags s.responseQueue +
    held writing s.writers + writtenTags s.written

theorem conserved_loop (r : Registry (MethodType El σ)) (w : Objects El σ) :
    Conserved (loop o r w) := by
  have hp : held pending (fun _ : Thread o => (.idle : Job El σ)) = 0 := held_idle rfl
  have hf : held finished (fun _ : Thread o => (.idle : Job El σ)) = 0 := held_idle rfl
  have hw : held writing (fun _ : Fin o.writeThreadNum => .idle) = 0 := held_idle rfl
  constructor
  · simp [frameTags, requestTags, runTags, loop, hp]
  · simp [runTags, responseTags, writtenTags, loop, hf, hw]

theorem invokeMethod_ids {mp : Codec τ El} {streamId : UInt64} {objectId : UInt32}
    {body : Bytes} {request : DousiRequest}
    (h : invokeMethod mp streamId objectId body = some request) :
    request.streamId = streamId ∧ request.objectId = objectId := by
  obtain ⟨unpacked, _, h⟩ := Option.bind_eq_some_iff.mp h
  obtain ⟨names, _, rfl⟩ := Option.map_eq_some_iff.mp h
  exact ⟨rfl, rfl⟩

theorem requestTag_of_frame {mp : Codec τ El} {frame : Frame} {request : DousiRequest}
    (ticket : Nat)
    (h : invokeMethod mp frame.streamId frame.objectId frame.body = some request) :
    requestTag ticket request = frameTag ticket frame := by
  obtain ⟨hs, ho⟩ := invokeMethod_ids h
  rw [requestTag, frameTag, hs, ho]

/-- A thread that goes on with the same things in hand. -/
theorem conserved_keep {s : State El σ o} (h : Conserved s) (t : Thread o) (job : Job El σ)
    (hp : pending job = pending (s.jobs t)) (hf : finished job = finished (s.jobs t)) :
    Conserved { s with jobs := Function.update s.jobs t job } := by
  constructor
  · change _ = _ + held pending (Function.update s.jobs _ _) + _
    rw [held_keep hp]
    exact h.arrived
  · change _ = held finished (Function.update s.jobs _ _) + _ + _ + _
    rw [held_keep hf]
    exact h.ran

theorem conserved_arrive {s t : State El σ o} {k : Nat} {objectId : UInt32} {body : Bytes}
    (h : Conserved s) (hs : arrive s k objectId body = some t) : Conserved t := by
  obtain ⟨stream, _, _, hidle, rfl⟩ := arrive_cases hs
  constructor
  · change frameTags (s.arrived ++ [_]) = requestTags s.requestQueue +
      held pending (Function.update s.jobs _ _) + runTags s.ran
    rw [frameTags_append, held_take _ _ _ _ (by rw [hidle]; rfl), h.arrived]
    simp only [pending]
    abel
  · change runTags s.ran = held finished (Function.update s.jobs _ _) + _ + _ + _
    rw [held_keep (by rw [hidle]; rfl), h.ran]

theorem conserved_invoke {mp : Codec τ El} {s t : State El σ o} {i : Fin o.ioThreadNum}
    (h : Conserved s) (hs : invokeMethodOn mp s i = some t) : Conserved t := by
  obtain ⟨ticket, frame, hj, ⟨_, rfl⟩ | ⟨request, hr, ⟨_, rfl⟩ | ⟨_, rfl⟩⟩⟩ :=
    invokeMethodOn_cases hs
  · exact ⟨h.arrived, h.ran⟩
  · have hp := held_release pending s.jobs (.inl i) .idle rfl
    rw [hj, pending, ← requestTag_of_frame ticket hr] at hp
    constructor
    · change frameTags s.arrived = requestTags (s.requestQueue ++ [(ticket, request)]) +
        held pending (Function.update s.jobs _ _) + runTags s.ran
      rw [h.arrived, ← hp]
      simp only [requestTags, contents_append, contents_cons, contents_nil]
      abel
    · change runTags s.ran = held finished (Function.update s.jobs _ _) + _ + _ + _
      rw [held_keep (by rw [hj]; rfl), h.ran]
  · exact conserved_keep h _ _ (by rw [hj, pending, ← requestTag_of_frame ticket hr]; rfl)
      (by rw [hj]; rfl)

theorem conserved_pop {s t : State El σ o} {j : Fin o.workThreadNum} (h : Conserved s)
    (hs : pop s j = some t) : Conserved t := by
  obtain ⟨ticket, request, rest, hidle, hq, rfl⟩ := pop_cases hs
  have ha := h.arrived
  rw [hq, requestTags, contents_cons] at ha
  constructor
  · change frameTags s.arrived = requestTags rest + held pending (Function.update s.jobs _ _) + _
    rw [ha, held_take _ _ _ _ (by rw [hidle]; rfl)]
    simp only [pending, requestTags]
    abel
  · change _ = held finished (Function.update s.jobs _ _) + _ + _ + _
    rw [held_keep (by rw [hidle]; rfl)]
    exact h.ran

theorem conserved_lookup {s u : State El σ o} {t : Thread o} (h : Conserved s)
    (hs : lookupMethod s t = some u) : Conserved u := by
  obtain ⟨ticket, request, hj, rfl⟩ := lookupMethod_cases hs
  have hkeep := conserved_keep h t (.bound ticket request
    ((s.registeredMethods request.methodName).getD none)) (by rw [hj]; rfl) (by rw [hj]; rfl)
  exact ⟨hkeep.arrived, hkeep.ran⟩

/-- The request in hand becomes a run and a response in hand. -/
theorem conserved_call {mp : Codec τ El} {s u : State El σ o} {t : Thread o} (h : Conserved s)
    (hs : callMethod mp s t = some u) : Conserved u := by
  obtain ⟨ticket, request, method, hj, ⟨w, rfl, _⟩ | ⟨b, w, result, _, _, rfl⟩⟩ :=
    callMethod_cases hs
  · exact ⟨h.arrived, h.ran⟩
  · have hp := held_release pending s.jobs t (.returned ticket request result) rfl
    have hf := held_take finished s.jobs t (.returned ticket request result) (by rw [hj]; rfl)
    rw [hj, pending] at hp
    have hr : runTags (s.ran ++ [⟨ticket, request, b, result⟩]) =
        runTags s.ran + {requestTag ticket request} := by
      simp [runTags]
    constructor
    · change frameTags s.arrived = _ + held pending (Function.update s.jobs _ _) +
        runTags (s.ran ++ [_])
      rw [h.arrived, ← hp, hr]
      abel
    · change runTags (s.ran ++ [_]) = held finished (Function.update s.jobs _ _) + _ + _ + _
      rw [hr, h.ran, hf, finished]
      abel

theorem conserved_respond {s u : State El σ o} {t : Thread o} (h : Conserved s)
    (hs : respond s t = some u) : Conserved u := by
  obtain ⟨ticket, request, result, hj, rfl⟩ := respond_cases hs
  have hf := held_release finished s.jobs t .idle rfl
  rw [hj, finished] at hf
  constructor
  · change _ = _ + held pending (Function.update s.jobs _ _) + _
    rw [held_keep (by rw [hj]; rfl)]
    exact h.arrived
  · change runTags s.ran = held finished (Function.update s.jobs _ _) +
      responseTags (s.responseQueue ++ [_]) + _ + _
    rw [h.ran, ← hf]
    simp only [responseTags, contents_append, contents_cons, contents_nil, responseTag, requestTag]
    abel

theorem conserved_take {s t : State El σ o} {n : Fin o.writeThreadNum} (h : Conserved s)
    (hs : take s n = some t) : Conserved t := by
  obtain ⟨ticket, response, rest, hidle, hq, rfl⟩ := take_cases hs
  have hr := h.ran
  rw [hq, responseTags, contents_cons] at hr
  refine ⟨h.arrived, ?_⟩
  change runTags s.ran = _ + responseTags rest + held writing (Function.update s.writers _ _) + _
  rw [hr, held_take _ _ _ _ (by rw [hidle]; rfl)]
  simp only [writing, responseTags]
  abel

theorem conserved_find {s t : State El σ o} {n : Fin o.writeThreadNum} (h : Conserved s)
    (hs : find s n = some t) : Conserved t := by
  obtain ⟨ticket, response, hn, ⟨_, rfl⟩ | ⟨k, _, rfl⟩⟩ := find_cases hs
  · exact ⟨h.arrived, h.ran⟩
  · refine ⟨h.arrived, ?_⟩
    change _ = _ + _ + held writing (Function.update s.writers _ _) + _
    rw [held_keep (by rw [hn]; rfl)]
    exact h.ran

theorem conserved_write {s t : State El σ o} {n : Fin o.writeThreadNum} (h : Conserved s)
    (hs : write s n = some t) : Conserved t := by
  obtain ⟨ticket, response, k, hn, rfl⟩ := write_cases hs
  have hw := held_release writing s.writers n .idle rfl
  rw [hn, writing] at hw
  refine ⟨h.arrived, ?_⟩
  change runTags s.ran = _ + _ + held writing (Function.update s.writers _ _) +
    writtenTags (s.written ++ [_])
  rw [h.ran, ← hw]
  simp only [writtenTags, contents_append, contents_cons, contents_nil]
  abel

/-- Every step of every thread conserves the frames. -/
theorem conserved_step {mp : Codec τ El} {s t : State El σ o} {a : Action o}
    (h : Conserved s) (hs : step mp s a = some t) : Conserved t := by
  obtain ⟨_, hs⟩ := step_cases hs
  cases a with
  | accept action =>
    obtain ⟨acceptor, _, rfl⟩ := Option.map_eq_some_iff.mp hs
    exact ⟨h.arrived, h.ran⟩
  | arrive k objectId body => exact conserved_arrive h hs
  | invoke i => exact conserved_invoke h hs
  | pop j => exact conserved_pop h hs
  | lookup t => exact conserved_lookup h hs
  | call t => exact conserved_call h hs
  | respond t => exact conserved_respond h hs
  | take n => exact conserved_take h hs
  | find n => exact conserved_find h hs
  | write n => exact conserved_write h hs

/-- The numbers of the frames are all different. -/
theorem tickets_frameTags (arrived : List Frame) :
    (frameTags arrived).map Prod.fst = Multiset.range arrived.length := by
  simp only [frameTags, contents, Multiset.map_coe, List.map_map, Multiset.range]
  congr 1
  have hfst : (Prod.fst ∘ fun e : Frame × Nat => frameTag e.2 e.1) = Prod.snd := rfl
  rw [hfst, List.zipIdx_map_snd, List.range_eq_range']

theorem arrived_nodup (arrived : List Frame) : ((frameTags arrived).map Prod.fst).Nodup := by
  rw [tickets_frameTags]
  exact Multiset.nodup_range _

theorem ran_nodup {s : State El σ o} (h : Conserved s) :
    (s.ran.map Run.ticket).Nodup := by
  have hn := arrived_nodup s.arrived
  rw [h.arrived, Multiset.map_add] at hn
  have hr := (Multiset.nodup_add.mp hn).2.1
  rw [runTags, contents, Multiset.map_coe, List.map_map] at hr
  exact Multiset.coe_nodup.mp hr

theorem written_nodup {s : State El σ o} (h : Conserved s) :
    (s.written.map Written.ticket).Nodup := by
  have hn := arrived_nodup s.arrived
  rw [h.arrived, h.ran] at hn
  simp only [Multiset.map_add] at hn
  have hr := (Multiset.nodup_add.mp (Multiset.nodup_add.mp hn).2.1).2.1
  rw [writtenTags, contents, Multiset.map_coe, List.map_map] at hr
  exact Multiset.coe_nodup.mp hr

end Dousi.Executor.Conservation
