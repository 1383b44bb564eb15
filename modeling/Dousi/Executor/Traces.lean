import Dousi.Executor.Conservation

/-!
# Where requests and responses come from

What the threads and queues hold is traced to the frame it came from: a request is
the decoding of its frame, a response carries the ids of its request and the result
of its run. This holds in every run, whatever frames arrive.
-/
namespace Dousi.Executor.Traces

open Dousi.Lib.Word
open Dousi.Lib.Log
open Dousi.Lib.Transition
open Dousi.Lib.Pool
open Dousi.Core.Msgpack
open Request Services InvokeHelper Server Conservation

variable {τ : Type} {El : τ → Type} {σ : Type} {o : ExecutorOptions}

/-- A request that is the decoding of the frame with its number. -/
def FromFrame (mp : Codec τ El) (arrived : List Frame) (ticket : Nat) (request : DousiRequest) :
    Prop :=
  ∃ f, arrived[ticket]? = some f ∧
    invokeMethod mp f.streamId f.objectId f.body = some request

/-- A response made of the run with its number. -/
def FromRun (ran : List (Run El σ)) (ticket : Nat) (response : DousiResponse) : Prop :=
  ∃ run ∈ ran, run.ticket = ticket ∧
    response = ⟨run.request.objectId, run.request.streamId, run.result⟩

def TracedJob (mp : Codec τ El) (arrived : List Frame) (ran : List (Run El σ)) :
    Job El σ → Prop
  | .idle => True
  | .invoking ticket frame => arrived[ticket]? = some frame
  | .request ticket request => FromFrame mp arrived ticket request
  | .bound ticket request _ => FromFrame mp arrived ticket request
  | .returned ticket request result =>
    FromRun ran ticket ⟨request.objectId, request.streamId, result⟩

def TracedWriter (ran : List (Run El σ)) : WriteJob → Prop
  | .idle => True
  | .popped ticket response => FromRun ran ticket response
  | .found ticket response _ => FromRun ran ticket response

structure Traced (mp : Codec τ El) (s : State El σ o) : Prop where
  jobs : ∀ t, TracedJob mp s.arrived s.ran (s.jobs t)
  requests : ∀ e ∈ s.requestQueue, FromFrame mp s.arrived e.1 e.2
  ran : ∀ run ∈ s.ran, FromFrame mp s.arrived run.ticket run.request
  responses : ∀ e ∈ s.responseQueue, FromRun s.ran e.1 e.2
  writers : ∀ n, TracedWriter s.ran (s.writers n)
  written : ∀ w ∈ s.written, FromRun s.ran w.ticket w.response

theorem Traced.job {mp : Codec τ El} {s : State El σ o} (h : Traced mp s) {t : Thread o}
    {job : Job El σ} (hj : s.jobs t = job) : TracedJob mp s.arrived s.ran job := hj ▸ h.jobs t

theorem Traced.writer {mp : Codec τ El} {s : State El σ o} (h : Traced mp s)
    {n : Fin o.writeThreadNum} {job : WriteJob} (hn : s.writers n = job) :
    TracedWriter s.ran job := hn ▸ h.writers n

theorem fromFrame_append {mp : Codec τ El} {arrived : List Frame} {ticket : Nat}
    {request : DousiRequest} (h : FromFrame mp arrived ticket request) (f : Frame) :
    FromFrame mp (arrived ++ [f]) ticket request := by
  obtain ⟨g, hg, hr⟩ := h
  exact ⟨g, get_append hg _, hr⟩

theorem fromRun_append {ran : List (Run El σ)} {ticket : Nat} {response : DousiResponse}
    (h : FromRun ran ticket response) (run : Run El σ) :
    FromRun (ran ++ [run]) ticket response := by
  obtain ⟨run', hmem, hr⟩ := h
  exact ⟨run', List.mem_append_left _ hmem, hr⟩

theorem tracedJob_frame {mp : Codec τ El} {arrived : List Frame} {ran : List (Run El σ)}
    {job : Job El σ} (h : TracedJob mp arrived ran job) (f : Frame) :
    TracedJob mp (arrived ++ [f]) ran job := by
  cases job with
  | idle => exact h
  | invoking ticket frame => exact get_append h _
  | request ticket request => exact fromFrame_append h f
  | bound ticket request method => exact fromFrame_append h f
  | returned ticket request result => exact h

theorem tracedJob_run {mp : Codec τ El} {arrived : List Frame} {ran : List (Run El σ)}
    {job : Job El σ} (h : TracedJob mp arrived ran job) (run : Run El σ) :
    TracedJob mp arrived (ran ++ [run]) job := by
  cases job with
  | returned ticket request result => exact fromRun_append h run
  | _ => exact h

theorem tracedWriter_run {ran : List (Run El σ)} {job : WriteJob}
    (h : TracedWriter ran job) (run : Run El σ) : TracedWriter (ran ++ [run]) job := by
  cases job with
  | idle => exact h
  | popped ticket response => exact fromRun_append h run
  | found ticket response k => exact fromRun_append h run

theorem traced_loop (mp : Codec τ El) (r : Registry (MethodType El σ)) (w : Objects El σ) :
    Traced mp (loop o r w) :=
  ⟨fun _ => trivial, by simp [loop], by simp [loop], by simp [loop], fun _ => trivial,
    by simp [loop]⟩

theorem traced_call {mp : Codec τ El} {s u : State El σ o} {t : Thread o} (h : Traced mp s)
    (hs : callMethod mp s t = some u) : Traced mp u := by
  obtain ⟨ticket, request, method, hj, ⟨w, rfl, _⟩ | ⟨b, w, result, _, _, rfl⟩⟩ :=
    callMethod_cases hs
  · exact ⟨h.jobs, h.requests, h.ran, h.responses, h.writers, h.written⟩
  · have hframe : FromFrame mp s.arrived ticket request := h.job hj
    have hlast : (⟨ticket, request, b, result⟩ : Run El σ) ∈
        s.ran ++ [⟨ticket, request, b, result⟩] := by simp
    refine ⟨forall_update (fun t' => tracedJob_run (h.jobs t') _) t ⟨_, hlast, rfl, rfl⟩,
      h.requests, fun run hrun => ?_, fun e he => fromRun_append (h.responses e he) _,
      fun n => tracedWriter_run (h.writers n) _, fun e he => fromRun_append (h.written e he) _⟩
    rcases List.mem_append.mp hrun with hold | hnew
    · exact h.ran run hold
    · rw [List.mem_singleton.mp hnew]
      exact hframe

/-- Every step keeps the traces; nothing is asked of the frames. -/
theorem traced_step {mp : Codec τ El} {s t : State El σ o} {a : Action o} (h : Traced mp s)
    (hs : step mp s a = some t) : Traced mp t := by
  obtain ⟨_, hs⟩ := step_cases hs
  cases a with
  | accept action =>
    obtain ⟨acceptor, _, rfl⟩ := Option.map_eq_some_iff.mp hs
    exact ⟨h.jobs, h.requests, h.ran, h.responses, h.writers, h.written⟩
  | arrive k objectId body =>
    obtain ⟨stream, _, _, _, rfl⟩ := arrive_cases hs
    exact ⟨forall_update (fun t' => tracedJob_frame (h.jobs t') _) _ (get_last _ _),
      fun e he => fromFrame_append (h.requests e he) _,
      fun run hrun => fromFrame_append (h.ran run hrun) _, h.responses, h.writers, h.written⟩
  | invoke i =>
    obtain ⟨ticket, frame, hj, hcase⟩ := invokeMethodOn_cases hs
    have hframe : s.arrived[ticket]? = some frame := h.job hj
    rcases hcase with ⟨_, rfl⟩ | ⟨request, hr, ⟨_, rfl⟩ | ⟨_, rfl⟩⟩
    · exact ⟨h.jobs, h.requests, h.ran, h.responses, h.writers, h.written⟩
    · refine ⟨forall_update h.jobs _ trivial, fun e he => ?_, h.ran, h.responses, h.writers,
        h.written⟩
      rcases List.mem_append.mp he with hold | hnew
      · exact h.requests e hold
      · rw [List.mem_singleton.mp hnew]
        exact ⟨frame, hframe, hr⟩
    · exact ⟨forall_update h.jobs _ ⟨frame, hframe, hr⟩, h.requests, h.ran, h.responses,
        h.writers, h.written⟩
  | pop j =>
    obtain ⟨ticket, request, rest, _, hq, rfl⟩ := pop_cases hs
    have hreq := h.requests
    rw [hq] at hreq
    exact ⟨forall_update h.jobs _ (hreq _ List.mem_cons_self),
      fun e he => hreq e (List.mem_cons_of_mem _ he), h.ran, h.responses, h.writers, h.written⟩
  | lookup t =>
    obtain ⟨ticket, request, hj, rfl⟩ := lookupMethod_cases hs
    have hframe : FromFrame mp s.arrived ticket request := h.job hj
    exact ⟨forall_update h.jobs _ hframe, h.requests, h.ran, h.responses, h.writers, h.written⟩
  | call t => exact traced_call h hs
  | respond t =>
    obtain ⟨ticket, request, result, hj, rfl⟩ := respond_cases hs
    have hrun : FromRun s.ran ticket ⟨request.objectId, request.streamId, result⟩ := h.job hj
    refine ⟨forall_update h.jobs _ trivial, h.requests, h.ran, fun e he => ?_, h.writers,
      h.written⟩
    rcases List.mem_append.mp he with hold | hnew
    · exact h.responses e hold
    · rw [List.mem_singleton.mp hnew]
      exact hrun
  | take n =>
    obtain ⟨ticket, response, rest, _, hq, rfl⟩ := take_cases hs
    have hres := h.responses
    rw [hq] at hres
    exact ⟨h.jobs, h.requests, h.ran, fun e he => hres e (List.mem_cons_of_mem _ he),
      forall_update h.writers _ (hres _ List.mem_cons_self), h.written⟩
  | find n =>
    obtain ⟨ticket, response, hn, ⟨_, rfl⟩ | ⟨k, _, rfl⟩⟩ := find_cases hs
    · exact ⟨h.jobs, h.requests, h.ran, h.responses, h.writers, h.written⟩
    · have hrun : FromRun s.ran ticket response := h.writer hn
      exact ⟨h.jobs, h.requests, h.ran, h.responses, forall_update h.writers _ hrun, h.written⟩
  | write n =>
    obtain ⟨ticket, response, k, hn, rfl⟩ := write_cases hs
    have hrun : FromRun s.ran ticket response := h.writer hn
    refine ⟨h.jobs, h.requests, h.ran, h.responses, forall_update h.writers _ trivial,
      fun e he => ?_⟩
    rcases List.mem_append.mp he with hold | hnew
    · exact h.written e hold
    · rw [List.mem_singleton.mp hnew]
      exact hrun

end Dousi.Executor.Traces
