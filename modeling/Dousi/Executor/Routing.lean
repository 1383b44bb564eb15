import Dousi.Executor.Traces

/-!
# Every response goes back where its request came from

With stream ids left, the stream id of a frame leads back to its connection, also
after the response has waited behind other ones. With frames that decode and name a
registered method that does not throw, no thread ends the process, so that the map
is consulted for every response.
-/
namespace Dousi.Executor.Routing

open Dousi.Lib.Word
open Dousi.Lib.Log
open Dousi.Lib.Transition
open Dousi.Lib.Pool
open Dousi.Core.Msgpack
open Request Services InvokeHelper Server Conservation Traces

variable {τ : Type} {El : τ → Type} {σ : Type} {o : ExecutorOptions}

/-- The frame with a number came from connection `k`. -/
def Origin (arrived : List Frame) (ticket k : Nat) : Prop :=
  ∃ f, arrived[ticket]? = some f ∧ f.connection = k

def RoutedWriter (arrived : List Frame) : WriteJob → Prop
  | .found ticket _ k => Origin arrived ticket k
  | _ => True

structure Routed (s : State El σ o) : Prop where
  routes : Accept.Routes s.acceptor
  frames : ∀ f ∈ s.arrived,
    Accept.Started s.acceptor f.connection ∧ f.streamId = UInt64.ofNat f.connection
  writers : ∀ n, RoutedWriter s.arrived (s.writers n)
  written : ∀ w ∈ s.written, Origin s.arrived w.ticket w.stream

/-- A frame of a request that is performed to its end. -/
def Performs (mp : Codec τ El) (r : Registry (MethodType El σ)) (streamId : UInt64)
    (objectId : UInt32) (body : Bytes) : Prop :=
  ∃ request b, invokeMethod mp streamId objectId body = some request ∧
    r.registeredMethods request.methodName = some b ∧
    ∀ w, (invoke mp b request.unpacked w).2 ≠ none

/-- Fewer than `2 ^ 64` connections are accepted. -/
def Few (s : State El σ o) : Action o → Prop
  | .accept action => Accept.IdsLeft s.acceptor action
  | _ => True

instance (s : State El σ o) (a : Action o) : Decidable (Few s a) := by
  cases a with
  | accept action =>
    cases action
    · exact inferInstanceAs (Decidable (_ < _))
    all_goals exact inferInstanceAs (Decidable True)
  | _ => exact inferInstanceAs (Decidable True)

/-- Every frame decodes and names a registered method that does not throw. -/
def Good (mp : Codec τ El) (r : Registry (MethodType El σ)) : Action o → Prop
  | .arrive _ objectId body => ∀ streamId, Performs mp r streamId objectId body
  | _ => True

/-- The runs, one after another, lead from the objects `w` to `w'` with these results. -/
def Replays (mp : Codec τ El) : Objects El σ → List (Run El σ) → Objects El σ → Prop
  | w, [], w' => w = w'
  | w, run :: rest, w' => ∃ u, invoke mp run.method run.request.unpacked w =
      (u, some run.result) ∧ Replays mp u rest w'

theorem replays_snoc {mp : Codec τ El} {w u v : Objects El σ} {ran : List (Run El σ)}
    {run : Run El σ} (h : Replays mp w ran u)
    (hrun : invoke mp run.method run.request.unpacked u = (v, some run.result)) :
    Replays mp w (ran ++ [run]) v := by
  induction ran generalizing w with
  | nil => cases h; exact ⟨v, hrun, rfl⟩
  | cons first rest ih =>
    obtain ⟨x, hx, hrest⟩ := h
    exact ⟨x, hx, ih hrest⟩

/-- The runs lead to the objects, unless a handler that throws has ended the process. -/
def Replayed (mp : Codec τ El) (w : Objects El σ) (s : State El σ o) : Prop :=
  ∃ w', Replays mp w s.ran w' ∧ (s.terminated = none → w' = s.objects)

theorem replayed_call {mp : Codec τ El} {w : Objects El σ} {s u : State El σ o} {t : Thread o}
    (halive : s.terminated = none) (h : Replayed mp w s) (hs : callMethod mp s t = some u) :
    Replayed mp w u := by
  obtain ⟨w', hrep, hobj⟩ := h
  obtain rfl := hobj halive
  obtain ⟨ticket, request, method, _, ⟨v, rfl, _⟩ | ⟨b, v, result, _, hinv, rfl⟩⟩ :=
    callMethod_cases hs
  · exact ⟨s.objects, hrep, fun hdead => by cases hdead⟩
  · exact ⟨v, replays_snoc hrep hinv, fun _ => rfl⟩

/-- This needs nothing of the frames. -/
theorem replayed_step {mp : Codec τ El} {w : Objects El σ} {s t : State El σ o} {a : Action o}
    (h : Replayed mp w s) (hs : step mp s a = some t) : Replayed mp w t := by
  obtain ⟨halive, hact⟩ := step_cases hs
  have hadd := added_step hs
  have hkeep : ∀ {frames writes}, Added s t frames [] writes → Replayed mp w t := by
    intro frames writes hadd
    obtain ⟨w', hrep, hobj⟩ := h
    rw [Replayed, hadd.ran, List.append_nil, hadd.objects]
    exact ⟨w', hrep, fun _ => hobj halive⟩
  cases a with
  | call u => exact replayed_call halive h hact
  | arrive k objectId body => obtain ⟨stream, _, hadd⟩ := hadd; exact hkeep hadd
  | write n => obtain ⟨ticket, response, k, _, hadd⟩ := hadd; exact hkeep hadd
  | _ => exact hkeep hadd

def SoundJob (r : Registry (MethodType El σ)) : Job El σ → Prop
  | .bound _ request method => method = r.registeredMethods request.methodName
  | _ => True

structure Sound (mp : Codec τ El) (r : Registry (MethodType El σ)) (w : Objects El σ)
    (s : State El σ o) : Prop where
  alive : s.terminated = none
  methods : s.registeredMethods = fun m => (r.registeredMethods m).map some
  frames : ∀ f ∈ s.arrived, Performs mp r f.streamId f.objectId f.body
  jobs : ∀ t, SoundJob r (s.jobs t)
  ran : ∀ run ∈ s.ran, r.registeredMethods run.request.methodName = some run.method
  replays : Replays mp w s.ran s.objects

theorem Sound.job {mp : Codec τ El} {r : Registry (MethodType El σ)} {w : Objects El σ}
    {s : State El σ o} (h : Sound mp r w s) {t : Thread o} {job : Job El σ}
    (hj : s.jobs t = job) : SoundJob r job := hj ▸ h.jobs t

theorem origin_append {arrived : List Frame} {ticket k : Nat} (h : Origin arrived ticket k)
    (f : Frame) : Origin (arrived ++ [f]) ticket k := by
  obtain ⟨g, hg, hk⟩ := h
  exact ⟨g, get_append hg _, hk⟩

theorem routedWriter_append {arrived : List Frame} {job : WriteJob}
    (h : RoutedWriter arrived job) (f : Frame) : RoutedWriter (arrived ++ [f]) job := by
  cases job with
  | found ticket response k => exact origin_append h f
  | _ => trivial

/-- The stream id of a response leads to the connection of its frame. -/
theorem streams_of_run {mp : Codec τ El} {s : State El σ o} (ht : Traced mp s) (h : Routed s)
    {ticket : Nat} {response : DousiResponse} (hr : FromRun s.ran ticket response) :
    ∃ f, s.arrived[ticket]? = some f ∧ response.objectId = f.objectId ∧
      s.acceptor.streams response.streamId = some f.connection := by
  obtain ⟨run, hrun, rfl, rfl⟩ := hr
  obtain ⟨f, hf, hdec⟩ := ht.ran run hrun
  obtain ⟨hs, ho⟩ := invokeMethod_ids hdec
  obtain ⟨hstarted, hid⟩ := h.frames f (List.mem_of_getElem? hf)
  refine ⟨f, hf, ho, ?_⟩
  change s.acceptor.streams run.request.streamId = _
  rw [hs, hid]
  exact h.routes.streams _ hstarted

theorem routed_loop (r : Registry (MethodType El σ)) (w : Objects El σ) :
    Routed (loop o r w) :=
  ⟨Accept.routes_loop o.io_pos, by simp [loop], fun _ => trivial, by simp [loop]⟩

/-- Only the steps of the acceptor need stream ids. -/
theorem routed_step {mp : Codec τ El} {s t : State El σ o} {a : Action o} (ht : Traced mp s)
    (h : Routed s) (hc : Few s a) (hs : step mp s a = some t) : Routed t := by
  obtain ⟨_, hs⟩ := step_cases hs
  cases a with
  | accept action =>
    obtain ⟨acceptor, ha, rfl⟩ := Option.map_eq_some_iff.mp hs
    refine ⟨Accept.routes_step h.routes hc ha, fun f hf => ?_, h.writers, h.written⟩
    obtain ⟨hstarted, hid⟩ := h.frames f hf
    exact ⟨Accept.started_step hstarted ha, hid⟩
  | arrive k objectId body =>
    obtain ⟨stream, hk, hread, _, rfl⟩ := arrive_cases hs
    refine ⟨h.routes, fun f hf => ?_, fun n => routedWriter_append (h.writers n) _,
      fun e he => origin_append (h.written e he) _⟩
    rcases List.mem_append.mp hf with hold | hnew
    · exact h.frames f hold
    · rw [List.mem_singleton.mp hnew]
      exact ⟨h.routes.reading k stream hk hread, h.routes.ids k stream hk⟩
  | invoke i =>
    obtain ⟨ticket, frame, hj, ⟨_, rfl⟩ | ⟨request, hr, ⟨_, rfl⟩ | ⟨_, rfl⟩⟩⟩ :=
      invokeMethodOn_cases hs
    all_goals exact ⟨h.routes, h.frames, h.writers, h.written⟩
  | pop j =>
    obtain ⟨ticket, request, rest, _, _, rfl⟩ := pop_cases hs
    exact ⟨h.routes, h.frames, h.writers, h.written⟩
  | lookup t =>
    obtain ⟨ticket, request, _, rfl⟩ := lookupMethod_cases hs
    exact ⟨h.routes, h.frames, h.writers, h.written⟩
  | call t =>
    obtain ⟨ticket, request, method, _, ⟨w, rfl, _⟩ | ⟨b, w, result, _, _, rfl⟩⟩ :=
      callMethod_cases hs
    all_goals exact ⟨h.routes, h.frames, h.writers, h.written⟩
  | respond t =>
    obtain ⟨ticket, request, result, _, rfl⟩ := respond_cases hs
    exact ⟨h.routes, h.frames, h.writers, h.written⟩
  | take n =>
    obtain ⟨ticket, response, rest, _, _, rfl⟩ := take_cases hs
    exact ⟨h.routes, h.frames, forall_update h.writers _ trivial, h.written⟩
  | find n =>
    obtain ⟨ticket, response, hn, ⟨_, rfl⟩ | ⟨k, hk, rfl⟩⟩ := find_cases hs
    · exact ⟨h.routes, h.frames, h.writers, h.written⟩
    · have hrun : FromRun s.ran ticket response := ht.writer hn
      obtain ⟨f, hf, _, hstream⟩ := streams_of_run ht h hrun
      have hfk : f.connection = k := Option.some.inj (hstream.symm.trans hk)
      exact ⟨h.routes, h.frames, forall_update h.writers _ ⟨f, hf, hfk⟩, h.written⟩
  | write n =>
    obtain ⟨ticket, response, k, hn, rfl⟩ := write_cases hs
    have horigin : RoutedWriter s.arrived (.found ticket response k) := hn ▸ h.writers n
    refine ⟨h.routes, h.frames, forall_update h.writers _ trivial, fun e he => ?_⟩
    rcases List.mem_append.mp he with hold | hnew
    · exact h.written e hold
    · rw [List.mem_singleton.mp hnew]
      exact horigin

theorem sound_loop (mp : Codec τ El) (r : Registry (MethodType El σ)) (w : Objects El σ) :
    Sound mp r w (loop o r w) :=
  ⟨rfl, rfl, by simp [loop], fun _ => trivial, by simp [loop], rfl⟩

/-- A request from a good frame finds its method. -/
theorem registered_of_frame {mp : Codec τ El} {r : Registry (MethodType El σ)}
    {w : Objects El σ} {s : State El σ o} (h : Sound mp r w s) {ticket : Nat}
    {request : DousiRequest} (hf : FromFrame mp s.arrived ticket request) :
    ∃ b, r.registeredMethods request.methodName = some b ∧
      ∀ w, (invoke mp b request.unpacked w).2 ≠ none := by
  obtain ⟨f, hget, hdec⟩ := hf
  obtain ⟨request', b, hdec', hb, hrun⟩ := h.frames f (List.mem_of_getElem? hget)
  obtain rfl := Option.some.inj (hdec.symm.trans hdec')
  exact ⟨b, hb, hrun⟩

theorem sound_lookup {mp : Codec τ El} {r : Registry (MethodType El σ)} {w : Objects El σ}
    {s u : State El σ o} {t : Thread o} (ht : Traced mp s) (h : Sound mp r w s)
    (hs : lookupMethod s t = some u) : Sound mp r w u := by
  obtain ⟨ticket, request, hj, rfl⟩ := lookupMethod_cases hs
  have hframe : FromFrame mp s.arrived ticket request := ht.job hj
  obtain ⟨b, hb, _⟩ := registered_of_frame h hframe
  have hmap : s.registeredMethods request.methodName = some (some b) := by
    rw [h.methods]
    simp only [hb, Option.map_some]
  -- the entry is there, so that `operator[]` changes nothing
  have hsame : Function.update s.registeredMethods request.methodName (some (some b)) =
      s.registeredMethods := by
    rw [← hmap]
    exact Function.update_eq_self ..
  refine ⟨h.alive, ?_, h.frames, forall_update h.jobs _ ?_, h.ran, h.replays⟩
  · simp only [hmap, Option.getD_some, hsame]
    exact h.methods
  · simp only [hmap, Option.getD_some, SoundJob, hb]

theorem sound_call {mp : Codec τ El} {r : Registry (MethodType El σ)} {w : Objects El σ}
    {s u : State El σ o} {t : Thread o} (ht : Traced mp s) (h : Sound mp r w s)
    (hs : callMethod mp s t = some u) : Sound mp r w u := by
  obtain ⟨ticket, request, method, hj, hcase⟩ := callMethod_cases hs
  have hframe : FromFrame mp s.arrived ticket request := ht.job hj
  have hmethod : method = r.registeredMethods request.methodName := h.job hj
  obtain ⟨b, hb, hrun⟩ := registered_of_frame h hframe
  rw [hb] at hmethod
  rcases hcase with ⟨w', rfl, hthrow⟩ | ⟨b', w', result, hb', hinv, rfl⟩
  · exact absurd (congrArg Prod.snd (hthrow b hmethod)) (hrun _)
  · obtain rfl : b = b' := Option.some.inj (hmethod.symm.trans hb')
    refine ⟨h.alive, h.methods, h.frames, forall_update h.jobs _ trivial, fun run hmem => ?_,
      replays_snoc h.replays hinv⟩
    rcases List.mem_append.mp hmem with hold | hnew
    · exact h.ran run hold
    · rw [List.mem_singleton.mp hnew]
      exact hb

theorem sound_step {mp : Codec τ El} {r : Registry (MethodType El σ)} {w : Objects El σ}
    {s t : State El σ o} {a : Action o} (ht : Traced mp s) (hr : Routed s) (h : Sound mp r w s)
    (hc : Good mp r a) (hs : step mp s a = some t) : Sound mp r w t := by
  obtain ⟨_, hs⟩ := step_cases hs
  cases a with
  | accept action =>
    obtain ⟨acceptor, _, rfl⟩ := Option.map_eq_some_iff.mp hs
    exact ⟨h.alive, h.methods, h.frames, h.jobs, h.ran, h.replays⟩
  | arrive k objectId body =>
    obtain ⟨stream, _, _, _, rfl⟩ := arrive_cases hs
    refine ⟨h.alive, h.methods, fun f hf => ?_, forall_update h.jobs _ trivial, h.ran, h.replays⟩
    rcases List.mem_append.mp hf with hold | hnew
    · exact h.frames f hold
    · rw [List.mem_singleton.mp hnew]
      exact hc stream.streamId
  | invoke i =>
    obtain ⟨ticket, frame, hj, hcase⟩ := invokeMethodOn_cases hs
    have hframe : s.arrived[ticket]? = some frame := ht.job hj
    obtain ⟨request', _, hdec, _⟩ := h.frames frame (List.mem_of_getElem? hframe)
    rcases hcase with ⟨hnone, rfl⟩ | ⟨request, hr, ⟨_, rfl⟩ | ⟨_, rfl⟩⟩
    · rw [hdec] at hnone
      cases hnone
    · exact ⟨h.alive, h.methods, h.frames, forall_update h.jobs _ trivial, h.ran, h.replays⟩
    · exact ⟨h.alive, h.methods, h.frames, forall_update h.jobs _ trivial, h.ran, h.replays⟩
  | pop j =>
    obtain ⟨ticket, request, rest, _, _, rfl⟩ := pop_cases hs
    exact ⟨h.alive, h.methods, h.frames, forall_update h.jobs _ trivial, h.ran, h.replays⟩
  | lookup t => exact sound_lookup ht h hs
  | call t => exact sound_call ht h hs
  | respond t =>
    obtain ⟨ticket, request, result, _, rfl⟩ := respond_cases hs
    exact ⟨h.alive, h.methods, h.frames, forall_update h.jobs _ trivial, h.ran, h.replays⟩
  | take n =>
    obtain ⟨ticket, response, rest, _, _, rfl⟩ := take_cases hs
    exact ⟨h.alive, h.methods, h.frames, h.jobs, h.ran, h.replays⟩
  | find n =>
    obtain ⟨ticket, response, hn, ⟨hnone, rfl⟩ | ⟨k, _, rfl⟩⟩ := find_cases hs
    · have hrun : FromRun s.ran ticket response := ht.writer hn
      obtain ⟨f, _, _, hstream⟩ := streams_of_run ht hr hrun
      rw [hnone] at hstream
      cases hstream
    · exact ⟨h.alive, h.methods, h.frames, h.jobs, h.ran, h.replays⟩
  | write n =>
    obtain ⟨ticket, response, k, _, rfl⟩ := write_cases hs
    exact ⟨h.alive, h.methods, h.frames, h.jobs, h.ran, h.replays⟩

end Dousi.Executor.Routing
