import Dousi.Client.Calls

/-!
# A client whose read loop has stopped

The completion handlers of the reads only log an error and return, and `GetObject`
looks at nothing but the map. No step after the end of the read loop stores anything.
-/
namespace Dousi.Client.DeadConnection

open Dousi.Lib.Word
open Dousi.Lib.Log
open Dousi.Lib.Transition
open Dousi.Stream.AsioStream
open Calls

/-- The read loop has ended with an error and no response can arrive. -/
def Stopped (s : Submitter) : Prop := s.loop.stage = .stopped

instance (s : Submitter) : Decidable (Stopped s) := inferInstanceAs (Decidable (_ = _))

/-- `Get` on the future of call `c` returns or throws. -/
def Settled (s : Submitter) (c : Nat) : Prop :=
  ∃ call, s.calls[c]? = some call ∧ call.get s ≠ .waits

/-- `GetObject` waits for an id that no further step can store. -/
def Stranded (order : ByteOrder) (s : Submitter) (c : Nat) : Prop :=
  (∃ call, s.calls[c]? = some call) ∧ ∀ t, Reach (step order) Any s t → ¬ Settled t c

theorem received_stopped {s : Submitter} (h : Stopped s) (order : ByteOrder) (b : UInt8) :
    (delivered s.loop (s.loop.receive order b)).foldl onResponse
      { s with loop := s.loop.receive order b } = s := by
  have hloop : s.loop.receive order b = s.loop := by
    have hstop : s.loop.stage = .stopped := h
    rw [ReadLoop.receive, if_pos hstop]
  simp [hloop, delivered]

theorem getObject_congr {s t : Submitter} (h : t.cachedObjects = s.cachedObjects)
    (objectId : UInt64) (decodes : Bytes → Bool) :
    getObject t objectId decodes = getObject s objectId decodes := by
  rw [getObject, h]
  rfl

/-- `Get` waits for a response that is neither in the future nor in the map. -/
theorem get_waits_iff (s : Submitter) (call : Call) :
    call.get s = .waits ↔ call.data = none ∧ s.cachedObjects call.objectId = none := by
  cases hdata : call.data with
  | some data => simp [Call.get, hdata]
  | none =>
    cases hbytes : s.cachedObjects call.objectId with
    | none => simp [Call.get, hdata, getObject, hbytes]
    | some bytes => cases hd : call.decodes bytes <;> simp [Call.get, hdata, getObject, hbytes, hd]

/-- A `Get` leaves behind what the next one does. -/
theorem get_get (s : Submitter) (call : Call) :
    ({ call with data := (call.get s).data } : Call).get s = call.get s := by
  cases hdata : call.data with
  | some data => simp [Call.get, hdata, Got.data]
  | none =>
    cases hgot : getObject s call.objectId call.decodes <;>
      simp [Call.get, hdata, hgot, Got.data]

/-- A step keeps the id and the type of a call and what `Get` on its future does. -/
theorem call_step {order : ByteOrder} {s t : Submitter} {a : Action} (h : Stopped s)
    (hs : step order s a = some t) {c : Nat} {call : Call} (hc : s.calls[c]? = some call) :
    ∃ call', t.calls[c]? = some call' ∧ call'.objectId = call.objectId ∧
      call'.decodes = call.decodes ∧ call'.get t = call.get s := by
  cases step_moves hs with
  | requestObjectID buffer decodes => exact ⟨call, get_append hc _, rfl, rfl, rfl⟩
  | @submit j =>
    refine ⟨if j = c then { call with submitted := true } else call, ?_, ?_, ?_, ?_⟩
    · rw [setCall_get, hc]
      rfl
    · split <;> rfl
    · split <;> rfl
    · split <;> rfl
  | receive b =>
    rw [received_stopped h]
    exact ⟨call, hc, rfl, rfl, rfl⟩
  | readError => exact ⟨call, hc, rfl, rfl, rfl⟩
  | writeError => exact ⟨call, hc, rfl, rfl, rfl⟩
  | get j =>
    refine ⟨if j = c then { call with data := (call.get s).data } else call, ?_, ?_, ?_, ?_⟩
    · rw [setCall_get, hc]
      rfl
    · split <;> rfl
    · split <;> rfl
    · split
      · exact get_get s call
      · rfl

theorem stopped_step {order : ByteOrder} {s t : Submitter} {a : Action} (h : Stopped s)
    (hs : step order s a = some t) :
    Stopped t ∧ t.cachedObjects = s.cachedObjects := by
  cases step_moves hs with
  | requestObjectID buffer decodes => exact ⟨h, rfl⟩
  | submit _ _ => exact ⟨h, rfl⟩
  | receive b =>
    rw [received_stopped h]
    exact ⟨h, rfl⟩
  | readError => exact ⟨rfl, rfl⟩
  | writeError => exact ⟨h, rfl⟩
  | get j => exact ⟨h, rfl⟩

/-- A call made after the end of the read loop looks for its response in the map. -/
theorem new_call_step {order : ByteOrder} {s t : Submitter} {a : Action} (h : Stopped s)
    (hs : step order s a = some t) {c : Nat} {call : Call} (hc : t.calls[c]? = some call)
    (hnew : s.calls[c]? = none) : call.get t = getObject t call.objectId call.decodes := by
  cases step_moves hs with
  | requestObjectID buffer decodes =>
    rcases get_snoc hc with hold | ⟨_, rfl⟩
    · rw [hnew] at hold
      cases hold
    · rfl
  | submit _ _ =>
    rw [setCall_get, hnew] at hc
    cases hc
  | receive b =>
    rw [received_stopped h, hnew] at hc
    cases hc
  | readError => rw [hnew] at hc; cases hc
  | writeError => rw [hnew] at hc; cases hc
  | get j =>
    rw [setCall_get, hnew] at hc
    cases hc

/-- Some time after the read loop has stopped: the map is as it was, `Get` on a future
made before does what it did, and on one made since what the map as it was makes it do. -/
structure Frozen (s t : Submitter) : Prop where
  stopped : Stopped t
  cached : t.cachedObjects = s.cachedObjects
  old : ∀ (c : Nat) (call : Call), s.calls[c]? = some call →
    ∃ call', t.calls[c]? = some call' ∧ call'.get t = call.get s
  new : ∀ (c : Nat) (call : Call), s.calls[c]? = none → t.calls[c]? = some call →
    call.get t = getObject s call.objectId call.decodes

theorem frozen_refl {s : Submitter} (h : Stopped s) : Frozen s s :=
  ⟨h, rfl, fun _ call hc => ⟨call, hc, rfl⟩, fun c call hn hc => by rw [hn] at hc; cases hc⟩

theorem frozen_step {order : ByteOrder} {s t u : Submitter} {a : Action} (h : Frozen s t)
    (hs : step order t a = some u) : Frozen s u := by
  obtain ⟨hstop, hcached⟩ := stopped_step h.stopped hs
  refine ⟨hstop, hcached.trans h.cached, fun c call hc => ?_, fun c call hn hc => ?_⟩
  · obtain ⟨call', hc', hget⟩ := h.old c call hc
    obtain ⟨call'', hc'', _, _, hget'⟩ := call_step h.stopped hs hc'
    exact ⟨call'', hc'', hget'.trans hget⟩
  · cases ht : t.calls[c]? with
    | none => rw [new_call_step h.stopped hs hc ht, getObject_congr (hcached.trans h.cached)]
    | some call' =>
      obtain ⟨call'', hc'', hid, hdecodes, hget⟩ := call_step h.stopped hs ht
      obtain rfl : call'' = call := Option.some.inj (hc''.symm.trans hc)
      rw [hget, h.new c call' hn ht, hid, hdecodes]

theorem frozen_of_reach {order : ByteOrder} {s t : Submitter} (h : Stopped s)
    (ht : Reach (step order) Any s t) : Frozen s t :=
  ht.invariant (frozen_refl h) fun _ _ _ hi _ hs => frozen_step hi hs

theorem stranded_of_waits {order : ByteOrder} {s : Submitter} (h : Stopped s) {c : Nat}
    {call : Call} (hc : s.calls[c]? = some call) (hwaits : call.get s = .waits) :
    Stranded order s c := by
  refine ⟨⟨call, hc⟩, fun t ht hsettled => ?_⟩
  obtain ⟨call', hc', hdone⟩ := hsettled
  obtain ⟨call'', hc'', hget⟩ := (frozen_of_reach h ht).old c call hc
  obtain rfl : call' = call'' := Option.some.inj (hc'.symm.trans hc'')
  exact hdone (hget.trans hwaits)

/-- From any state of a client in which the read loop has stopped: the map never
changes again, and `Get` goes on to return or to throw what it did then. The calls for
which it finds nothing then are stranded, and no others; no failure is reported. -/
theorem stopped_for_ever {order : ByteOrder} {s : Submitter} (h : Stopped s) :
    (∀ t, Reach (step order) Any s t → Frozen s t) ∧
      ∀ (c : Nat) (call : Call), s.calls[c]? = some call →
        (Stranded order s c ↔ call.data = none ∧ s.cachedObjects call.objectId = none) := by
  refine ⟨fun t ht => frozen_of_reach h ht, fun c call hc => ⟨fun hstr => ?_, fun hnone => ?_⟩⟩
  · have hwaits : call.get s = .waits := by
      by_contra hdone
      exact hstr.2 s .refl ⟨call, hc, hdone⟩
    exact (get_waits_iff s call).mp hwaits
  · exact stranded_of_waits h hc ((get_waits_iff s call).mpr hnone)

/-- Three calls: one is answered, one is answered without a result as a void method is, and
the response to the third ends after its first byte. -/
def cutOff : List Action :=
  [.requestObjectID [7] nonempty, .submit 0, .requestObjectID [8] nonempty, .submit 1,
    .requestObjectID [9] nonempty, .submit 2] ++
  [0, 0, 0, 0, 1, 0, 0, 0, 5, 1, 0, 0, 0, 0, 0, 0, 0, 2].map .receive ++ [.readError]

/-- `Get` on the future of the third call waits for a response that nothing can store. -/
theorem cutOff_stranded : ∃ s, run (step .little) (init .cpp) cutOff = some s ∧
    Reach (step .little) Any (init .cpp) s ∧ Stopped s ∧
    s.calls = [⟨0, [7], nonempty, true, none⟩, ⟨1, [8], nonempty, true, none⟩,
      ⟨2, [9], nonempty, true, none⟩] ∧
    s.calls.map (fun call => call.get s) = [.returns [5], .throws, .waits] ∧
    Stranded .little s 2 := by
  obtain ⟨s, hs, hstop, hcalls, hgot⟩ : ∃ s, run (step .little) (init .cpp) cutOff = some s ∧
      Stopped s ∧ s.calls = [⟨0, [7], nonempty, true, none⟩, ⟨1, [8], nonempty, true, none⟩,
        ⟨2, [9], nonempty, true, none⟩] ∧
      s.calls.map (fun call => call.get s) = [.returns [5], .throws, .waits] :=
    ⟨_, rfl, rfl, rfl, rfl⟩
  have hcall : s.calls[2]? = some ⟨2, [9], nonempty, true, none⟩ := by rw [hcalls]; rfl
  have hwaits : (Call.mk 2 [9] nonempty true none).get s = .waits := by
    rw [hcalls] at hgot
    exact (List.cons.inj (List.cons.inj (List.cons.inj hgot).2).2).1
  exact ⟨s, hs, Reach.of_run hs, hstop, hcalls, hgot, stranded_of_waits hstop hcall hwaits⟩

theorem stopped_for_ever_cutOff : ∃ s, run (step .little) (init .cpp) cutOff = some s ∧
    (∀ t, Reach (step .little) Any s t → Frozen s t) ∧
      ∀ (c : Nat) (call : Call), s.calls[c]? = some call →
        (Stranded .little s c ↔ call.data = none ∧ s.cachedObjects call.objectId = none) := by
  obtain ⟨s, hs, hstop⟩ : ∃ s, run (step .little) (init .cpp) cutOff = some s ∧ Stopped s :=
    ⟨_, rfl, rfl⟩
  exact ⟨s, hs, stopped_for_ever hstop⟩

end Dousi.Client.DeadConnection
