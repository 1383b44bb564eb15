import Dousi.Lib.Log
import Dousi.Lib.Transition
import Dousi.Stream.RoundTrip
import Mathlib.Logic.Function.Basic

/-!
# The Submitter with its connection and its futures

A call takes an id from the 64-bit counter and hands it to `Write`, whose parameter
has 32 bits; the response comes back under the 32-bit id and is stored under it in
a map with 64-bit keys. `receive` is one byte for the read loop of the connection.
What `msgpack::unpack` and `as<T>` make of the bytes depends on the `T` of the future: of
the object only the bytes it was decoded from are kept, and a call says which bytes decode.
-/
namespace Dousi.Client.Calls

open Dousi.Lib.Word
open Dousi.Lib.Log
open Dousi.Lib.Transition
open Dousi.Stream.AsioStream
open Dousi.Stream.RoundTrip

inductive ClientLanguage where
  | cpp
  | java
  deriving DecidableEq

/-- A call with the `DousiFuture` it returns: `objectId` is the id the future keeps,
`decodes` whether msgpack gives an object of its type, `data` what an earlier `Get` has left
in it. -/
structure Call where
  objectId : UInt64
  buffer : Bytes
  decodes : Bytes → Bool
  submitted : Bool
  data : Option Bytes

structure Submitter where
  clientLanguage : ClientLanguage
  currObjectId : UInt64
  cachedObjects : UInt64 → Option Bytes
  /-- the calls of `on_rpc_returned_callback_` -/
  callbacks : List (UInt32 × Bytes)
  loop : ReadLoop
  isOpen : Bool
  calls : List Call

inductive Action where
  | requestObjectID (buffer : Bytes) (decodes : Bytes → Bool)
  | submit (call : Nat)
  | receive (b : UInt8)
  | readError
  | writeError
  | get (call : Nat)

/-- A submitter after `Init`. -/
def init (language : ClientLanguage) : Submitter :=
  ⟨language, 0, fun _ => none, [], .start, true, []⟩

/-- `stream_->Write(object_id, buffer)`: the id is narrowed to `uint32_t`. -/
def message (call : Call) : Message := ⟨call.objectId.toUInt32, call.buffer⟩

/-- The callback given to the stream in `DoConnect`. -/
def onResponse (s : Submitter) (m : Message) : Submitter :=
  match s.clientLanguage with
  | .java => { s with callbacks := s.callbacks ++ [(m.objectId, m.data)] }
  | .cpp => { s with
      cachedObjects := Function.update s.cachedObjects m.objectId.toUInt64 (some m.data) }

/-- The messages that the read loop has delivered since it was `before`. -/
def delivered (before after : ReadLoop) : List Message :=
  after.delivered.drop before.delivered.length

/-- How a call of `GetObject` goes on: its round of the loop finds nothing and sleeps,
`unpack` or `as` throws, or it returns the object of these bytes. -/
inductive Got where
  | waits
  | throws
  | returns (data : Bytes)
  deriving DecidableEq

/-- One round of the loop in `GetObject`, and what follows the loop. -/
def getObject (s : Submitter) (objectId : UInt64) (decodes : Bytes → Bool) : Got :=
  match s.cachedObjects objectId with
  | none => .waits
  | some bytes => if decodes bytes then .returns bytes else .throws

/-- `DousiFuture::Get`. -/
def Call.get (call : Call) (s : Submitter) : Got :=
  match call.data with
  | some data => .returns data
  | none => getObject s call.objectId call.decodes

/-- Only a `Get` that returns sets `has_data_`. -/
def Got.data : Got → Option Bytes
  | .returns data => some data
  | .waits | .throws => none

/-- A type with an object for every string of bytes but the empty one. -/
def nonempty (bytes : Bytes) : Bool := !bytes.isEmpty

def setCall (s : Submitter) (c : Nat) (f : Call → Call) : Submitter :=
  { s with calls := s.calls.modify c f }

def step (order : ByteOrder) (s : Submitter) : Action → Option Submitter
  | .requestObjectID buffer decodes =>
    some { s with
      currObjectId := s.currObjectId + 1
      calls := s.calls ++ [⟨s.currObjectId, buffer, decodes, false, none⟩] }
  | .submit c =>
    match s.calls[c]? with
    | some ⟨_, _, _, false, _⟩ => some (setCall s c fun call => { call with submitted := true })
    | _ => none
  | .receive b =>
    let loop := s.loop.receive order b
    some ((delivered s.loop loop).foldl onResponse { s with loop })
  | .readError => some { s with loop := s.loop.fail }
  | .writeError => some { s with isOpen := false }
  | .get c => some (setCall s c fun call => { call with data := (call.get s).data })

/-- What a step can do. -/
inductive Moves (order : ByteOrder) (s : Submitter) : Action → Submitter → Prop
  | requestObjectID (buffer : Bytes) (decodes : Bytes → Bool) :
      Moves order s (.requestObjectID buffer decodes) { s with
      currObjectId := s.currObjectId + 1
      calls := s.calls ++ [⟨s.currObjectId, buffer, decodes, false, none⟩] }
  | submit {c : Nat} {call : Call} : s.calls[c]? = some call → call.submitted = false →
      Moves order s (.submit c) (setCall s c fun call => { call with submitted := true })
  | receive (b : UInt8) : Moves order s (.receive b)
      ((delivered s.loop (s.loop.receive order b)).foldl onResponse
        { s with loop := s.loop.receive order b })
  | readError : Moves order s .readError { s with loop := s.loop.fail }
  | writeError : Moves order s .writeError { s with isOpen := false }
  | get (c : Nat) :
      Moves order s (.get c) (setCall s c fun call => { call with data := (call.get s).data })

theorem step_moves {order : ByteOrder} {s t : Submitter} {a : Action}
    (hs : step order s a = some t) : Moves order s a t := by
  cases a with
  | requestObjectID buffer decodes =>
    obtain rfl := Option.some.inj hs
    exact .requestObjectID buffer decodes
  | submit c =>
    simp only [step] at hs
    split at hs
    · next hc =>
      obtain rfl := Option.some.inj hs
      exact .submit hc rfl
    · cases hs
  | receive b => obtain rfl := Option.some.inj hs; exact .receive b
  | readError => obtain rfl := Option.some.inj hs; exact .readError
  | writeError => obtain rfl := Option.some.inj hs; exact .writeError
  | get c => obtain rfl := Option.some.inj hs; exact .get c

/-- What a response does not touch, a list of responses does not touch. -/
theorem foldl_onResponse_keeps {β : Type} {f : Submitter → β}
    (hf : ∀ s m, f (onResponse s m) = f s) (s : Submitter) (ms : List Message) :
    f (ms.foldl onResponse s) = f s := by
  induction ms generalizing s with
  | nil => rfl
  | cons m rest ih => rw [List.foldl_cons, ih, hf]

theorem foldl_onResponse_loop (s : Submitter) (ms : List Message) :
    (ms.foldl onResponse s).loop = s.loop :=
  foldl_onResponse_keeps (f := Submitter.loop) (fun s m => by rw [onResponse]; split <;> rfl) s ms

theorem foldl_onResponse_calls (s : Submitter) (ms : List Message) :
    (ms.foldl onResponse s).calls = s.calls ∧
      (ms.foldl onResponse s).currObjectId = s.currObjectId :=
  ⟨foldl_onResponse_keeps (f := Submitter.calls)
      (fun s m => by rw [onResponse]; split <;> rfl) s ms,
    foldl_onResponse_keeps (f := Submitter.currObjectId)
      (fun s m => by rw [onResponse]; split <;> rfl) s ms⟩

theorem foldl_onResponse_language (s : Submitter) (ms : List Message) :
    (ms.foldl onResponse s).clientLanguage = s.clientLanguage :=
  foldl_onResponse_keeps (f := Submitter.clientLanguage)
    (fun s m => by rw [onResponse]; split <;> simp [*]) s ms

theorem foldl_onResponse_callbacks {s : Submitter} (h : s.clientLanguage = .java)
    (ms : List Message) : (ms.foldl onResponse s).callbacks =
      s.callbacks ++ ms.map fun m => (m.objectId, m.data) := by
  induction ms generalizing s with
  | nil => simp
  | cons m rest ih =>
    have hcall : onResponse s m =
        { s with callbacks := s.callbacks ++ [(m.objectId, m.data)] } := by
      rw [onResponse, h]
    rw [List.foldl_cons, ih (by rw [hcall]; exact h), hcall]
    simp

theorem setCall_get (s : Submitter) (c j : Nat) (f : Call → Call) :
    (setCall s c f).calls[j]? = (s.calls[j]?).map fun call => if c = j then f call else call := by
  simp [setCall, List.getElem?_modify]

/-- A Java client goes on calling back, and what was called back stays. -/
theorem callbacks_step {order : ByteOrder} {s t : Submitter} {a : Action}
    (h : s.clientLanguage = .java) (hs : step order s a = some t) :
    t.clientLanguage = .java ∧ ∃ more, t.callbacks = s.callbacks ++ more := by
  cases step_moves hs with
  | receive b =>
    refine ⟨(foldl_onResponse_language ..).trans h, _, foldl_onResponse_callbacks ?_ _⟩
    exact h
  | _ => exact ⟨h, [], (List.append_nil _).symm⟩

/-- The ids of the calls are the values of the counter, one after another. -/
structure Counted (s : Submitter) : Prop where
  counter : s.currObjectId = UInt64.ofNat s.calls.length
  ids : ∀ c call, s.calls[c]? = some call → call.objectId = UInt64.ofNat c

theorem counted_init (language : ClientLanguage) : Counted (init language) :=
  ⟨rfl, by simp [init]⟩

theorem counted_setCall {s : Submitter} (h : Counted s) (c : Nat) (f : Call → Call)
    (hf : ∀ call, (f call).objectId = call.objectId) : Counted (setCall s c f) := by
  refine ⟨by simpa [setCall] using h.counter, fun j call hj => ?_⟩
  rw [setCall_get, Option.map_eq_some_iff] at hj
  obtain ⟨old, hold, rfl⟩ := hj
  have hid : (if c = j then f old else old).objectId = old.objectId := by
    split
    · exact hf old
    · rfl
  exact hid.trans (h.ids j old hold)

theorem counted_step {order : ByteOrder} {s t : Submitter} {a : Action} (h : Counted s)
    (hs : step order s a = some t) : Counted t := by
  cases step_moves hs with
  | requestObjectID buffer decodes =>
    refine ⟨by simp [h.counter], fun c call hc => ?_⟩
    rcases get_snoc hc with hold | ⟨rfl, rfl⟩
    · exact h.ids c call hold
    · exact h.counter
  | submit _ _ => exact counted_setCall h _ _ fun _ => rfl
  | receive b =>
    obtain ⟨hc, hi⟩ := foldl_onResponse_calls { s with loop := s.loop.receive order b }
      (delivered s.loop (s.loop.receive order b))
    exact ⟨by rw [hc, hi]; exact h.counter, by rw [hc]; exact h.ids⟩
  | readError => exact ⟨h.counter, h.ids⟩
  | writeError => exact ⟨h.counter, h.ids⟩
  | get c => exact counted_setCall h c _ fun _ => rfl

theorem counted_of_reach {order : ByteOrder} {language : ClientLanguage} {s : Submitter}
    (h : Reach (step order) Any (init language) s) : Counted s :=
  h.invariant (counted_init language) fun _ _ _ hi _ hs => counted_step hi hs

/-- The message that call `c` has given to `Write`. -/
def submittedMessage (s : Submitter) (c : Nat) : Option Message :=
  (s.calls[c]?).bind fun call => if call.submitted then some (message call) else none

theorem submittedMessage_setCall (s : Submitter) (c : Nat) {f : Call → Call}
    (hs : ∀ call, (f call).submitted = call.submitted)
    (hm : ∀ call, message (f call) = message call) :
    submittedMessage (setCall s c f) = submittedMessage s := by
  funext j
  rw [submittedMessage, setCall_get, submittedMessage]
  cases s.calls[j]? with
  | none => rfl
  | some call =>
    simp only [Option.map_some, Option.bind_some]
    split
    · rw [hs, hm]
    · rfl

theorem submittedMessage_submit {s : Submitter} {c : Nat} {call : Call}
    (hc : s.calls[c]? = some call) :
    submittedMessage (setCall s c fun call => { call with submitted := true }) =
      Function.update (submittedMessage s) c (some (message call)) := by
  funext j
  rw [submittedMessage, setCall_get]
  by_cases hj : c = j
  · subst hj
    rw [hc, Function.update_self]
    simp [message]
  · rw [Function.update_of_ne (Ne.symm hj), submittedMessage]
    simp [hj]

/-- A call is submitted once, and nothing else changes what was submitted. -/
theorem submitted_step {order : ByteOrder} {s t : Submitter} {a : Action}
    (hs : step order s a = some t) :
    match a with
    | .submit c => ∃ call, s.calls[c]? = some call ∧ submittedMessage s c = none ∧
        submittedMessage t = Function.update (submittedMessage s) c (some (message call))
    | _ => submittedMessage t = submittedMessage s := by
  cases step_moves hs with
  | requestObjectID buffer decodes =>
    funext c
    rw [submittedMessage, submittedMessage, List.getElem?_append]
    split
    · rfl
    · rename_i hlt
      rw [List.getElem?_eq_none (Nat.le_of_not_lt hlt)]
      cases c - s.calls.length <;> rfl
  | submit hc hnew =>
    exact ⟨_, hc, by simp [submittedMessage, hc, hnew], submittedMessage_submit hc⟩
  | receive b =>
    funext c
    rw [submittedMessage, (foldl_onResponse_calls ..).1]
    rfl
  | readError => rfl
  | writeError => rfl
  | get c => exact submittedMessage_setCall s c (fun _ => rfl) fun _ => rfl

/-- Only `RequestObjectID` adds a call. -/
theorem calls_length_step {order : ByteOrder} {s t : Submitter} {a : Action}
    (hs : step order s a = some t) :
    t.calls.length = s.calls.length ∨
      ∃ buffer decodes, a = .requestObjectID buffer decodes ∧
        t.calls.length = s.calls.length + 1 := by
  cases step_moves hs with
  | requestObjectID buffer decodes =>
    exact .inr ⟨buffer, decodes, rfl, by simp⟩
  | submit _ _ => exact .inl (by simp [setCall])
  | receive b =>
    exact .inl (congrArg List.length (foldl_onResponse_calls ..).1)
  | readError => exact .inl rfl
  | writeError => exact .inl rfl
  | get c => exact .inl (by simp [setCall])

/-- All calls were made with buffers of a kind. -/
def Buffers (P : Bytes → Prop) (s : Submitter) : Prop := ∀ call ∈ s.calls, P call.buffer

theorem buffers_setCall {P : Bytes → Prop} {s : Submitter} (h : Buffers P s) (c : Nat)
    {f : Call → Call} (hf : ∀ call, (f call).buffer = call.buffer) :
    Buffers P (setCall s c f) := by
  intro call hmem
  obtain ⟨j, hj⟩ := List.mem_iff_getElem?.mp hmem
  rw [setCall_get, Option.map_eq_some_iff] at hj
  obtain ⟨old, hold, rfl⟩ := hj
  split
  · rw [hf]
    exact h old (List.mem_of_getElem? hold)
  · exact h old (List.mem_of_getElem? hold)

/-- Only a new call can break what holds of all buffers. -/
theorem buffers_step {order : ByteOrder} {P : Bytes → Prop} {s t : Submitter} {a : Action}
    (h : Buffers P s) (hP : ∀ buffer decodes, a = .requestObjectID buffer decodes → P buffer)
    (hs : step order s a = some t) : Buffers P t := by
  cases step_moves hs with
  | requestObjectID buffer decodes =>
    intro call hmem
    rcases List.mem_append.mp hmem with hold | hnew
    · exact h call hold
    · rw [List.mem_singleton.mp hnew]
      exact hP buffer decodes rfl
  | submit _ _ => exact buffers_setCall h _ fun _ => rfl
  | receive b =>
    intro call hmem
    rw [(foldl_onResponse_calls ..).1] at hmem
    exact h call hmem
  | readError => exact h
  | writeError => exact h
  | get c => exact buffers_setCall h c fun _ => rfl

/-- What is stored came in a response under the id it is stored under. -/
def Stored (s : Submitter) : Prop :=
  ∀ key data, s.cachedObjects key = some data →
    ∃ m ∈ s.loop.delivered, m.objectId.toUInt64 = key ∧ m.data = data

theorem foldl_onResponse_stored {s : Submitter} {ms : List Message} {key : UInt64} {data : Bytes}
    (h : (ms.foldl onResponse s).cachedObjects key = some data) :
    s.cachedObjects key = some data ∨ ∃ m ∈ ms, m.objectId.toUInt64 = key ∧ m.data = data := by
  induction ms generalizing s with
  | nil => exact .inl h
  | cons m rest ih =>
    rcases ih h with hm | ⟨m', hmem, hm'⟩
    · unfold onResponse at hm
      split at hm
      · exact .inl hm
      · by_cases hk : key = m.objectId.toUInt64
        · subst hk
          simp only [Function.update_self] at hm
          exact .inr ⟨m, List.mem_cons_self, rfl, Option.some.inj hm⟩
        · simp only [Function.update_of_ne hk] at hm
          exact .inl hm
    · exact .inr ⟨m', List.mem_cons_of_mem _ hmem, hm'⟩

/-- Only a byte and a read error change the read loop. -/
theorem loop_step {order : ByteOrder} {s t : Submitter} {a : Action}
    (hs : step order s a = some t) :
    match a with
    | .receive b => t.loop = s.loop.receive order b
    | .readError => t.loop = s.loop.fail
    | _ => t.loop = s.loop := by
  cases step_moves hs with
  | requestObjectID buffer decodes => rfl
  | submit _ _ => rfl
  | receive b => exact foldl_onResponse_loop ..
  | readError => rfl
  | writeError => rfl
  | get c => rfl

/-- What the read loop has delivered is kept. -/
theorem delivered_receive (order : ByteOrder) (l : ReadLoop) (b : UInt8) :
    (l.receive order b).delivered = l.delivered ++ delivered l (l.receive order b) := by
  rcases ReadLoop.receive_delivered order l b with h | ⟨m, h⟩
  · simp [delivered, h]
  · simp [delivered, h]

theorem stored_init (language : ClientLanguage) : Stored (init language) := by
  simp [Stored, init]

theorem stored_step {order : ByteOrder} {s t : Submitter} {a : Action} (h : Stored s)
    (hs : step order s a = some t) : Stored t := by
  cases step_moves hs with
  | requestObjectID buffer decodes => exact h
  | submit _ _ => exact h
  | receive b =>
    intro key data hkey
    rw [foldl_onResponse_loop]
    simp only [delivered_receive]
    rcases foldl_onResponse_stored hkey with hold | ⟨m, hmem, hm⟩
    · obtain ⟨m, hmem, hm⟩ := h key data hold
      exact ⟨m, List.mem_append_left _ hmem, hm⟩
    · exact ⟨m, List.mem_append_right _ hmem, hm⟩
  | readError => exact h
  | writeError => exact h
  | get c => exact h

/-- What was delivered to a C++ client is stored. -/
def Kept (s : Submitter) : Prop :=
  s.clientLanguage = .cpp →
    ∀ m ∈ s.loop.delivered, (s.cachedObjects m.objectId.toUInt64).isSome

theorem kept_init (language : ClientLanguage) : Kept (init language) := by
  simp [Kept, init, ReadLoop.start, ReadLoop.doReadObjectID]

theorem foldl_onResponse_kept {s : Submitter} (h : s.clientLanguage = .cpp) (ms : List Message)
    (key : UInt64) (hkey : (s.cachedObjects key).isSome ∨ ∃ m ∈ ms, m.objectId.toUInt64 = key) :
    ((ms.foldl onResponse s).cachedObjects key).isSome := by
  induction ms generalizing s with
  | nil =>
    rcases hkey with hkey | ⟨m, hm, _⟩
    · exact hkey
    · cases hm
  | cons m rest ih =>
    have hstore : onResponse s m = { s with
        cachedObjects := Function.update s.cachedObjects m.objectId.toUInt64 (some m.data) } := by
      rw [onResponse, h]
    rw [List.foldl_cons]
    refine ih (by rw [hstore]; exact h) ?_
    by_cases hk : key = m.objectId.toUInt64
    · subst hk
      exact .inl (by rw [hstore]; simp only [Function.update_self, Option.isSome_some])
    · rcases hkey with hkey | ⟨m', hm', hk'⟩
      · refine .inl ?_
        rw [hstore]
        simp only [Function.update_of_ne hk]
        exact hkey
      · rcases List.mem_cons.mp hm' with rfl | hm'
        · exact absurd hk'.symm hk
        · exact .inr ⟨m', hm', hk'⟩

theorem kept_step {order : ByteOrder} {s t : Submitter} {a : Action} (h : Kept s)
    (hs : step order s a = some t) : Kept t := by
  cases step_moves hs with
  | requestObjectID buffer decodes => exact h
  | submit _ _ => exact h
  | receive b =>
    intro hlang m hm
    rw [foldl_onResponse_language] at hlang
    rw [foldl_onResponse_loop] at hm
    simp only [delivered_receive] at hm
    refine foldl_onResponse_kept hlang _ _ ?_
    rcases List.mem_append.mp hm with hm | hm
    · exact .inl (h hlang m hm)
    · exact .inr ⟨m, hm, rfl⟩
  | readError => exact h
  | writeError => exact h
  | get c => exact h

/-- A Java client has been called back for every response. -/
def Called (s : Submitter) : Prop :=
  s.clientLanguage = .java → s.callbacks = s.loop.delivered.map fun m => (m.objectId, m.data)

theorem called_init (language : ClientLanguage) : Called (init language) := fun _ => rfl

theorem called_step {order : ByteOrder} {s t : Submitter} {a : Action} (h : Called s)
    (hs : step order s a = some t) : Called t := by
  cases step_moves hs with
  | receive b =>
    intro hjava
    rw [foldl_onResponse_language] at hjava
    rw [foldl_onResponse_loop, foldl_onResponse_callbacks hjava]
    simp only [delivered_receive, List.map_append]
    rw [h hjava]
  | _ => exact h

end Dousi.Client.Calls
