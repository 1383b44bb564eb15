import Dousi.Client.Calls

/-!
# NativeRpcClient: the Java clients of one process

The native half of `NativeRpcClient` keeps one reference to the class, one method id and
one reference to an object for the whole process. Every `nativeNewRpcClient` writes its own
object there, every callback of every client takes the object from there, and
`nativeDestroy` gives all three back. A step is one call of JNI, or what happens between two
of them; `history` is what is seen of them on the Java side.
-/
namespace Dousi.Client.NativeRpcClient

open Dousi.Lib.Word
open Dousi.Lib.Log
open Dousi.Lib.Transition
open Calls (Submitter)

/-- What JNI leaves undefined. -/
inductive Misuse where
  /-- `DeleteGlobalRef` of a `jmethodID` -/
  | notReference
  | deletedTwice
  /-- a method called on a reference that is null or deleted -/
  | invalidReference
  /-- `NewByteArray` with a size that is negative as a `jsize` -/
  | negativeSize

/-- How far `nativeNewRpcClient` and `nativeDestroy` are with a client. In `stopping` the
destructor of the submitter waits for the io thread. -/
inductive Phase where
  | creating
  | running
  | stopping
  | joined
  | classDeleted
  | methodDeleted
  | destroyed
  deriving DecidableEq

/-- `NativeClientForJava` and the object it was made for. -/
structure NativeClient where
  javaObject : Nat
  phase : Phase
  submitter : Submitter
  /-- the callbacks that have returned -/
  returned : Nat

structure GlobalRef where
  object : Nat
  deleted : Bool

inductive Event where
  | created (object : Nat)
  /-- `onReturnValueReceived(requestId, bytes)` on an object -/
  | received (client object : Nat) (result : UInt32 × Bytes)
  | classDeleted
  | objectDeleted

structure Process where
  globalRefs : List GlobalRef
  /-- the state of `java_class_NativeRpcClient` -/
  classDeleted : Bool
  javaObjectNativeRpcClient : Option Nat
  clients : List NativeClient
  misuse : Option Misuse
  history : List Event

inductive Action where
  | nativeNewRpcClient (object : Nat)
  | nativeClientForJava (client : Nat)
  | submitter (client : Nat) (action : Calls.Action)
  | callVoidMethod (client : Nat)
  | stop (client : Nat)
  | join (client : Nat)
  | deleteClass (client : Nat)
  | deleteMethod (client : Nat)
  | deleteObject (client : Nat)

/-- After `JNI_OnLoad`. -/
def onLoad : Process := ⟨[], false, none, [], none, []⟩

/-- The io thread is in no callback. -/
def NativeClient.idle (c : NativeClient) : Bool := c.returned == c.submitter.callbacks.length

/-- `nativeInvoke` needs the client; the io thread reads on after a callback has returned. -/
def NativeClient.allows (c : NativeClient) : Calls.Action → Bool
  | .requestObjectID .. | .submit _ => c.phase == .running
  | .receive _ | .readError | .writeError => c.phase == .running && c.idle
  | .get _ => false

def setClient (p : Process) (k : Nat) (f : NativeClient → NativeClient) : Process :=
  { p with clients := p.clients.modify k f }

/-- The client goes on to a phase. -/
def enter (p : Process) (k : Nat) (phase : Phase) : Process :=
  setClient p k fun c => { c with phase }

/-- The object that `java_object_native_rpc_client` refers to, while the reference is good. -/
def target (p : Process) : Option Nat :=
  (p.javaObjectNativeRpcClient.bind fun r => p.globalRefs[r]?).bind fun ref =>
    if ref.deleted then none else some ref.object

/-- The callback that is to be carried out. -/
def NativeClient.callback (c : NativeClient) : Option (UInt32 × Bytes) :=
  if c.phase = .running ∨ c.phase = .stopping then c.submitter.callbacks[c.returned]? else none

/-- The body of `on_return_value_received`. -/
def callVoidMethod (p : Process) (k : Nat) (result : UInt32 × Bytes) : Process :=
  if 2147483648 ≤ result.2.length then { p with misuse := some .negativeSize }
  else
    match target p with
    | none => { p with misuse := some .invalidReference }
    | some object =>
      { setClient p k fun c => { c with returned := c.returned + 1 } with
        history := p.history ++ [.received k object result] }

/-- `forgiving` says that the virtual machine ignores a `DeleteGlobalRef` of what is no
reference. Nothing is said of what comes after a misuse. -/
def step (order : ByteOrder) (forgiving : Bool) (p : Process) (a : Action) : Option Process :=
  if p.misuse.isSome then none else
  match a with
  | .nativeNewRpcClient object =>
    some { p with
      globalRefs := p.globalRefs ++ [⟨object, false⟩]
      javaObjectNativeRpcClient := some p.globalRefs.length
      clients := p.clients ++ [⟨object, .creating, Calls.init .java, 0⟩]
      history := p.history ++ [.created object] }
  | .nativeClientForJava k =>
    match (p.clients[k]?).map NativeClient.phase with
    | some .creating => some (enter p k .running)
    | _ => none
  | .submitter k action =>
    (p.clients[k]?).bind fun c =>
      if c.allows action then
        (Calls.step order c.submitter action).map fun submitter =>
          setClient p k fun c => { c with submitter }
      else none
  | .callVoidMethod k =>
    ((p.clients[k]?).bind NativeClient.callback).map (callVoidMethod p k)
  | .stop k =>
    match (p.clients[k]?).map NativeClient.phase with
    | some .running => some (enter p k .stopping)
    | _ => none
  | .join k =>
    match p.clients[k]? with
    | some c => if c.phase = .stopping ∧ c.idle then some (enter p k .joined) else none
    | none => none
  | .deleteClass k =>
    match (p.clients[k]?).map NativeClient.phase with
    | some .joined =>
      if p.classDeleted then some { p with misuse := some .deletedTwice }
      else some { enter p k .classDeleted with
        classDeleted := true, history := p.history ++ [.classDeleted] }
    | _ => none
  | .deleteMethod k =>
    match (p.clients[k]?).map NativeClient.phase with
    | some .classDeleted =>
      if forgiving then some (enter p k .methodDeleted)
      else some { p with misuse := some .notReference }
    | _ => none
  | .deleteObject k =>
    match (p.clients[k]?).map NativeClient.phase, p.javaObjectNativeRpcClient with
    | some .methodDeleted, some r =>
      match target p with
      | none => some { p with misuse := some .deletedTwice }
      | some _ => some { enter p k .destroyed with
        globalRefs := p.globalRefs.modify r fun ref => { ref with deleted := true }
        history := p.history ++ [.objectDeleted] }
    | _, _ => none

/-- What a step can do. -/
inductive Moves (order : ByteOrder) (forgiving : Bool) (p : Process) : Action → Process → Prop
  | newRpcClient (object : Nat) : Moves order forgiving p (.nativeNewRpcClient object) { p with
      globalRefs := p.globalRefs ++ [⟨object, false⟩]
      javaObjectNativeRpcClient := some p.globalRefs.length
      clients := p.clients ++ [⟨object, .creating, Calls.init .java, 0⟩]
      history := p.history ++ [.created object] }
  | forJava {k : Nat} {c : NativeClient} : p.clients[k]? = some c → c.phase = .creating →
      Moves order forgiving p (.nativeClientForJava k) (enter p k .running)
  | submitter {k : Nat} {c : NativeClient} {action : Calls.Action} {submitter : Submitter} :
      p.clients[k]? = some c → c.allows action = true →
      Calls.step order c.submitter action = some submitter →
      Moves order forgiving p (.submitter k action) (setClient p k fun c => { c with submitter })
  | tooLong {k : Nat} {c : NativeClient} {result : UInt32 × Bytes} : p.clients[k]? = some c →
      c.callback = some result → 2147483648 ≤ result.2.length →
      Moves order forgiving p (.callVoidMethod k) { p with misuse := some .negativeSize }
  | invalid {k : Nat} {c : NativeClient} {result : UInt32 × Bytes} : p.clients[k]? = some c →
      c.callback = some result → result.2.length < 2147483648 → target p = none →
      Moves order forgiving p (.callVoidMethod k) { p with misuse := some .invalidReference }
  | called {k : Nat} {c : NativeClient} {result : UInt32 × Bytes} {object : Nat} :
      p.clients[k]? = some c → c.callback = some result → result.2.length < 2147483648 →
      target p = some object → Moves order forgiving p (.callVoidMethod k)
        { setClient p k fun c => { c with returned := c.returned + 1 } with
          history := p.history ++ [.received k object result] }
  | stop {k : Nat} {c : NativeClient} : p.clients[k]? = some c → c.phase = .running →
      Moves order forgiving p (.stop k) (enter p k .stopping)
  | join {k : Nat} {c : NativeClient} : p.clients[k]? = some c → c.phase = .stopping →
      c.idle = true → Moves order forgiving p (.join k) (enter p k .joined)
  | classAgain {k : Nat} {c : NativeClient} : p.clients[k]? = some c → c.phase = .joined →
      p.classDeleted = true →
      Moves order forgiving p (.deleteClass k) { p with misuse := some .deletedTwice }
  | deleteClass {k : Nat} {c : NativeClient} : p.clients[k]? = some c → c.phase = .joined →
      p.classDeleted = false → Moves order forgiving p (.deleteClass k)
        { enter p k .classDeleted with
          classDeleted := true, history := p.history ++ [.classDeleted] }
  | notReference {k : Nat} {c : NativeClient} : p.clients[k]? = some c →
      c.phase = .classDeleted → forgiving = false →
      Moves order forgiving p (.deleteMethod k) { p with misuse := some .notReference }
  | deleteMethod {k : Nat} {c : NativeClient} : p.clients[k]? = some c →
      c.phase = .classDeleted → forgiving = true →
      Moves order forgiving p (.deleteMethod k) (enter p k .methodDeleted)
  | objectAgain {k : Nat} {c : NativeClient} : p.clients[k]? = some c →
      c.phase = .methodDeleted → target p = none →
      Moves order forgiving p (.deleteObject k) { p with misuse := some .deletedTwice }
  | deleteObject {k r : Nat} {c : NativeClient} {object : Nat} : p.clients[k]? = some c →
      c.phase = .methodDeleted → p.javaObjectNativeRpcClient = some r → target p = some object →
      Moves order forgiving p (.deleteObject k) { enter p k .destroyed with
        globalRefs := p.globalRefs.modify r fun ref => { ref with deleted := true }
        history := p.history ++ [.objectDeleted] }

/-- The client that a phase was read from. -/
theorem client_of_phase {p : Process} {k : Nat} {phase : Phase}
    (h : (p.clients[k]?).map NativeClient.phase = some phase) :
    ∃ c, p.clients[k]? = some c ∧ c.phase = phase :=
  Option.map_eq_some_iff.mp h

theorem step_moves {order : ByteOrder} {forgiving : Bool} {p q : Process} {a : Action}
    (hs : step order forgiving p a = some q) : p.misuse = none ∧ Moves order forgiving p a q := by
  unfold step at hs
  split at hs
  · cases hs
  next hnone =>
  refine ⟨by simpa using hnone, ?_⟩
  cases a with
  | nativeNewRpcClient object =>
    cases hs
    exact .newRpcClient object
  | nativeClientForJava k =>
    dsimp only at hs
    split at hs
    · next hphase =>
      cases hs
      obtain ⟨c, hc, hphase⟩ := client_of_phase hphase
      exact .forJava hc hphase
    · cases hs
  | submitter k action =>
    obtain ⟨c, hc, hs⟩ := Option.bind_eq_some_iff.mp hs
    split at hs
    · next hallows =>
      obtain ⟨submitter, hsub, rfl⟩ := Option.map_eq_some_iff.mp hs
      exact .submitter hc hallows hsub
    · cases hs
  | callVoidMethod k =>
    obtain ⟨result, hresult, rfl⟩ := Option.map_eq_some_iff.mp hs
    obtain ⟨c, hc, hresult⟩ := Option.bind_eq_some_iff.mp hresult
    unfold callVoidMethod
    split
    · next hlong => exact .tooLong hc hresult hlong
    · next hshort =>
      split
      · next hnull => exact .invalid hc hresult (Nat.lt_of_not_le hshort) hnull
      · next hobject => exact .called hc hresult (Nat.lt_of_not_le hshort) hobject
  | stop k =>
    dsimp only at hs
    split at hs
    · next hphase =>
      cases hs
      obtain ⟨c, hc, hphase⟩ := client_of_phase hphase
      exact .stop hc hphase
    · cases hs
  | join k =>
    dsimp only at hs
    split at hs
    · next c hc =>
      split at hs
      · next h =>
        cases hs
        exact .join hc h.1 h.2
      · cases hs
    · cases hs
  | deleteClass k =>
    dsimp only at hs
    split at hs
    · next hphase =>
      obtain ⟨c, hc, hphase⟩ := client_of_phase hphase
      split at hs
      · next hdeleted =>
        cases hs
        exact .classAgain hc hphase hdeleted
      · next hdeleted =>
        cases hs
        exact .deleteClass hc hphase (Bool.eq_false_iff.mpr hdeleted)
    · cases hs
  | deleteMethod k =>
    dsimp only at hs
    split at hs
    · next hphase =>
      obtain ⟨c, hc, hphase⟩ := client_of_phase hphase
      split at hs
      · next hforgiving =>
        cases hs
        exact .deleteMethod hc hphase hforgiving
      · next hforgiving =>
        cases hs
        exact .notReference hc hphase (Bool.eq_false_iff.mpr hforgiving)
    · cases hs
  | deleteObject k =>
    dsimp only at hs
    split at hs
    · next r hphase hr =>
      obtain ⟨c, hc, hphase⟩ := client_of_phase hphase
      split at hs
      · next hnull =>
        cases hs
        exact .objectAgain hc hphase hnull
      · next hobject =>
        cases hs
        exact .deleteObject hc hphase hr hobject
    · cases hs

/-! The global reference -/

/-- What an event leaves in the global, if it writes it: an object or nothing. -/
def held : Event → Option (Option Nat)
  | .created object => some (some object)
  | .objectDeleted => some none
  | .received .. | .classDeleted => none

/-- The object of the last `nativeNewRpcClient`, unless an object was deleted after it. -/
def current (history : List Event) : Option Nat := (last held history).join

theorem current_write {event : Event} {object : Option Nat} (h : held event = some object)
    (history : List Event) : current (history ++ [event]) = object := by
  rw [current, last_snoc, h]
  rfl

theorem current_keep {event : Event} (h : held event = none) (history : List Event) :
    current (history ++ [event]) = current history := by
  rw [current, last_snoc, h]
  rfl

/-- The global refers to the object created last, and each result went to that object. -/
structure Handed (p : Process) : Prop where
  target : target p = current p.history
  received : ∀ (i k object : Nat) (result : UInt32 × Bytes),
    p.history[i]? = some (.received k object result) → current (p.history.take i) = some object

theorem handed_onLoad : Handed onLoad :=
  ⟨rfl, fun _ _ _ _ h => by cases h⟩

/-- One more event, which is no result or one for the current object. -/
theorem handed_snoc {p q : Process} {event : Event} (h : Handed p)
    (hhistory : q.history = p.history ++ [event])
    (htarget : NativeRpcClient.target q = current q.history)
    (hevent : ∀ k object result, event = .received k object result →
      NativeRpcClient.target p = some object) : Handed q := by
  refine ⟨htarget, fun i k object result hi => ?_⟩
  rw [hhistory] at hi ⊢
  rcases get_snoc hi with hold | ⟨rfl, hnew⟩
  · rw [take_append_of_get hold]
    exact h.received i k object result hold
  · rw [List.take_left' rfl, ← h.target]
    exact hevent k object result hnew.symm

/-- No new event and the same references. -/
theorem handed_keep {p q : Process} (h : Handed p) (hhistory : q.history = p.history)
    (htarget : NativeRpcClient.target q = NativeRpcClient.target p) : Handed q :=
  ⟨by rw [htarget, hhistory, h.target], by rw [hhistory]; exact h.received⟩

theorem handed_moves {order : ByteOrder} {forgiving : Bool} {p q : Process} {a : Action}
    (h : Handed p) (hm : Moves order forgiving p a q) : Handed q := by
  cases hm with
  | newRpcClient object =>
    refine handed_snoc h rfl ?_ nofun
    rw [current_write rfl]
    simp [target]
  | called hc hresult hshort hobject =>
    refine handed_snoc h rfl ?_ (fun k o result he => ?_)
    · rw [current_keep rfl, ← h.target]
      rfl
    · cases he
      exact hobject
  | deleteClass hc hphase hdeleted =>
    refine handed_snoc h rfl ?_ nofun
    rw [current_keep rfl, ← h.target]
    rfl
  | @deleteObject k r c object hc hphase hr hobject =>
    refine handed_snoc h rfl ?_ nofun
    rw [current_write rfl]
    simp only [target, enter, setClient, hr, Option.bind_some, List.getElem?_modify_eq]
    cases p.globalRefs[r]? <;> rfl
  | _ => exact handed_keep h rfl rfl

theorem handed_reach {order : ByteOrder} {forgiving : Bool} {p : Process}
    (h : Reach (step order forgiving) Any onLoad p) : Handed p :=
  h.invariant handed_onLoad fun _ _ _ hi _ hs => handed_moves hi (step_moves hs).2

/-! What each client has been called back with -/

theorem setClient_get (p : Process) (k j : Nat) (f : NativeClient → NativeClient) :
    (setClient p k f).clients[j]? = (p.clients[j]?).map fun c => if k = j then f c else c := by
  simp [setClient, List.getElem?_modify]

/-- The results of a client that some object has received. -/
def resultsOf (k : Nat) (history : List Event) : List (UInt32 × Bytes) :=
  history.filterMap fun event =>
    match event with
    | .received client _ result => if client = k then some result else none
    | _ => none

theorem resultsOf_snoc (k : Nat) (history : List Event) {event : Event}
    (h : ∀ client object result, event ≠ .received client object result) :
    resultsOf k (history ++ [event]) = resultsOf k history := by
  cases event with
  | received client object result => exact absurd rfl (h client object result)
  | _ => simp [resultsOf]

theorem resultsOf_received (k client object : Nat) (history : List Event)
    (result : UInt32 × Bytes) : resultsOf k (history ++ [.received client object result]) =
      resultsOf k history ++ if client = k then [result] else [] := by
  by_cases hk : client = k
  · simp [resultsOf, hk]
  · simp [resultsOf, hk]

/-- The io thread of the client has ended. -/
def Phase.ended : Phase → Bool
  | .creating | .running | .stopping => false
  | .joined | .classDeleted | .methodDeleted | .destroyed => true

/-- The results handed over are those of the callbacks that have returned, and an io thread
ends in no callback. -/
structure Delivers (results : List (UInt32 × Bytes)) (c : NativeClient) : Prop where
  language : c.submitter.clientLanguage = .java
  called : Calls.Called c.submitter
  results : results = c.submitter.callbacks.take c.returned
  returned : c.returned ≤ c.submitter.callbacks.length
  ended : c.phase.ended = true → c.returned = c.submitter.callbacks.length

structure Answered (p : Process) : Prop where
  clients : ∀ k c, p.clients[k]? = some c → Delivers (resultsOf k p.history) c
  known : ∀ k, p.clients.length ≤ k → resultsOf k p.history = []

theorem answered_onLoad : Answered onLoad :=
  ⟨nofun, fun _ _ => rfl⟩

/-- One client changes, and no other gets a result. -/
theorem answered_setClient {p q : Process} (h : Answered p) {k : Nat} {c : NativeClient}
    {f : NativeClient → NativeClient} (hc : p.clients[k]? = some c)
    (hclients : q.clients = (setClient p k f).clients)
    (hothers : ∀ j, j ≠ k → resultsOf j q.history = resultsOf j p.history)
    (hk : Delivers (resultsOf k q.history) (f c)) : Answered q := by
  constructor
  · intro j d hj
    rw [hclients, setClient_get] at hj
    obtain ⟨d, hd, rfl⟩ := Option.map_eq_some_iff.mp hj
    split
    · next heq =>
      subst heq
      rw [hc] at hd
      cases hd
      exact hk
    · next hne =>
      rw [hothers j (Ne.symm hne)]
      exact h.clients j d hd
  · intro j hj
    have hlen : q.clients.length = p.clients.length := by
      rw [hclients, setClient, List.length_modify]
    have hlt := (List.getElem?_eq_some_iff.mp hc).1
    rw [hothers j (by omega)]
    exact h.known j (by omega)

/-- A client only goes on to another phase. -/
theorem answered_enter {p q : Process} (h : Answered p) {k : Nat} {c : NativeClient}
    {phase : Phase} (hc : p.clients[k]? = some c)
    (hclients : q.clients = (enter p k phase).clients)
    (hresults : ∀ j, resultsOf j q.history = resultsOf j p.history)
    (hended : phase.ended = true → c.phase.ended = true ∨ c.idle = true) : Answered q := by
  refine answered_setClient h hc hclients (fun j _ => hresults j) ?_
  have hd := h.clients k c hc
  rw [hresults]
  refine ⟨hd.language, hd.called, hd.results, hd.returned, fun hphase => ?_⟩
  rcases hended hphase with hold | hidle
  · exact hd.ended hold
  · exact eq_of_beq hidle

theorem callback_eq {c : NativeClient} {result : UInt32 × Bytes} (h : c.callback = some result) :
    c.phase.ended = false ∧ c.submitter.callbacks[c.returned]? = some result := by
  unfold NativeClient.callback at h
  split at h
  · next hphase =>
    refine ⟨?_, h⟩
    rcases hphase with hphase | hphase <;> rw [hphase] <;> rfl
  · cases h

theorem allows_running {c : NativeClient} {action : Calls.Action} (h : c.allows action = true) :
    c.phase = .running := by
  cases action with
  | get call => cases h
  | requestObjectID buffer decodes => exact eq_of_beq h
  | submit call => exact eq_of_beq h
  | _ => exact eq_of_beq (Bool.and_eq_true_iff.mp h).1

theorem answered_moves {order : ByteOrder} {forgiving : Bool} {p q : Process} {a : Action}
    (h : Answered p) (hm : Moves order forgiving p a q) : Answered q := by
  cases hm with
  | newRpcClient object =>
    have hsame : ∀ j, resultsOf j (p.history ++ [.created object]) = resultsOf j p.history :=
      fun j => resultsOf_snoc j p.history nofun
    constructor
    · intro k c hk
      dsimp only at hk ⊢
      rw [hsame]
      rcases get_snoc hk with hold | ⟨rfl, rfl⟩
      · exact h.clients k c hold
      · rw [h.known _ (Nat.le_refl _)]
        exact ⟨rfl, Calls.called_init .java, rfl, Nat.le_refl 0, nofun⟩
    · intro k hk
      rw [List.length_append, List.length_singleton] at hk
      dsimp only
      rw [hsame]
      exact h.known k (by omega)
  | forJava hc hphase => exact answered_enter h hc rfl (fun _ => rfl) nofun
  | @submitter k c action submitter hc hallows hsub =>
    refine answered_setClient h hc rfl (fun _ _ => rfl) ?_
    have hd := h.clients k c hc
    obtain ⟨hlanguage, more, hmore⟩ := Calls.callbacks_step hd.language hsub
    refine ⟨hlanguage, Calls.called_step hd.called hsub, ?_, ?_, fun hended => ?_⟩
    · dsimp only
      rw [hmore, List.take_append_of_le_length hd.returned]
      exact hd.results
    · dsimp only
      rw [hmore, List.length_append]
      exact Nat.le_add_right_of_le hd.returned
    · dsimp only at hended
      rw [allows_running hallows] at hended
      cases hended
  | @called k c result object hc hresult hshort hobject =>
    obtain ⟨hended, hget⟩ := callback_eq hresult
    have hd := h.clients k c hc
    refine answered_setClient h hc rfl (fun j hj => ?_) ?_
    · rw [resultsOf_received, if_neg (Ne.symm hj), List.append_nil]
    · obtain ⟨hlt, heq⟩ := List.getElem?_eq_some_iff.mp hget
      refine ⟨hd.language, hd.called, ?_, hlt, fun h' => ?_⟩
      · dsimp only
        rw [resultsOf_received, if_pos rfl, List.take_add_one, hget]
        exact congrArg (· ++ [result]) hd.results
      · dsimp only at h'
        rw [hended] at h'
        cases h'
  | stop hc hphase => exact answered_enter h hc rfl (fun _ => rfl) nofun
  | join hc hphase hidle => exact answered_enter h hc rfl (fun _ => rfl) fun _ => .inr hidle
  | deleteClass hc hphase _ =>
    exact answered_enter h hc rfl (fun j => resultsOf_snoc j p.history nofun)
      fun _ => .inl (by rw [hphase]; rfl)
  | deleteMethod hc hphase _ =>
    exact answered_enter h hc rfl (fun _ => rfl) fun _ => .inl (by rw [hphase]; rfl)
  | deleteObject hc hphase _ _ =>
    exact answered_enter h hc rfl (fun j => resultsOf_snoc j p.history nofun)
      fun _ => .inl (by rw [hphase]; rfl)
  | _ => exact ⟨h.clients, h.known⟩

theorem answered_reach {order : ByteOrder} {forgiving : Bool} {p : Process}
    (h : Reach (step order forgiving) Any onLoad p) : Answered p :=
  h.invariant answered_onLoad fun _ _ _ hi _ hs => answered_moves hi (step_moves hs).2

/-- With any number of Java clients in the process and in any order of their steps: each
result goes to the object of the last `nativeNewRpcClient` before it, whichever client it
came to, and only if no object was deleted after that. A client is called back for what its
connection has delivered, its callbacks hand this over in its order, and none of them is left
when its references are deleted. -/
theorem results_to_newest {order : ByteOrder} {forgiving : Bool} {p : Process}
    (h : Reach (step order forgiving) Any onLoad p) :
    (∀ (i k object : Nat) (result : UInt32 × Bytes),
      p.history[i]? = some (.received k object result) →
        current (p.history.take i) = some object) ∧
    ∀ (k : Nat) (c : NativeClient), p.clients[k]? = some c →
      c.submitter.callbacks = c.submitter.loop.delivered.map (fun m => (m.objectId, m.data)) ∧
        resultsOf k p.history = c.submitter.callbacks.take c.returned ∧
        (c.phase.ended = true → resultsOf k p.history = c.submitter.callbacks) := by
  refine ⟨(handed_reach h).received, fun k c hc => ?_⟩
  have hd := (answered_reach h).clients k c hc
  refine ⟨hd.called hd.language, hd.results, fun hended => ?_⟩
  rw [hd.results, hd.ended hended, List.take_length]

/-- Clients for two objects, and a result for the first request of the first client. -/
def twoClients : List Action :=
  [.nativeNewRpcClient 10, .nativeClientForJava 0, .nativeNewRpcClient 20, .nativeClientForJava 1,
    .submitter 0 (.requestObjectID [] fun _ => false), .submitter 0 (.submit 0)] ++
  [0, 0, 0, 0, 1, 0, 0, 0, 7].map fun b => .submitter 0 (.receive b)

/-- The other object receives it. -/
theorem results_to_newest_twoClients : ∃ p,
    run (step .little true) onLoad (twoClients ++ [.callVoidMethod 0]) = some p ∧
    p.history = [.created 10, .created 20, .received 0 20 (0, [7])] ∧
    (∀ (i k object : Nat) (result : UInt32 × Bytes),
      p.history[i]? = some (.received k object result) →
        current (p.history.take i) = some object) ∧
    ∀ (k : Nat) (c : NativeClient), p.clients[k]? = some c →
      c.submitter.callbacks = c.submitter.loop.delivered.map (fun m => (m.objectId, m.data)) ∧
        resultsOf k p.history = c.submitter.callbacks.take c.returned ∧
        (c.phase.ended = true → resultsOf k p.history = c.submitter.callbacks) := by
  obtain ⟨p, hp⟩ : ∃ p, run (step .little true) onLoad (twoClients ++ [.callVoidMethod 0]) =
      some p := ⟨_, rfl⟩
  refine ⟨p, hp, ?_, results_to_newest (Reach.of_run hp)⟩
  cases hp
  rfl

/-! What JNI does not allow -/

end Dousi.Client.NativeRpcClient
