import Dousi.Client.Calls
import Dousi.Lib.Progress

/-!
# Who keeps a Submitter alive

A C++ client shares its submitter: the `RpcClient`, every `ServiceHandle` it gives out and
every `DousiFuture` have a `shared_ptr` to it, and threads copy and destroy these objects in
any order. The last one to go runs `~Submitter`, which stops the io thread and waits for it.
The stream is shared too: by the submitter and by the completion handlers that the
`io_service` keeps, each with its `self`. The callback of the stream has a plain `this`.
A round of `GetObject` with what follows the loop is one step here, and so is the storing of
a response, as if they could not meet; the module `GetObject` has them apart.
-/
namespace Dousi.Client.SharedOwnership

open Dousi.Lib.Word
open Dousi.Lib.Log
open Dousi.Lib.Transition
open Dousi.Lib.Progress hiding Moves
open Dousi.Stream.AsioStream
open Calls (Submitter nonempty)

/-- What has a `shared_ptr` to the submitter. The type of a future says which bytes decode,
and `data` is what `Get` has left in it. -/
inductive Owner where
  | rpcClient
  | serviceHandle
  | dousiFuture (objectId : UInt64) (decodes : Bytes → Bool) (data : Option Bytes)

structure Object where
  owner : Owner
  ended : Bool

/-- How far a `ServiceHandle::Call` is. -/
inductive Stage where
  | requested
  | submitted
  | returned
  deriving DecidableEq

/-- A call made through the handle. -/
structure Calling where
  handle : Nat
  stage : Stage

/-- What a completion handler is there for. -/
inductive Handler where
  | read
  | write
  deriving DecidableEq

/-- What a completion handler is told. -/
inductive Completion where
  | received (b : UInt8)
  | readError
  | written
  | writeError

/-- The io thread is in `run`, before or in a handler, has run a handler and not yet
destroyed it, or has come out of `run`. -/
inductive IoThread where
  | waiting
  | handling (completion : Completion)
  | handled
  | ended

/-- The life of the submitter. From `destroying` on its destructor runs: `io_service_.stop()`,
the join, and then the members from the last one to the first. -/
inductive Phase where
  | running
  | destroying
  | stopped
  | joined
  | streamReleased
  | handlersDestroyed
  | freed
  deriving DecidableEq

structure Process where
  objects : List Object
  /-- the use count of the submitter -/
  useCount : Nat
  calling : List Calling
  phase : Phase
  submitter : Submitter
  /-- the use count of the stream -/
  streamCount : Nat
  /-- the handlers that `io_service_` keeps -/
  pending : List Handler
  ioThread : IoThread
  /-- something was used, or released, that was not there any more -/
  dangling : Bool

inductive Action where
  | getService (k : Nat)
  | copy (k : Nat)
  | requestObjectID (k : Nat) (buffer : Bytes) (decodes : Bytes → Bool)
  | submit (c : Nat)
  | makeFuture (c : Nat)
  | get (k : Nat)
  | destroy (k : Nat)
  | begin (completion : Completion)
  | handle
  | leave
  | exit
  | stop
  | join
  | releaseStream
  | destroyIoService
  | free

/-- After the constructor of the `RpcClient`: the stream belongs to the submitter and to the
handler of the first read. -/
def connected : Process :=
  ⟨[⟨.rpcClient, false⟩], 1, [], .running, Calls.init .cpp, 2, [.read], .waiting, false⟩

def Completion.handler : Completion → Handler
  | .received _ | .readError => .read
  | .written | .writeError => .write

/-- What the handler does to the submitter. -/
def Completion.apply (order : ByteOrder) (s : Submitter) : Completion → Option Submitter
  | .received b => Calls.step order s (.receive b)
  | .readError => Calls.step order s .readError
  | .written => some s
  | .writeError => Calls.step order s .writeError

/-- The members of the submitter are there. -/
def Phase.whole : Phase → Bool
  | .running | .destroying | .stopped => true
  | .joined | .streamReleased | .handlersDestroyed | .freed => false

/-- The object at `k`, while it is there. -/
def liveAt (p : Process) (k : Nat) : Option Owner :=
  (p.objects[k]?).bind fun x => if x.ended then none else some x.owner

def dangle (p : Process) : Process := { p with dangling := true }

def addOwner (p : Process) (owner : Owner) : Process :=
  { p with objects := p.objects ++ [⟨owner, false⟩], useCount := p.useCount + 1 }

/-- `shared_from_this()` and a copy of the pointer. -/
def share (p : Process) (owner : Owner) : Process :=
  if p.phase = .running then addOwner p owner else dangle p

def setStage (p : Process) (c : Nat) (stage : Stage) : Process :=
  { p with calling := p.calling.modify c fun call => { call with stage } }

def setData (p : Process) (k : Nat) (objectId : UInt64) (decodes : Bytes → Bool)
    (data : Option Bytes) : Process :=
  { p with
    objects := p.objects.modify k fun x => { x with owner := .dousiFuture objectId decodes data } }

/-- A caller does not destroy a handle that it is calling through. -/
def InUse (p : Process) (k : Nat) : Prop :=
  ∃ call ∈ p.calling, call.handle = k ∧ call.stage ≠ .returned

instance (p : Process) (k : Nat) : Decidable (InUse p k) :=
  inferInstanceAs (Decidable (∃ call ∈ p.calling, _))

/-- `RequestObjectID`. -/
def requestObjectID (order : ByteOrder) (p : Process) (k : Nat) (buffer : Bytes)
    (decodes : Bytes → Bool) : Option Process :=
  if p.phase = .running then
    (Calls.step order p.submitter (.requestObjectID buffer decodes)).map fun submitter =>
      { p with submitter, calling := p.calling ++ [⟨k, .requested⟩] }
  else some (dangle p)

/-- `Submit`: the handler of the write shares the stream. -/
def submit (order : ByteOrder) (p : Process) (c : Nat) : Option Process :=
  if p.phase = .running ∧ 0 < p.streamCount then
    (Calls.step order p.submitter (.submit c)).map fun submitter =>
      { setStage p c .submitted with
        submitter, streamCount := p.streamCount + 1, pending := p.pending ++ [.write] }
  else some (dangle p)

/-- `Get`: `GetObject`, if the future has no data yet. One that throws leaves no data. -/
def get (p : Process) (k : Nat) (objectId : UInt64) (decodes : Bytes → Bool) :
    Option Bytes → Process
  | some _ => p
  | none =>
    if p.phase = .running then
      setData p k objectId decodes (Calls.getObject p.submitter objectId decodes).data
    else dangle p

/-- The destructor of an owner; the last one goes on with `~Submitter`. `~RpcClient` calls
`Shutdown` first, which does nothing. -/
def destroy (p : Process) (k : Nat) : Process :=
  match p.useCount with
  | 0 => dangle p
  | n + 1 => { p with
      objects := p.objects.modify k fun x => { x with ended := true }
      useCount := n
      phase := if n = 0 then .destroying else p.phase }

/-- `count` of the pointers to the stream are destroyed. -/
def releaseStream (p : Process) (count : Nat) : Process :=
  if count ≤ p.streamCount then { p with streamCount := p.streamCount - count } else dangle p

/-- A read without error asks for the next bytes. -/
def readOn (p : Process) : Completion → Process
  | .received _ => { p with streamCount := p.streamCount + 1, pending := p.pending ++ [.read] }
  | .readError | .written | .writeError => p

/-- The body of a completion handler. -/
def handle (order : ByteOrder) (p : Process) (completion : Completion) : Option Process :=
  if p.phase.whole ∧ 0 < p.streamCount then
    (completion.apply order p.submitter).map fun submitter =>
      { readOn p completion with submitter, ioThread := .handled }
  else some (dangle p)

def step (order : ByteOrder) (p : Process) (a : Action) : Option Process :=
  if p.dangling then none else
  match a with
  | .getService k =>
    match liveAt p k with
    | some .rpcClient => some (share p .serviceHandle)
    | _ => none
  | .copy k => (liveAt p k).map (share p)
  | .requestObjectID k buffer decodes =>
    match liveAt p k with
    | some .serviceHandle => requestObjectID order p k buffer decodes
    | _ => none
  | .submit c =>
    match (p.calling[c]?).map Calling.stage with
    | some .requested => submit order p c
    | _ => none
  | .makeFuture c =>
    match (p.calling[c]?).map Calling.stage, p.submitter.calls[c]? with
    | some .submitted, some call =>
      some (share (setStage p c .returned) (.dousiFuture call.objectId call.decodes none))
    | _, _ => none
  | .get k =>
    match liveAt p k with
    | some (.dousiFuture objectId decodes data) => some (get p k objectId decodes data)
    | _ => none
  | .destroy k => if (liveAt p k).isSome ∧ ¬ InUse p k then some (destroy p k) else none
  | .begin completion =>
    match p.ioThread with
    | .waiting =>
      -- after `stop` no handler is taken any more
      if (p.phase = .running ∨ p.phase = .destroying) ∧ completion.handler ∈ p.pending then
        some { p with
          pending := p.pending.erase completion.handler, ioThread := .handling completion }
      else none
    | _ => none
  | .handle =>
    match p.ioThread with
    | .handling completion => handle order p completion
    | _ => none
  | .leave =>
    match p.ioThread with
    | .handled => some { releaseStream p 1 with ioThread := .waiting }
    | _ => none
  | .exit =>
    match p.ioThread with
    | .waiting => if p.phase = .stopped then some { p with ioThread := .ended } else none
    | _ => none
  | .stop => if p.phase = .destroying then some { p with phase := .stopped } else none
  | .join =>
    match p.phase, p.ioThread with
    | .stopped, .ended => some { p with phase := .joined }
    | _, _ => none
  | .releaseStream =>
    if p.phase = .joined then some { releaseStream p 1 with phase := .streamReleased } else none
  | .destroyIoService =>
    if p.phase = .streamReleased then
      some { releaseStream p p.pending.length with pending := [], phase := .handlersDestroyed }
    else none
  | .free => if p.phase = .handlersDestroyed then some { p with phase := .freed } else none

/-! What keeps the counts -/

/-- The owners that are there. -/
def live (objects : List Object) : Nat := objects.countP fun x => !x.ended

/-- The pointer that the submitter has to its stream. -/
def Phase.stream : Phase → Nat
  | .running | .destroying | .stopped | .joined => 1
  | .streamReleased | .handlersDestroyed | .freed => 0

/-- The handler in the hand of the io thread. -/
def IoThread.handlers : IoThread → Nat
  | .waiting | .ended => 0
  | .handling _ | .handled => 1

structure Shared (p : Process) : Prop where
  good : p.dangling = false
  owners : p.useCount = live p.objects
  running : p.phase = .running ↔ 0 < p.useCount
  handles : ∀ call ∈ p.calling, call.stage ≠ .returned → (liveAt p call.handle).isSome = true
  stream : p.streamCount = p.phase.stream + p.pending.length + p.ioThread.handlers
  joined : p.phase.whole = false → p.ioThread = .ended
  runs : p.ioThread = .ended → p.phase ≠ .running ∧ p.phase ≠ .destroying
  pending : p.phase = .handlersDestroyed ∨ p.phase = .freed → p.pending = []

theorem shared_connected : Shared connected where
  good := rfl
  owners := rfl
  running := ⟨fun _ => Nat.one_pos, fun _ => rfl⟩
  handles := nofun
  stream := rfl
  joined := nofun
  runs := nofun
  pending := by rintro (h | h) <;> cases h

theorem liveAt_eq {p : Process} {k : Nat} {owner : Owner} :
    liveAt p k = some owner ↔ p.objects[k]? = some ⟨owner, false⟩ := by
  rw [liveAt, Option.bind_eq_some_iff]
  constructor
  · rintro ⟨⟨o, ended⟩, hk, ho⟩
    cases ended
    · cases ho
      exact hk
    · cases ho
  · exact fun hk => ⟨_, hk, rfl⟩

theorem live_pos {p : Process} {k : Nat} {owner : Owner} (h : liveAt p k = some owner) :
    0 < live p.objects :=
  List.countP_pos_iff.mpr ⟨_, List.mem_of_getElem? (liveAt_eq.mp h), rfl⟩

/-- An owner that is there keeps the submitter running. -/
theorem Shared.running_of_live {p : Process} (h : Shared p) {k : Nat} {owner : Owner}
    (hk : liveAt p k = some owner) : p.phase = .running :=
  h.running.mpr (h.owners ▸ live_pos hk)

theorem Shared.running_of_calling {p : Process} (h : Shared p) {c : Nat} {call : Calling}
    (hc : p.calling[c]? = some call) (hstage : call.stage ≠ .returned) : p.phase = .running := by
  obtain ⟨owner, hk⟩ := Option.isSome_iff_exists.mp
    (h.handles call (List.mem_of_getElem? hc) hstage)
  exact h.running_of_live hk

theorem Shared.stream_pos_of_running {p : Process} (h : Shared p) (hrunning : p.phase = .running) :
    0 < p.streamCount := by
  have hstream := h.stream
  rw [hrunning] at hstream
  simp only [Phase.stream] at hstream
  omega

/-- What a step can do. -/
inductive Moves (order : ByteOrder) (p : Process) : Action → Process → Prop
  | getService {k : Nat} : liveAt p k = some .rpcClient →
      Moves order p (.getService k) (addOwner p .serviceHandle)
  | copy {k : Nat} {owner : Owner} : liveAt p k = some owner →
      Moves order p (.copy k) (addOwner p owner)
  | requestObjectID {k : Nat} {buffer : Bytes} {decodes : Bytes → Bool} {submitter : Submitter} :
      liveAt p k = some .serviceHandle →
      Calls.step order p.submitter (.requestObjectID buffer decodes) = some submitter →
      Moves order p (.requestObjectID k buffer decodes)
        { p with submitter, calling := p.calling ++ [⟨k, .requested⟩] }
  | submit {c : Nat} {call : Calling} {submitter : Submitter} : p.calling[c]? = some call →
      call.stage = .requested → Calls.step order p.submitter (.submit c) = some submitter →
      Moves order p (.submit c) { setStage p c .submitted with
        submitter, streamCount := p.streamCount + 1, pending := p.pending ++ [.write] }
  | makeFuture {c : Nat} {call : Calling} {made : Calls.Call} : p.calling[c]? = some call →
      call.stage = .submitted → p.submitter.calls[c]? = some made →
      Moves order p (.makeFuture c)
        (addOwner (setStage p c .returned) (.dousiFuture made.objectId made.decodes none))
  | got {k : Nat} {objectId : UInt64} {decodes : Bytes → Bool} {data : Bytes} :
      liveAt p k = some (.dousiFuture objectId decodes (some data)) → Moves order p (.get k) p
  | get {k : Nat} {objectId : UInt64} {decodes : Bytes → Bool} :
      liveAt p k = some (.dousiFuture objectId decodes none) → Moves order p (.get k)
        (setData p k objectId decodes (Calls.getObject p.submitter objectId decodes).data)
  | destroy {k n : Nat} {owner : Owner} : liveAt p k = some owner → ¬ InUse p k →
      p.useCount = n + 1 → Moves order p (.destroy k) { p with
        objects := p.objects.modify k fun x => { x with ended := true }
        useCount := n
        phase := if n = 0 then .destroying else p.phase }
  | begin {completion : Completion} : p.ioThread = .waiting →
      p.phase = .running ∨ p.phase = .destroying → completion.handler ∈ p.pending →
      Moves order p (.begin completion) { p with
        pending := p.pending.erase completion.handler, ioThread := .handling completion }
  | handle {completion : Completion} {submitter : Submitter} :
      p.ioThread = .handling completion → completion.apply order p.submitter = some submitter →
      Moves order p .handle { readOn p completion with submitter, ioThread := .handled }
  | leave : p.ioThread = .handled → 0 < p.streamCount → Moves order p .leave
      { p with streamCount := p.streamCount - 1, ioThread := .waiting }
  | exit : p.ioThread = .waiting → p.phase = .stopped →
      Moves order p .exit { p with ioThread := .ended }
  | stop : p.phase = .destroying → Moves order p .stop { p with phase := .stopped }
  | join : p.phase = .stopped → p.ioThread = .ended →
      Moves order p .join { p with phase := .joined }
  | releaseStream : p.phase = .joined → 0 < p.streamCount → Moves order p .releaseStream
      { p with streamCount := p.streamCount - 1, phase := .streamReleased }
  | destroyIoService : p.phase = .streamReleased → p.pending.length ≤ p.streamCount →
      Moves order p .destroyIoService { p with
        streamCount := p.streamCount - p.pending.length
        pending := []
        phase := .handlersDestroyed }
  | free : p.phase = .handlersDestroyed → Moves order p .free { p with phase := .freed }

theorem stage_of_calling {p : Process} {c : Nat} {stage : Stage}
    (h : (p.calling[c]?).map Calling.stage = some stage) :
    ∃ call, p.calling[c]? = some call ∧ call.stage = stage :=
  Option.map_eq_some_iff.mp h

/-- The io thread has its handler in hand while it runs it. -/
theorem Shared.handling {p : Process} (h : Shared p) {completion : Completion}
    (hio : p.ioThread = .handling completion) : p.phase.whole = true ∧ 0 < p.streamCount := by
  constructor
  · by_contra hwhole
    have hended := h.joined (Bool.eq_false_iff.mpr hwhole)
    rw [hio] at hended
    cases hended
  · have hstream := h.stream
    rw [hio] at hstream
    simp only [IoThread.handlers] at hstream
    omega

/-- From a state with the right counts a step does not find anything gone. -/
theorem step_moves {order : ByteOrder} {p q : Process} {a : Action} (h : Shared p)
    (hs : step order p a = some q) : Moves order p a q := by
  unfold step at hs
  rw [if_neg (by rw [h.good]; exact Bool.false_ne_true)] at hs
  cases a with
  | getService k =>
    dsimp only at hs
    split at hs
    · next hk =>
      rw [share, if_pos (h.running_of_live hk)] at hs
      cases hs
      exact .getService hk
    · cases hs
  | copy k =>
    obtain ⟨owner, hk, rfl⟩ := Option.map_eq_some_iff.mp hs
    rw [share, if_pos (h.running_of_live hk)]
    exact .copy hk
  | requestObjectID k buffer decodes =>
    dsimp only at hs
    split at hs
    · next hk =>
      rw [requestObjectID, if_pos (h.running_of_live hk)] at hs
      obtain ⟨submitter, hsub, rfl⟩ := Option.map_eq_some_iff.mp hs
      exact .requestObjectID hk hsub
    · cases hs
  | submit c =>
    dsimp only at hs
    split at hs
    · next hcall =>
      obtain ⟨call, hc, hstage⟩ := stage_of_calling hcall
      have hrunning := h.running_of_calling hc (by rw [hstage]; decide)
      rw [submit, if_pos ⟨hrunning, h.stream_pos_of_running hrunning⟩] at hs
      obtain ⟨submitter, hsub, rfl⟩ := Option.map_eq_some_iff.mp hs
      exact .submit hc hstage hsub
    · cases hs
  | makeFuture c =>
    dsimp only at hs
    split at hs
    · next hcall hmade =>
      obtain ⟨call, hc, hstage⟩ := stage_of_calling hcall
      have hrunning : (setStage p c .returned).phase = .running :=
        h.running_of_calling hc (by rw [hstage]; decide)
      rw [share, if_pos hrunning] at hs
      cases hs
      exact .makeFuture hc hstage hmade
    · cases hs
  | get k =>
    dsimp only at hs
    split at hs
    · next objectId decodes data hk =>
      cases hs
      cases data with
      | some data => exact .got hk
      | none =>
        rw [get, if_pos (h.running_of_live hk)]
        exact .get hk
    · cases hs
  | destroy k =>
    dsimp only at hs
    split at hs
    · next hlive =>
      obtain ⟨owner, hk⟩ := Option.isSome_iff_exists.mp hlive.1
      cases hs
      obtain ⟨n, hn⟩ := Nat.exists_eq_succ_of_ne_zero
        (Nat.ne_of_gt (h.running.mp (h.running_of_live hk)))
      rw [destroy, hn]
      exact .destroy hk hlive.2 hn
    · cases hs
  | begin completion =>
    dsimp only at hs
    split at hs
    · next hio =>
      split at hs
      · next hguard =>
        cases hs
        exact .begin hio hguard.1 hguard.2
      · cases hs
    · cases hs
  | handle =>
    dsimp only at hs
    split at hs
    · next completion hio =>
      rw [handle, if_pos (h.handling hio)] at hs
      obtain ⟨submitter, hsub, rfl⟩ := Option.map_eq_some_iff.mp hs
      exact .handle hio hsub
    · cases hs
  | leave =>
    dsimp only at hs
    split at hs
    · next hio =>
      have hstream := h.stream
      rw [hio] at hstream
      simp only [IoThread.handlers] at hstream
      rw [releaseStream, if_pos (by omega)] at hs
      cases hs
      exact .leave hio (by omega)
    · cases hs
  | exit =>
    dsimp only at hs
    split at hs
    · next hio =>
      split at hs
      · next hstopped =>
        cases hs
        exact .exit hio hstopped
      · cases hs
    · cases hs
  | stop =>
    dsimp only at hs
    split at hs
    · next hphase =>
      cases hs
      exact .stop hphase
    · cases hs
  | join =>
    dsimp only at hs
    split at hs
    · next hphase hio =>
      cases hs
      exact .join hphase hio
    · cases hs
  | releaseStream =>
    dsimp only at hs
    split at hs
    · next hphase =>
      have hstream := h.stream
      rw [hphase] at hstream
      simp only [Phase.stream] at hstream
      rw [releaseStream, if_pos (by omega)] at hs
      cases hs
      exact .releaseStream hphase (by omega)
    · cases hs
  | destroyIoService =>
    dsimp only at hs
    split at hs
    · next hphase =>
      have hstream := h.stream
      rw [releaseStream, if_pos (by omega)] at hs
      cases hs
      exact .destroyIoService hphase (by omega)
    · cases hs
  | free =>
    dsimp only at hs
    split at hs
    · next hphase =>
      cases hs
      exact .free hphase
    · cases hs

theorem liveAt_addOwner {p : Process} {k : Nat} (h : (liveAt p k).isSome = true) (owner : Owner) :
    (liveAt (addOwner p owner) k).isSome = true := by
  obtain ⟨old, hk⟩ := Option.isSome_iff_exists.mp h
  rw [liveAt_eq.mpr (get_append (liveAt_eq.mp hk) _)]
  rfl

theorem shared_addOwner {p : Process} (h : Shared p) (hrunning : p.phase = .running)
    (owner : Owner) : Shared (addOwner p owner) where
  good := h.good
  owners := by simp [addOwner, live, h.owners]
  running := ⟨fun _ => Nat.succ_pos _, fun _ => hrunning⟩
  handles call hc hstage := liveAt_addOwner (h.handles call hc hstage) owner
  stream := h.stream
  joined := h.joined
  runs := h.runs
  pending := h.pending

/-- A call goes on through a handle that is there. -/
theorem shared_setStage {p : Process} (h : Shared p) {c : Nat} {call : Calling}
    (hc : p.calling[c]? = some call) (hstage : call.stage ≠ .returned) (stage : Stage) :
    Shared (setStage p c stage) where
  good := h.good
  owners := h.owners
  running := h.running
  handles new hnew hnot := by
    obtain ⟨j, hj⟩ := List.mem_iff_getElem?.mp hnew
    rw [setStage, List.getElem?_modify] at hj
    obtain ⟨old, hold, rfl⟩ := Option.map_eq_some_iff.mp hj
    by_cases hcj : c = j
    · subst hcj
      rw [hc] at hold
      cases hold
      rw [if_pos rfl]
      exact h.handles call (List.mem_of_getElem? hc) hstage
    · rw [if_neg hcj] at hnot ⊢
      exact h.handles old (List.mem_of_getElem? hold) hnot
  stream := h.stream
  joined := h.joined
  runs := h.runs
  pending := h.pending

theorem live_setData {p : Process} {k : Nat} {x : Object} (hk : p.objects[k]? = some x)
    (objectId : UInt64) (decodes : Bytes → Bool) (data : Option Bytes) :
    live (setData p k objectId decodes data).objects = live p.objects :=
  Nat.add_right_cancel (countP_modify (fun x : Object => !x.ended)
    (fun x => { x with owner := .dousiFuture objectId decodes data }) hk)

theorem liveAt_setData {p : Process} (k j : Nat) (objectId : UInt64) (decodes : Bytes → Bool)
    (data : Option Bytes) :
    (liveAt (setData p k objectId decodes data) j).isSome = (liveAt p j).isSome := by
  rw [liveAt, liveAt, setData, List.getElem?_modify]
  cases p.objects[j]? with
  | none => rfl
  | some x =>
    by_cases hkj : k = j
    · cases hx : x.ended <;> simp [hkj, hx]
    · simp [hkj]

theorem shared_setData {p : Process} (h : Shared p) {k : Nat} {owner : Owner}
    (hk : liveAt p k = some owner) (objectId : UInt64) (decodes : Bytes → Bool)
    (data : Option Bytes) : Shared (setData p k objectId decodes data) where
  good := h.good
  owners := h.owners.trans (live_setData (liveAt_eq.mp hk) objectId decodes data).symm
  running := h.running
  handles call hc hstage := by
    rw [liveAt_setData]
    exact h.handles call hc hstage
  stream := h.stream
  joined := h.joined
  runs := h.runs
  pending := h.pending

/-- The destructor of one owner leaves the others, and the last one's begins `~Submitter`. -/
theorem shared_destroy {p : Process} (h : Shared p) {k n : Nat} {owner : Owner}
    (hk : liveAt p k = some owner) (huse : ¬ InUse p k) (hn : p.useCount = n + 1) :
    Shared { p with
      objects := p.objects.modify k fun x => { x with ended := true }
      useCount := n
      phase := if n = 0 then .destroying else p.phase } := by
  have hrunning := h.running_of_live hk
  have hcount := countP_modify (fun x : Object => !x.ended) (fun x => { x with ended := true })
    (liveAt_eq.mp hk)
  have howners := h.owners
  constructor
  case good => exact h.good
  case owners =>
    rw [hn] at howners
    simp only [live, Bool.not_false, Bool.not_true, Bool.toNat_true, Bool.toNat_false] at *
    omega
  case running =>
    dsimp only
    split
    · next hzero => simp [hzero]
    · next hpos => simp [hrunning, Nat.pos_of_ne_zero hpos]
  case handles =>
    intro call hc hstage
    have hne : call.handle ≠ k := fun heq => huse ⟨call, hc, heq, hstage⟩
    have hkeep : (p.objects.modify k fun x => { x with ended := true })[call.handle]? =
        p.objects[call.handle]? := List.getElem?_modify_ne _ _ hne.symm
    have hlive := h.handles call hc hstage
    rw [liveAt] at hlive ⊢
    rw [hkeep]
    exact hlive
  case stream =>
    have hstream := h.stream
    rw [hrunning] at hstream
    dsimp only
    split
    · exact hstream
    · rw [hrunning]
      exact hstream
  case joined =>
    intro hwhole
    dsimp only at hwhole
    split at hwhole
    · cases hwhole
    · exact h.joined hwhole
  case runs =>
    intro hended
    exact absurd hrunning (h.runs hended).1
  case pending =>
    intro hphase
    dsimp only at hphase
    split at hphase
    · rcases hphase with hphase | hphase <;> cases hphase
    · exact h.pending hphase

/-- Once the destructor has begun, nobody owns the submitter. -/
theorem Shared.running_past {p : Process} (h : Shared p) {phase : Phase}
    (hold : p.phase ≠ .running) (hnew : phase ≠ .running) : phase = .running ↔ 0 < p.useCount :=
  ⟨fun heq => absurd heq hnew, fun hpos => absurd (h.running.mpr hpos) hold⟩

theorem shared_moves {order : ByteOrder} {p q : Process} {a : Action} (h : Shared p)
    (hm : Moves order p a q) : Shared q := by
  have hstream := h.stream
  cases hm with
  | getService hk => exact shared_addOwner h (h.running_of_live hk) _
  | copy hk => exact shared_addOwner h (h.running_of_live hk) _
  | requestObjectID hk _ =>
    refine ⟨h.good, h.owners, h.running, fun call hc hstage => ?_, hstream, h.joined, h.runs,
      h.pending⟩
    rcases List.mem_append.mp hc with hc | hc
    · exact h.handles call hc hstage
    · rw [List.mem_singleton.mp hc]
      change (liveAt p _).isSome = true
      rw [hk]
      rfl
  | @submit c call submitter hc hstage _ =>
    have hstage' : call.stage ≠ .returned := by rw [hstage]; decide
    have hset := shared_setStage h hc hstage' .submitted
    have hrunning := h.running_of_calling hc hstage'
    refine ⟨h.good, h.owners, h.running, hset.handles, ?_, h.joined, h.runs, ?_⟩
    · simp only [setStage, List.length_append, List.length_singleton]
      omega
    · rintro (hphase | hphase) <;> exact absurd (hrunning.symm.trans hphase) nofun
  | @makeFuture c call made hc hstage _ =>
    have hstage' : call.stage ≠ .returned := by rw [hstage]; decide
    exact shared_addOwner (shared_setStage h hc hstage' .returned)
      (h.running_of_calling hc hstage') _
  | got _ => exact h
  | get hk => exact shared_setData h hk _ _ _
  | destroy hk huse hn => exact shared_destroy h hk huse hn
  | begin hio hphase hmem =>
    have hpos := List.length_pos_of_mem hmem
    refine ⟨h.good, h.owners, h.running, h.handles, ?_, fun hwhole => ?_, nofun, fun hdone => ?_⟩
    · rw [hio] at hstream
      simp only [IoThread.handlers, List.length_erase_of_mem hmem] at hstream ⊢
      omega
    · exact absurd (hio.symm.trans (h.joined hwhole)) nofun
    · rw [h.pending hdone] at hmem
      cases hmem
  | @handle completion submitter hio _ =>
    have hphase := (h.handling hio).1
    rw [hio] at hstream
    cases completion with
    | received b =>
      refine ⟨h.good, h.owners, h.running, h.handles, ?_, fun hwhole => ?_, nofun, ?_⟩
      · simp only [readOn, IoThread.handlers, List.length_append, List.length_singleton]
          at hstream ⊢
        omega
      · exact absurd (hphase.symm.trans hwhole) nofun
      · rintro (hdone | hdone) <;> exact absurd (hdone ▸ hphase) nofun
    | _ =>
      exact ⟨h.good, h.owners, h.running, h.handles, hstream,
        fun hwhole => absurd (hphase.symm.trans hwhole) nofun, nofun, h.pending⟩
  | leave hio hpos =>
    refine ⟨h.good, h.owners, h.running, h.handles, ?_, fun hwhole => ?_, nofun, h.pending⟩
    · rw [hio] at hstream
      simp only [IoThread.handlers] at hstream ⊢
      omega
    · exact absurd (hio.symm.trans (h.joined hwhole)) nofun
  | exit hio hphase =>
    refine ⟨h.good, h.owners, h.running, h.handles, ?_, fun _ => rfl, fun _ => ?_, h.pending⟩
    · rw [hio] at hstream
      exact hstream
    · rw [hphase]
      decide
  | stop hphase =>
    have hrunning : p.phase ≠ .running := by rw [hphase]; decide
    rw [hphase] at hstream
    exact ⟨h.good, h.owners, h.running_past hrunning nofun, h.handles, hstream, nofun,
      fun _ => ⟨nofun, nofun⟩, by rintro (hdone | hdone) <;> cases hdone⟩
  | join hphase hio =>
    have hrunning : p.phase ≠ .running := by rw [hphase]; decide
    rw [hphase] at hstream
    exact ⟨h.good, h.owners, h.running_past hrunning nofun, h.handles, hstream, fun _ => hio,
      fun _ => ⟨nofun, nofun⟩, by rintro (hdone | hdone) <;> cases hdone⟩
  | releaseStream hphase hpos =>
    have hrunning : p.phase ≠ .running := by rw [hphase]; decide
    refine ⟨h.good, h.owners, h.running_past hrunning nofun, h.handles, ?_,
      fun _ => h.joined (by rw [hphase]; rfl), fun _ => ⟨nofun, nofun⟩,
      by rintro (hdone | hdone) <;> cases hdone⟩
    rw [hphase] at hstream
    simp only [Phase.stream] at hstream ⊢
    omega
  | destroyIoService hphase hle =>
    have hrunning : p.phase ≠ .running := by rw [hphase]; decide
    refine ⟨h.good, h.owners, h.running_past hrunning nofun, h.handles, ?_,
      fun _ => h.joined (by rw [hphase]; rfl), fun _ => ⟨nofun, nofun⟩, fun _ => rfl⟩
    rw [hphase] at hstream
    simp only [Phase.stream, List.length_nil] at hstream ⊢
    omega
  | free hphase =>
    have hrunning : p.phase ≠ .running := by rw [hphase]; decide
    rw [hphase] at hstream
    exact ⟨h.good, h.owners, h.running_past hrunning nofun, h.handles, hstream,
      fun _ => h.joined (by rw [hphase]; rfl), fun _ => ⟨nofun, nofun⟩,
      fun _ => h.pending (.inl hphase)⟩

theorem shared_step {order : ByteOrder} {p q : Process} {a : Action} (h : Shared p)
    (hs : step order p a = some q) : Shared q :=
  shared_moves h (step_moves h hs)

theorem shared_reach {order : ByteOrder} {p : Process} (h : Reach (step order) Any connected p) :
    Shared p :=
  h.invariant shared_connected fun _ _ _ hi _ hs => shared_step hi hs

/-! The submitter and the futures -/

theorem running_iff_live {p : Process} (h : Shared p) :
    p.phase = .running ↔ ∃ k owner, liveAt p k = some owner := by
  refine ⟨fun hrunning => ?_, fun ⟨k, owner, hk⟩ => h.running_of_live hk⟩
  have hpos : 0 < live p.objects := h.owners ▸ h.running.mp hrunning
  obtain ⟨⟨owner, ended⟩, hmem, hlive⟩ := List.countP_pos_iff.mp hpos
  obtain ⟨k, hk⟩ := List.mem_iff_getElem?.mp hmem
  obtain rfl : ended = false := by simpa using hlive
  exact ⟨k, owner, liveAt_eq.mpr hk⟩

/-- The steps of the destructor, and of the io thread with the handler it has in hand. -/
def Own : Action → Prop
  | .handle | .leave | .exit | .stop | .join | .releaseStream | .destroyIoService | .free => True
  | _ => False

/-- The io thread takes a handler, whose completion has come from outside. -/
def Action.begins : Action → Bool
  | .begin _ => true
  | _ => false

/-- Without an owner nobody calls, copies or destroys. -/
theorem own_or_begins {order : ByteOrder} {p q : Process} {a : Action} (h : Shared p)
    (hnone : ∀ k, liveAt p k = none) (hm : Moves order p a q) : Own a ∨ a.begins = true := by
  have hcalling : ∀ {c : Nat} {call : Calling}, p.calling[c]? = some call →
      call.stage = .returned := by
    intro c call hc
    by_contra hstage
    have hlive := h.handles call (List.mem_of_getElem? hc) hstage
    rw [hnone] at hlive
    cases hlive
  cases hm with
  | getService hk | copy hk | requestObjectID hk _ | got hk | get hk | destroy hk _ _ =>
    rw [hnone] at hk
    cases hk
  | submit hc hstage _ | makeFuture hc hstage _ => cases hstage.symm.trans (hcalling hc)
  | begin _ _ _ => exact .inr rfl
  | _ => exact .inl trivial

def Phase.work : Phase → Nat
  | .running | .destroying => 5
  | .stopped => 4
  | .joined => 3
  | .streamReleased => 2
  | .handlersDestroyed => 1
  | .freed => 0

def IoThread.work : IoThread → Nat
  | .handling _ => 3
  | .handled => 2
  | .waiting => 1
  | .ended => 0

def work (p : Process) : Nat := p.phase.work + p.ioThread.work

theorem work_le (p : Process) : work p ≤ 8 := by
  have hphase : p.phase.work ≤ 5 := by cases p.phase <;> decide
  have hio : p.ioThread.work ≤ 3 := by cases p.ioThread <;> simp [IoThread.work]
  rw [work]
  omega

theorem work_own {order : ByteOrder} {p q : Process} {a : Action} (ha : Own a)
    (hm : Moves order p a q) : work q < work p := by
  cases hm with
  | @handle completion submitter hio _ =>
    have hphase : (readOn p completion).phase = p.phase := by cases completion <;> rfl
    simp only [work, hphase, hio, IoThread.work]
    omega
  | leave hio _ | exit hio _ => simp [work, hio, IoThread.work]
  | stop hphase | join hphase _ | releaseStream hphase _ | destroyIoService hphase _
  | free hphase =>
    simp [work, hphase, Phase.work]
  | _ => exact ha.elim

/-- A handler that is taken makes three steps more, the taking included. -/
theorem work_moves {order : ByteOrder} {p q : Process} {a : Action} (h : Shared p)
    (hnone : ∀ k, liveAt p k = none) (hm : Moves order p a q) :
    work q + 1 ≤ work p + if a.begins then 3 else 0 := by
  rcases own_or_begins h hnone hm with ha | ha
  · have hlt := work_own ha hm
    omega
  · cases hm with
    | begin hio _ _ => simp [work, hio, IoThread.work, Action.begins]
    | _ => cases ha

/-- No owner comes back. -/
theorem none_moves {order : ByteOrder} {p q : Process} {a : Action} (h : Shared p)
    (hnone : ∀ k, liveAt p k = none) (hm : Moves order p a q) : ∀ k, liveAt q k = none := by
  have hkind := own_or_begins h hnone hm
  have hsame : q.objects = p.objects := by
    cases hm with
    | @handle completion submitter _ _ => cases completion <;> rfl
    | begin _ _ _ | leave _ _ | exit _ _ | stop _ | join _ _ | releaseStream _ _
    | destroyIoService _ _ | free _ => rfl
    | _ => exact hkind.elim False.elim nofun
  intro k
  rw [liveAt, hsame]
  exact hnone k

/-- The submitter, its stream and its thread have gone. -/
structure Gone (p : Process) : Prop where
  phase : p.phase = .freed
  ioThread : p.ioThread = .ended
  pending : p.pending = []
  streamCount : p.streamCount = 0

theorem apply_some (order : ByteOrder) (s : Submitter) (completion : Completion) :
    ∃ t, completion.apply order s = some t := by
  cases completion <;> exact ⟨_, rfl⟩

/-- The io thread comes out of `run` once it was told to stop. -/
theorem ended_of_stuck {order : ByteOrder} {p : Process} (h : Shared p)
    (hphase : p.phase = .stopped) (hstuck : Stuck (step order) Own p) : p.ioThread = .ended := by
  cases hio : p.ioThread with
  | ended => rfl
  | waiting =>
    have hnone := hstuck .exit trivial
    simp [step, h.good, hio, hphase] at hnone
  | handling completion =>
    have hnone := hstuck .handle trivial
    obtain ⟨t, ht⟩ := apply_some order p.submitter completion
    simp [step, h.good, hio, handle, h.handling hio, ht] at hnone
  | handled =>
    have hnone := hstuck .leave trivial
    simp [step, h.good, hio] at hnone

theorem gone_of_stuck {order : ByteOrder} {p : Process} (h : Shared p)
    (hnone : p.phase ≠ .running) (hstuck : Stuck (step order) Own p) : Gone p := by
  have hfreed : p.phase = .freed := by
    cases hphase : p.phase with
    | running => exact absurd hphase hnone
    | destroying =>
      have hstop := hstuck .stop trivial
      simp [step, h.good, hphase] at hstop
    | stopped =>
      have hjoin := hstuck .join trivial
      simp [step, h.good, hphase, ended_of_stuck h hphase hstuck] at hjoin
    | joined =>
      have hrelease := hstuck .releaseStream trivial
      simp [step, h.good, hphase] at hrelease
    | streamReleased =>
      have hdestroy := hstuck .destroyIoService trivial
      simp [step, h.good, hphase] at hdestroy
    | handlersDestroyed =>
      have hfree := hstuck .free trivial
      simp [step, h.good, hphase] at hfree
    | freed => rfl
  have hended := h.joined (by rw [hfreed]; rfl)
  have hpending := h.pending (.inr hfreed)
  refine ⟨hfreed, hended, hpending, ?_⟩
  rw [h.stream, hfreed, hended, hpending]
  rfl

/-- No handler is taken once the `io_service` was told to stop. -/
theorem begins_of_stopped {order : ByteOrder} {p q : Process} {a : Action} (h : Shared p)
    (hphase : p.phase ≠ .running ∧ p.phase ≠ .destroying) (hs : step order p a = some q) :
    a.begins = false ∧ q.phase ≠ .running ∧ q.phase ≠ .destroying := by
  have hnone : ∀ k, liveAt p k = none := by
    intro k
    cases hk : liveAt p k with
    | none => rfl
    | some owner => exact absurd (h.running_of_live hk) hphase.1
  have hkind := own_or_begins h hnone (step_moves h hs)
  cases step_moves h hs with
  | begin _ hopen _ => exact absurd hopen (by simp [hphase])
  | @handle completion submitter _ _ =>
    have hsame : (readOn p completion).phase = p.phase := by cases completion <;> rfl
    exact ⟨rfl, by rw [hsame]; exact hphase⟩
  | leave _ _ | exit _ _ => exact ⟨rfl, hphase⟩
  | stop _ | join _ _ | releaseStream _ _ | destroyIoService _ _ | free _ =>
    exact ⟨rfl, nofun, nofun⟩
  | _ => exact hkind.elim False.elim nofun

/-- When no owner is left, wherever the io thread is: the two threads take at most eight
steps, and three for each handler that the io thread takes before it is told to stop. In
every order they end the io thread and free the submitter and its stream, and neither waits
for the other for ever. -/
theorem last_owner_frees {order : ByteOrder} {p : Process}
    (h : Reach (step order) Any connected p) (hnone : ∀ k, liveAt p k = none) :
    (∀ acts q, run (step order) p acts = some q → acts.length ≤ 8 + 3 * acts.countP Action.begins) ∧
    (∀ q, Reach (step order) Any p q → q.phase ≠ .destroying →
      ∀ a u, step order q a = some u → a.begins = false ∧ u.phase ≠ .destroying) ∧
    (∀ q, Reach (step order) Any p q → Stuck (step order) Own q → Gone q) ∧
    ∃ acts q, ComesToRest (step order) Own p acts q ∧ Gone q := by
  have hi := shared_reach h
  have hkeep : ∀ u a v, (Shared u ∧ ∀ k, liveAt u k = none) → step order u a = some v →
      Shared v ∧ ∀ k, liveAt v k = none := fun u a v hu hs =>
    ⟨shared_step hu.1 hs, none_moves hu.1 hu.2 (step_moves hu.1 hs)⟩
  have hreach : ∀ q, Reach (step order) Any p q → Shared q ∧ q.phase ≠ .running := fun q hq => by
    obtain ⟨hshared, hgone⟩ := hq.invariant (I := fun u => Shared u ∧ ∀ k, liveAt u k = none)
      ⟨hi, hnone⟩ fun u a v hu _ hs => hkeep u a v hu hs
    refine ⟨hshared, fun hrunning => ?_⟩
    obtain ⟨k, owner, hk⟩ := (running_iff_live hshared).mp hrunning
    rw [hgone k] at hk
    cases hk
  have hgone : ∀ q, Reach (step order) Any p q → Stuck (step order) Own q → Gone q :=
    fun q hq hstuck => gone_of_stuck (hreach q hq).1 (hreach q hq).2 hstuck
  refine ⟨fun acts q hrun => ?_, fun q hq hphase a u hs => ?_, hgone, ?_⟩
  · have hlength := length_le_of_disturbed (E := fun _ => True) (d := Action.begins)
      (fun u a v hu _ hs => ⟨hkeep u a v hu hs, work_moves hu.1 hu.2 (step_moves hu.1 hs)⟩)
      ⟨hi, hnone⟩ hrun fun _ _ => trivial
    have hle := work_le p
    omega
  · obtain ⟨hshared, hrunning⟩ := hreach q hq
    obtain ⟨hbegins, -, hdestroying⟩ := begins_of_stopped hshared ⟨hrunning, hphase⟩ hs
    exact ⟨hbegins, hdestroying⟩
  · have hdec : ∀ u a v, (Shared u ∧ ∀ k, liveAt u k = none) → Own a → step order u a = some v →
        (Shared v ∧ ∀ k, liveAt v k = none) ∧ work v < work u := fun u a v hu ha hs =>
      ⟨hkeep u a v hu hs, work_own ha (step_moves hu.1 hs)⟩
    obtain ⟨acts, q, hrest⟩ := exists_rest (terminates_of_measure wellFounded_lt work hdec
      ⟨hi, hnone⟩)
    exact ⟨acts, q, hrest, hgone q (Reach.of_run hrest.replays) hrest.stuck⟩

/-- The last owner goes while the io thread is in a handler, and the next byte is there
before `stop`. -/
def goneInHandler : List Action := [.begin (.received 0), .destroy 0, .handle, .leave]

theorem last_owner_frees_goneInHandler : ∃ p q,
    run (step .little) connected goneInHandler = some p ∧ (∀ k, liveAt p k = none) ∧
    run (step .little) p [.begin (.received 0), .stop] = some q ∧
    (∀ acts q, run (step .little) p acts = some q →
      acts.length ≤ 8 + 3 * acts.countP Action.begins) ∧
    (∀ q, Reach (step .little) Any p q → q.phase ≠ .destroying →
      ∀ a u, step .little q a = some u → a.begins = false ∧ u.phase ≠ .destroying) ∧
    (∀ q, Reach (step .little) Any p q → Stuck (step .little) Own q → Gone q) ∧
    ∃ acts q, ComesToRest (step .little) Own p acts q ∧ Gone q := by
  obtain ⟨p, hp⟩ : ∃ p, run (step .little) connected goneInHandler = some p := ⟨_, rfl⟩
  obtain ⟨q, hq⟩ : ∃ q, run (step .little) p [.begin (.received 0), .stop] = some q := by
    cases hp
    exact ⟨_, rfl⟩
  have hnone : ∀ k, liveAt p k = none := by
    cases hp
    rintro (_ | k) <;> rfl
  exact ⟨p, q, hp, hnone, hq, last_owner_frees (Reach.of_run hp) hnone⟩

end Dousi.Client.SharedOwnership
