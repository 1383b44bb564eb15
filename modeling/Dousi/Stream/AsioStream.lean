import Dousi.Lib.Word

/-!
# AsioStream: the frame writer and the three-stage read loop

`write` is the byte sequence that one `AsioStream::Write` hands to `async_write`:
object id, body length, body. The read loop is the callback chain `DoReadObjectID`,
`DoReadHeader`, `DoReadBody`, driven one received byte at a time. An `async_read`
completes exactly when its buffer is full, at once for an empty buffer.
-/
namespace Dousi.Stream.AsioStream

open Dousi.Lib.Word

/-- What one `Write` sends and one `invocation_callback_` receives. -/
structure Message where
  objectId : UInt32
  data : Bytes
  deriving DecidableEq, Repr

/-- `make_shared<uint32_t>(data.size())`: the 64-bit size is narrowed silently. -/
def header (data : Bytes) : UInt32 := UInt32.ofNat data.length

/-- The three const buffers gathered by `AsioStream::Write`. -/
def write (order : ByteOrder) (m : Message) : Bytes :=
  order.image m.objectId ++ order.image (header m.data) ++ m.data

/-- The bytes of messages written one after another. -/
def writeAll (order : ByteOrder) (ms : List Message) : Bytes := ms.flatMap (write order)

/-- The `async_read` in progress, with what its completion handler has captured. -/
inductive Stage where
  | objectId
  | header (objectId : UInt32)
  | body (objectId bodySize : UInt32)
  | stopped
  deriving DecidableEq, Repr

/-- The size of the buffer given to `async_read`. -/
def Stage.size : Stage → Nat
  | .objectId => 4
  | .header _ => 4
  | .body _ bodySize => bodySize.toNat
  | .stopped => 0

/-- A read loop: the read in progress, the bytes in its buffer and the callbacks made. -/
structure ReadLoop where
  stage : Stage
  buffer : Bytes
  delivered : List Message
  deriving DecidableEq, Repr

namespace ReadLoop

def doReadObjectID (l : ReadLoop) : ReadLoop := { l with stage := .objectId, buffer := [] }

def doReadHeader (l : ReadLoop) (objectId : UInt32) : ReadLoop :=
  { l with stage := .header objectId, buffer := [] }

/-- The handler in `DoReadBody`: the callback, then the next `DoReadObjectID`. -/
def onBody (l : ReadLoop) (objectId : UInt32) (buffer : Bytes) : ReadLoop :=
  doReadObjectID { l with delivered := l.delivered ++ [⟨objectId, buffer⟩] }

def doReadBody (l : ReadLoop) (objectId bodySize : UInt32) : ReadLoop :=
  -- a zero-length buffer is full at once
  if bodySize = 0 then l.onBody objectId []
  else { l with stage := .body objectId bodySize, buffer := [] }

/-- The completion handlers without an error code. -/
def onRead (order : ByteOrder) (l : ReadLoop) (buffer : Bytes) : ReadLoop :=
  match l.stage with
  | .objectId => l.doReadHeader (order.word buffer)
  | .header objectId => l.doReadBody objectId (order.word buffer)
  | .body objectId _ => l.onBody objectId buffer
  | .stopped => l

/-- One more byte arrives for the read in progress. -/
def receive (order : ByteOrder) (l : ReadLoop) (b : UInt8) : ReadLoop :=
  if l.stage = .stopped then l
  else if (l.buffer ++ [b]).length = l.stage.size then l.onRead order (l.buffer ++ [b])
  else { l with buffer := l.buffer ++ [b] }

def receiveAll (order : ByteOrder) (l : ReadLoop) (bs : Bytes) : ReadLoop :=
  bs.foldl (receive order) l

/-- The completion handlers with an error code only log and return. -/
def fail (l : ReadLoop) : ReadLoop := { l with stage := .stopped }

/-- `Start()`. -/
def start : ReadLoop := doReadObjectID ⟨.stopped, [], []⟩

theorem receiveAll_append (order : ByteOrder) (l : ReadLoop) (left right : Bytes) :
    l.receiveAll order (left ++ right) = (l.receiveAll order left).receiveAll order right :=
  List.foldl_append

/-- Fewer bytes than the read in progress lacks only go to its buffer. -/
theorem receiveAll_short (order : ByteOrder) (l : ReadLoop) (bs : Bytes)
    (hs : l.stage ≠ .stopped) (h : l.buffer.length + bs.length < l.stage.size) :
    l.receiveAll order bs = { l with buffer := l.buffer ++ bs } := by
  induction bs generalizing l with
  | nil => simp [receiveAll]
  | cons b rest ih =>
    simp only [List.length_cons] at h
    have hb : l.receive order b = { l with buffer := l.buffer ++ [b] } := by
      rw [receive, if_neg hs, if_neg (by simp; omega)]
    have hr := ih { l with buffer := l.buffer ++ [b] } hs (by
      simp only [List.length_append, List.length_singleton]; omega)
    change (l.receive order b).receiveAll order rest = _
    rw [hb, hr]
    simp only [List.append_assoc, List.singleton_append]

/-- The handlers take the bytes read, whatever the buffer held before them. -/
theorem onRead_buffer (order : ByteOrder) (l : ReadLoop) (held bs : Bytes)
    (hs : l.stage ≠ .stopped) : { l with buffer := held }.onRead order bs = l.onRead order bs := by
  cases h : l.stage with
  | stopped => exact absurd h hs
  | objectId => simp only [onRead, h]; rfl
  | header objectId => simp only [onRead, h]; unfold doReadBody; split <;> rfl
  | body objectId bodySize => simp only [onRead, h]; rfl

/-- Exactly the bytes that the read in progress lacks run its handler. -/
theorem receiveAll_full (order : ByteOrder) (l : ReadLoop) (bs : Bytes)
    (hs : l.stage ≠ .stopped) (hne : bs ≠ []) (h : l.buffer.length + bs.length = l.stage.size) :
    l.receiveAll order bs = l.onRead order (l.buffer ++ bs) := by
  obtain ⟨front, b, rfl⟩ := List.eq_nil_or_concat bs |>.resolve_left hne
  simp only [List.concat_eq_append, List.length_append, List.length_singleton] at h ⊢
  rw [receiveAll_append, receiveAll_short order l front hs (by omega)]
  change receive order _ b = _
  rw [receive, if_neg hs, if_pos (by simp; omega)]
  simp only [List.append_assoc]
  exact onRead_buffer order l _ _ hs

/-- A byte completes at most one message. -/
theorem receive_delivered (order : ByteOrder) (l : ReadLoop) (b : UInt8) :
    (l.receive order b).delivered = l.delivered ∨
      ∃ m, (l.receive order b).delivered = l.delivered ++ [m] := by
  unfold receive
  split
  · exact .inl rfl
  · split
    · cases hs : l.stage with
      | objectId => left; simp [onRead, hs, doReadHeader]
      | header objectId =>
        simp only [onRead, hs, doReadBody]
        split
        · right; exact ⟨_, rfl⟩
        · left; rfl
      | body objectId bodySize =>
        simp only [onRead, hs, onBody, doReadObjectID]
        right; exact ⟨_, rfl⟩
      | stopped => left; simp [onRead, hs]
    · exact .inl rfl

/-- Callbacks are not taken back. -/
theorem receiveAll_delivered (order : ByteOrder) (l : ReadLoop) (bs : Bytes) :
    l.delivered <+: (l.receiveAll order bs).delivered := by
  induction bs generalizing l with
  | nil => exact List.prefix_refl _
  | cons b rest ih =>
    have hb : l.delivered <+: (l.receive order b).delivered := by
      rcases receive_delivered order l b with h | ⟨m, h⟩
      · exact h ▸ List.prefix_refl _
      · exact h ▸ List.prefix_append ..
    exact hb.trans (ih (l.receive order b))

end ReadLoop

end Dousi.Stream.AsioStream
