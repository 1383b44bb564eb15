import Dousi.Stream.RoundTrip

/-!
# One direction of a connection

A `Write` puts its frame on the wire as a whole and in the order of the calls; the
peer takes the bytes one by one. What was read and what is still on the wire are
together the frames of all messages written, which is a field of the link. The peer's
read loop is a function of the bytes it has read.
-/
namespace Dousi.Stream.Connection

open Dousi.Lib.Word
open AsioStream RoundTrip

structure Link (order : ByteOrder) where
  sent : List Message
  read : Bytes
  wire : Bytes
  whole : read ++ wire = writeAll order sent

namespace Link
variable {order : ByteOrder}

def unused : Link order := ⟨[], [], [], rfl⟩

def write (l : Link order) (m : Message) : Link order where
  sent := l.sent ++ [m]
  read := l.read
  wire := l.wire ++ AsioStream.write order m
  whole := by
    rw [← List.append_assoc, l.whole]
    simp [writeAll]

/-- The next byte, and the link after it was read. -/
def receive (l : Link order) : Option (UInt8 × Link order) :=
  match h : l.wire with
  | [] => none
  | b :: rest => some (b, {
      sent := l.sent
      read := l.read ++ [b]
      wire := rest
      whole := by rw [List.append_assoc, List.singleton_append, ← h, l.whole] })

/-- The read loop of the peer. -/
def loop (l : Link order) : ReadLoop := ReadLoop.start.receiveAll order l.read

theorem write_loop (l : Link order) (m : Message) : (l.write m).loop = l.loop := rfl

theorem receive_cases {l l' : Link order} {b : UInt8} (h : l.receive = some (b, l')) :
    l'.sent = l.sent ∧ l'.loop = l.loop.receive order b := by
  unfold receive at h
  split at h
  · cases h
  · cases h
    refine ⟨rfl, ?_⟩
    simp only [loop, ReadLoop.receiveAll_append]
    rfl

/-- The peer has been delivered the first of the messages written. -/
theorem delivered_prefix_sent (l : Link order) (h : ∀ m ∈ l.sent, m.data.length < 2 ^ 32) :
    l.loop.delivered <+: l.sent := by
  have hread : l.read = (writeAll order l.sent).take l.read.length := by
    rw [← l.whole, List.take_left]
  rw [loop, hread, start_eq, receiveAll_take order [] l.sent h, List.nil_append]
  exact List.take_prefix ..

/-- A message whose length its header cannot tell is delivered without its bytes. -/
theorem loop_of_zero_header {l : Link order} {m : Message} {rest : List Message}
    (hsent : l.sent = m :: rest) (hz : header m.data = 0) (hread : l.read.length = 8) :
    l.loop = idle [⟨m.objectId, []⟩] := by
  have hbytes : l.read = frame order m.objectId 0 [] := by
    have hwhole := congrArg (List.take 8) l.whole
    rw [← hread, List.take_left] at hwhole
    rw [hwhole, hread, hsent, writeAll, List.flatMap_cons, AsioStream.write, hz, frame,
      List.append_nil, List.append_assoc]
    exact List.take_left' (by simp)
  rw [loop, hbytes, start_eq, receiveAll_frame order [] m.objectId 0 [] rfl, List.nil_append]

end Link

end Dousi.Stream.Connection
