import Dousi.Stream.AsioStream

/-!
# Writer and read loop undo each other, also on a cut stream

The read loop is followed frame by frame. A frame whose header tells the length
of its body is delivered as it was written; a strict prefix of such a frame
delivers nothing. The cut theorem composes the two along the list of messages.
-/
namespace Dousi.Stream.RoundTrip

open Dousi.Lib.Word
open AsioStream

/-- A read loop that waits for an object id with nothing half read. -/
def idle (delivered : List Message) : ReadLoop := ⟨.objectId, [], delivered⟩

theorem idle_stage (d : List Message) : (idle d).stage ≠ .stopped := Stage.noConfusion

/-- The bytes of a frame with a given header. -/
def frame (order : ByteOrder) (objectId bodySize : UInt32) (body : Bytes) : Bytes :=
  order.image objectId ++ order.image bodySize ++ body

theorem start_eq : ReadLoop.start = idle [] := rfl

theorem write_eq_frame (order : ByteOrder) (m : Message) :
    write order m = frame order m.objectId (header m.data) m.data := rfl

@[simp] theorem write_length (order : ByteOrder) (m : Message) :
    (write order m).length = 8 + m.data.length := by
  simp only [write, List.length_append, image_length]

theorem write_ne_nil (order : ByteOrder) (m : Message) : write order m ≠ [] :=
  List.ne_nil_of_length_pos (by rw [write_length]; omega)

theorem header_toNat {data : Bytes} (h : data.length < 2 ^ 32) :
    (header data).toNat = data.length := by
  rw [header, UInt32.toNat_ofNat_of_lt' h]

theorem receiveAll_objectId (order : ByteOrder) (d : List Message) (objectId : UInt32) :
    (idle d).receiveAll order (order.image objectId) = ⟨.header objectId, [], d⟩ := by
  rw [ReadLoop.receiveAll_full _ _ _ (idle_stage d)
    (List.ne_nil_of_length_pos (by simp)) (by simp [idle, Stage.size])]
  simp [idle, ReadLoop.onRead, ReadLoop.doReadHeader]

theorem receiveAll_header (order : ByteOrder) (d : List Message) (objectId bodySize : UInt32) :
    (ReadLoop.mk (.header objectId) [] d).receiveAll order (order.image bodySize) =
      (idle d).doReadBody objectId bodySize := by
  rw [ReadLoop.receiveAll_full _ _ _ (by simp)
    (List.ne_nil_of_length_pos (by simp)) (by simp [Stage.size])]
  simp only [ReadLoop.onRead, List.nil_append, word_image, ReadLoop.doReadBody]
  split <;> rfl

theorem receiveAll_body (order : ByteOrder) (d : List Message) (objectId bodySize : UInt32)
    (body : Bytes) (hb : body.length = bodySize.toNat) :
    ((idle d).doReadBody objectId bodySize).receiveAll order body =
      idle (d ++ [⟨objectId, body⟩]) := by
  by_cases hz : bodySize = 0
  · have hnil : body = [] := List.length_eq_zero_iff.mp (by rw [hb, hz]; rfl)
    subst hnil
    simp [ReadLoop.doReadBody, hz, ReadLoop.onBody, ReadLoop.doReadObjectID, idle,
      ReadLoop.receiveAll]
  · have hpos : 0 < bodySize.toNat := Nat.pos_of_ne_zero fun h => hz (UInt32.toNat_inj.mp h)
    rw [ReadLoop.doReadBody, if_neg hz, ReadLoop.receiveAll_full _ _ _ (by simp)
      (List.ne_nil_of_length_pos (by omega)) (by simpa [Stage.size] using hb)]
    simp [ReadLoop.onRead, ReadLoop.onBody, ReadLoop.doReadObjectID, idle]

/-- A complete frame makes one callback and leaves nothing half read. -/
theorem receiveAll_frame (order : ByteOrder) (d : List Message) (objectId bodySize : UInt32)
    (body : Bytes) (hb : body.length = bodySize.toNat) :
    (idle d).receiveAll order (frame order objectId bodySize body) =
      idle (d ++ [⟨objectId, body⟩]) := by
  rw [frame, ReadLoop.receiveAll_append, ReadLoop.receiveAll_append, receiveAll_objectId,
    receiveAll_header, receiveAll_body order d objectId bodySize body hb]

/-- A strict prefix of a frame makes no callback. -/
theorem receiveAll_partial (order : ByteOrder) (d : List Message) (objectId bodySize : UInt32)
    (body : Bytes) (hb : body.length = bodySize.toNat) (k : Nat)
    (hk : k < (frame order objectId bodySize body).length) :
    ((idle d).receiveAll order ((frame order objectId bodySize body).take k)).delivered = d := by
  have hlen : k < 4 + 4 + body.length := by
    simpa only [frame, List.length_append, image_length] using hk
  by_cases h4 : k < 4
  · rw [frame, List.append_assoc, List.take_append_of_le_length (by simp; omega),
      ReadLoop.receiveAll_short _ _ _ (idle_stage d) (by simp [idle, Stage.size]; omega)]
    rfl
  by_cases h8 : k < 8
  · rw [frame, List.append_assoc, List.take_append, List.take_of_length_le (by simp; omega),
      image_length, ReadLoop.receiveAll_append, receiveAll_objectId,
      List.take_append_of_le_length (by simp; omega),
      ReadLoop.receiveAll_short _ _ _ (by simp) (by simp [Stage.size]; omega)]
  · have hz : bodySize ≠ 0 := by
      rintro rfl
      have h0 : (0 : UInt32).toNat = 0 := rfl
      omega
    rw [frame, List.take_append, List.take_of_length_le (by simp; omega),
      ReadLoop.receiveAll_append, ReadLoop.receiveAll_append, receiveAll_objectId,
      receiveAll_header, ReadLoop.doReadBody, if_neg hz,
      ReadLoop.receiveAll_short _ _ _ (by simp) (by simp [Stage.size]; omega)]
    rfl

theorem receiveAll_write (order : ByteOrder) (d : List Message) (m : Message)
    (hm : m.data.length < 2 ^ 32) :
    (idle d).receiveAll order (write order m) = idle (d ++ [m]) := by
  rw [write_eq_frame, receiveAll_frame _ _ _ _ _ (header_toNat hm).symm]

/-- How many frames of a list fit in the first `k` bytes. -/
def fitCount (order : ByteOrder) : Nat → List Message → Nat
  | _, [] => 0
  | k, m :: ms =>
    if (write order m).length ≤ k then fitCount order (k - (write order m).length) ms + 1 else 0

theorem fitCount_le (order : ByteOrder) (k : Nat) (ms : List Message) :
    fitCount order k ms ≤ ms.length := by
  induction ms generalizing k with
  | nil => simp [fitCount]
  | cons m ms ih =>
    have h := ih (k - (write order m).length)
    simp only [fitCount, List.length_cons]
    split <;> omega

theorem fitCount_fits (order : ByteOrder) (k : Nat) (ms : List Message) :
    (writeAll order (ms.take (fitCount order k ms))).length ≤ k := by
  induction ms generalizing k with
  | nil => simp [fitCount, writeAll]
  | cons m ms ih =>
    simp only [fitCount]
    split
    · next hle =>
      have h := ih (k - (write order m).length)
      simp only [writeAll, List.take_succ_cons, List.flatMap_cons, List.length_append] at h ⊢
      omega
    · simp [writeAll]

theorem fitCount_longest (order : ByteOrder) (k : Nat) (ms : List Message) (i : Nat)
    (hi : i ≤ ms.length) (hfit : (writeAll order (ms.take i)).length ≤ k) :
    i ≤ fitCount order k ms := by
  induction ms generalizing k i with
  | nil => exact Nat.le_trans hi (Nat.zero_le _)
  | cons m ms ih =>
    cases i with
    | zero => omega
    | succ i =>
      simp only [writeAll, List.take_succ_cons, List.flatMap_cons, List.length_append] at hfit
      have h := ih (k - (write order m).length) i (by simpa using hi)
        (by simp only [writeAll]; omega)
      simp only [fitCount]
      rw [if_pos (by omega)]
      omega

/-- The callbacks made on the first `k` bytes, whole frames first and then a part of one. -/
theorem receiveAll_take (order : ByteOrder) (d ms : List Message)
    (hfit : ∀ m ∈ ms, m.data.length < 2 ^ 32) (k : Nat) :
    ((idle d).receiveAll order ((writeAll order ms).take k)).delivered =
      d ++ ms.take (fitCount order k ms) := by
  induction ms generalizing d k with
  | nil => simp [writeAll, ReadLoop.receiveAll, idle, fitCount]
  | cons m ms ih =>
    have hm : m.data.length < 2 ^ 32 := hfit m (by simp)
    simp only [writeAll, List.flatMap_cons, fitCount]
    by_cases hle : (write order m).length ≤ k
    · rw [if_pos hle, List.take_append, List.take_of_length_le hle, ReadLoop.receiveAll_append,
        receiveAll_write order d m hm]
      rw [show ms.flatMap (write order) = writeAll order ms from rfl,
        ih (d ++ [m]) (fun x hx => hfit x (by simp [hx])) (k - (write order m).length)]
      simp
    · rw [if_neg hle, List.take_append_of_le_length (by omega), write_eq_frame,
        receiveAll_partial _ _ _ _ _ (header_toNat hm).symm k (by rw [← write_eq_frame]; omega)]
      simp

theorem receiveAll_writeAll (order : ByteOrder) (d ms : List Message)
    (hfit : ∀ m ∈ ms, m.data.length < 2 ^ 32) :
    (idle d).receiveAll order (writeAll order ms) = idle (d ++ ms) := by
  induction ms generalizing d with
  | nil => simp [writeAll, ReadLoop.receiveAll]
  | cons m ms ih =>
    rw [writeAll, List.flatMap_cons, ReadLoop.receiveAll_append,
      receiveAll_write order d m (hfit m (by simp))]
    rw [show ms.flatMap (write order) = writeAll order ms from rfl,
      ih (d ++ [m]) fun x hx => hfit x (by simp [hx])]
    simp

/-- The read loop fed the first `k` bytes of the frames and then an error makes
one callback for each message of the longest prefix that fits, in order and
unaltered. Fed all bytes it is back waiting for an object id. -/
theorem framing_round_trip (order : ByteOrder) (ms : List Message)
    (hfit : ∀ m ∈ ms, m.data.length < 2 ^ 32) (k : Nat) :
    (∃ j ≤ ms.length,
      (writeAll order (ms.take j)).length ≤ k ∧
      (∀ i ≤ ms.length, (writeAll order (ms.take i)).length ≤ k → i ≤ j) ∧
      (ReadLoop.start.receiveAll order ((writeAll order ms).take k)).fail.delivered =
        ms.take j) ∧
    ReadLoop.start.receiveAll order (writeAll order ms) = ⟨.objectId, [], ms⟩ := by
  refine ⟨⟨fitCount order k ms, fitCount_le order k ms, fitCount_fits order k ms,
    fun i hi h => fitCount_longest order k ms i hi h, ?_⟩, ?_⟩
  · change (ReadLoop.receiveAll order _ _).delivered = _
    rw [start_eq, receiveAll_take order [] ms hfit k, List.nil_append]
  · rw [start_eq, receiveAll_writeAll order [] ms hfit, List.nil_append]
    rfl

/-- Two messages, one of them empty, cut inside the second frame. -/
theorem framing_round_trip_two :
    (∀ m ∈ [Message.mk 7 [], Message.mk 8 [1, 2]], m.data.length < 2 ^ 32) ∧
    ((∃ j ≤ 2,
      (writeAll .little ([Message.mk 7 [], Message.mk 8 [1, 2]].take j)).length ≤ 17 ∧
      (∀ i ≤ 2, (writeAll .little ([Message.mk 7 [], Message.mk 8 [1, 2]].take i)).length ≤ 17 →
        i ≤ j) ∧
      (ReadLoop.start.receiveAll .little
        ((writeAll .little [Message.mk 7 [], Message.mk 8 [1, 2]]).take 17)).fail.delivered =
        [Message.mk 7 [], Message.mk 8 [1, 2]].take j) ∧
    ReadLoop.start.receiveAll .little (writeAll .little [Message.mk 7 [], Message.mk 8 [1, 2]]) =
      ⟨.objectId, [], [Message.mk 7 [], Message.mk 8 [1, 2]]⟩) :=
  ⟨by decide, framing_round_trip .little [⟨7, []⟩, ⟨8, [1, 2]⟩] (by decide) 17⟩

end Dousi.Stream.RoundTrip
