import Dousi.Stream.RoundTrip

/-!
# What the wire format can carry

Nothing in a frame but its two words tells the reader where it ends. The length word is
`data.size()` narrowed to 32 bits, and both words are images in the byte order of the
writing host. A reader that takes either word for another one has lost the stream.
-/
namespace Dousi.Stream.WireFormat

open Dousi.Lib.Word
open AsioStream RoundTrip

/-- The reader cuts as many bytes off as the length word tells. -/
theorem receiveAll_announced (order : ByteOrder) (d : List Message) (objectId bodySize : UInt32)
    {rest : Bytes} (h : bodySize.toNat ≤ rest.length) :
    (idle d).receiveAll order (order.image objectId ++ order.image bodySize ++ rest) =
      (idle (d ++ [⟨objectId, rest.take bodySize.toNat⟩])).receiveAll order
        (rest.drop bodySize.toNat) := by
  have hbody : (rest.take bodySize.toNat).length = bodySize.toNat := by
    rw [List.length_take, Nat.min_eq_left h]
  have hframe := receiveAll_frame order d objectId bodySize _ hbody
  rw [← hframe, ← ReadLoop.receiveAll_append, frame, List.append_assoc _ (rest.take _),
    List.take_append_drop]

/-- With fewer bytes than the length word tells there is no callback. -/
theorem receiveAll_awaiting (order : ByteOrder) (d : List Message) (objectId bodySize : UInt32)
    {rest : Bytes} (h : rest.length < bodySize.toNat) :
    ((idle d).receiveAll order (order.image objectId ++ order.image bodySize ++ rest)).delivered =
      d := by
  let body := rest ++ List.replicate (bodySize.toNat - rest.length) 0
  have hbody : body.length = bodySize.toNat := by simp [body]; omega
  have htake : (frame order objectId bodySize body).take (8 + rest.length) =
      order.image objectId ++ order.image bodySize ++ rest := by
    rw [frame, ← List.append_assoc]
    exact List.take_left' (by simp only [List.length_append, image_length])
  rw [← htake]
  refine receiveAll_partial order d objectId bodySize body hbody _ ?_
  simp only [frame, List.length_append, image_length]
  omega

/-- A reader that is delivered a message in its place has read the two words that the
message has, and goes on behind it. -/
theorem first_delivered {order : ByteOrder} {d ms : List Message} {m : Message}
    {objectId bodySize : UInt32} {rest : Bytes}
    (h : ((idle d).receiveAll order (order.image objectId ++ order.image bodySize ++
      (m.data ++ rest))).delivered = d ++ m :: ms) :
    objectId = m.objectId ∧ bodySize.toNat = m.data.length ∧
      ((idle (d ++ [m])).receiveAll order rest).delivered = d ++ m :: ms := by
  by_cases hlen : bodySize.toNat ≤ (m.data ++ rest).length
  · rw [receiveAll_announced order d objectId bodySize hlen] at h
    have hprefix := ReadLoop.receiveAll_delivered order
      (idle (d ++ [⟨objectId, (m.data ++ rest).take bodySize.toNat⟩]))
      ((m.data ++ rest).drop bodySize.toNat)
    rw [h] at hprefix
    obtain ⟨more, hmore⟩ := hprefix
    have hcons : Message.mk objectId ((m.data ++ rest).take bodySize.toNat) :: more = m :: ms := by
      rw [← List.append_right_inj d, ← hmore]
      simp [idle]
    obtain ⟨hm, -⟩ := List.cons.inj hcons
    have hdata := congrArg Message.data hm
    have hsize : bodySize.toNat = m.data.length := by
      rw [← hdata, List.length_take, Nat.min_eq_left hlen]
    refine ⟨congrArg Message.objectId hm, hsize, ?_⟩
    rw [hm, hsize, List.drop_left] at h
    exact h
  · rw [receiveAll_awaiting order d objectId bodySize (by omega)] at h
    exact absurd (congrArg List.length h) (by simp)

/-! The size of a payload -/

/-- Either nothing of the payload goes on the wire or it is delivered, and the messages
written after it are delivered in any case. -/
def Unharmed (order : ByteOrder) (d : List Message) (m : Message) (later : List Message) : Prop :=
  (write order m = [] ∧
    ((idle d).receiveAll order (writeAll order later)).delivered = d ++ later) ∨
  ((idle d).receiveAll order (writeAll order (m :: later))).delivered = d ++ m :: later

theorem writeAll_cons (order : ByteOrder) (m : Message) (ms : List Message) :
    writeAll order (m :: ms) =
      order.image m.objectId ++ order.image (header m.data) ++ (m.data ++ writeAll order ms) := by
  simp [writeAll, write]

theorem delivered_fits (order : ByteOrder) (d ms : List Message)
    (h : ((idle d).receiveAll order (writeAll order ms)).delivered = d ++ ms) :
    ∀ m ∈ ms, m.data.length < 2 ^ 32 := by
  induction ms generalizing d with
  | nil => simp
  | cons m ms ih =>
    rw [writeAll_cons] at h
    obtain ⟨-, hsize, hlater⟩ := first_delivered h
    have hm : m.data.length < 2 ^ 32 := hsize ▸ (header m.data).toNat_lt
    have hms := ih (d ++ [m]) (by rw [hlater, List.append_assoc]; rfl)
    exact List.forall_mem_cons.mpr ⟨hm, hms⟩

/-- `Write` refuses nothing, so that the payloads have to be delivered. -/
theorem unharmed_fits {order : ByteOrder} {d : List Message} {m : Message} {later : List Message}
    (h : Unharmed order d m later) : ∀ x ∈ m :: later, x.data.length < 2 ^ 32 := by
  rcases h with ⟨hrefused, -⟩ | hall
  · exact absurd hrefused (write_ne_nil order m)
  · exact delivered_fits order d _ hall

/-- A payload leaves the stream unharmed exactly when its size, and that of every later
one, is a 32-bit number. -/
theorem unharmed_iff (order : ByteOrder) (d : List Message) (m : Message)
    (later : List Message) :
    Unharmed order d m later ↔ ∀ x ∈ m :: later, x.data.length < 2 ^ 32 := by
  constructor
  · exact unharmed_fits
  · intro hfit
    right
    rw [receiveAll_writeAll order d _ hfit]
    rfl

theorem header_wrapped : header (List.replicate (2 ^ 32) 0) = 0 := by
  rw [header, List.length_replicate]
  rfl

/-- Of a payload of 2^32 bytes the reader is told the length 0. It delivers an empty
message and takes the payload for frames. -/
theorem wrapped_harmed :
    ¬ Unharmed .little [] ⟨1, List.replicate (2 ^ 32) 0⟩ [⟨2, [7]⟩] ∧
    [⟨1, []⟩] <+: ((idle []).receiveAll .little
      (writeAll .little [⟨1, List.replicate (2 ^ 32) 0⟩, ⟨2, [7]⟩])).delivered := by
  constructor
  · intro h
    have hfit := unharmed_fits h _ List.mem_cons_self
    rw [List.length_replicate] at hfit
    exact absurd hfit (Nat.lt_irrefl _)
  · rw [writeAll_cons, header_wrapped,
      receiveAll_announced .little [] 1 0 (Nat.zero_le _), UInt32.toNat_zero, List.take_zero]
    exact ReadLoop.receiveAll_delivered .little (idle [⟨1, []⟩]) _

/-! The byte order of the two hosts -/

theorem delivered_across (writer reader : ByteOrder) (d ms : List Message)
    (h : ((idle d).receiveAll reader (writeAll writer ms)).delivered = d ++ ms) :
    ∀ m ∈ ms, m.data.length < 2 ^ 32 ∧
      (writer = reader ∨ Palindromic m.objectId ∧ Palindromic (header m.data)) := by
  induction ms generalizing d with
  | nil => simp
  | cons m ms ih =>
    rw [writeAll_cons, ← image_word reader (image_length writer m.objectId),
      ← image_word reader (image_length writer (header m.data))] at h
    obtain ⟨hid, hsize, hlater⟩ := first_delivered h
    have hm : m.data.length < 2 ^ 32 := hsize ▸ UInt32.toNat_lt _
    have hheader : reader.word (writer.image (header m.data)) = header m.data :=
      UInt32.toNat_inj.mp (hsize.trans (header_toNat hm).symm)
    have hms := ih (d ++ [m]) (by rw [hlater, List.append_assoc]; rfl)
    refine List.forall_mem_cons.mpr ⟨⟨hm, ?_⟩, hms⟩
    rcases (word_image_iff ..).mp hid with hsame | hid'
    · exact .inl hsame
    · rcases (word_image_iff ..).mp hheader with hsame | hheader'
      · exact .inl hsame
      · exact .inr ⟨hid', hheader'⟩

theorem write_across {writer reader : ByteOrder} {m : Message}
    (h : writer = reader ∨ Palindromic m.objectId ∧ Palindromic (header m.data)) :
    write writer m = write reader m := by
  have hid := image_eq (h.imp id And.left)
  have hheader := image_eq (h.imp id And.right)
  rw [write, write, hid, hheader]

/-- The messages cross over exactly when their sizes fit and the hosts agree on the byte
order, or no word of any frame depends on it. -/
theorem delivered_across_iff (writer reader : ByteOrder) (ms : List Message) :
    (ReadLoop.start.receiveAll reader (writeAll writer ms)).delivered = ms ↔
      ∀ m ∈ ms, m.data.length < 2 ^ 32 ∧
        (writer = reader ∨ Palindromic m.objectId ∧ Palindromic (header m.data)) := by
  rw [start_eq]
  constructor
  · exact delivered_across writer reader [] ms
  · intro h
    have hsame : writeAll writer ms = writeAll reader ms := by
      rw [writeAll, writeAll, List.flatMap_def, List.flatMap_def,
        List.map_congr_left fun m hm => write_across (h m hm).2]
    rw [hsame, receiveAll_writeAll reader [] ms fun m hm => (h m hm).1]
    rfl

/-- Object id 1 arrives as 2^24 on a host of the other byte order. -/
theorem swapped_delivered :
    (ReadLoop.start.receiveAll .big (writeAll .little [⟨1, []⟩])).delivered = [⟨0x1000000, []⟩] ∧
    ¬ (ReadLoop.start.receiveAll .big (writeAll .little [⟨1, []⟩])).delivered = [⟨1, []⟩] := by
  decide

end Dousi.Stream.WireFormat
