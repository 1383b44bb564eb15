import Dousi.Stream.RoundTrip
import Dousi.Lib.Transition

/-!
# The read loop as a parser of arbitrary bytes

Segments arrive in the receive buffer of the socket. The `async_read` in progress takes
from there, in portions that nobody promises, what its own buffer still lacks. The
callbacks are those of a batch parser that cuts whole frames off the bytes taken, and
what it leaves is a strict prefix of one frame.
-/
namespace Dousi.Stream.Segments

open Dousi.Lib.Word
open Dousi.Lib.Transition
open AsioStream RoundTrip

/-- The bytes that arrived in total are a history. -/
structure Arrival where
  loop : ReadLoop
  pending : Bytes
  arrived : Bytes

inductive Act where
  | segment (bytes : Bytes)
  | readSome (count : Nat)

def initial : Arrival := ⟨.start, [], []⟩

/-- A portion for the read in progress, whose handler runs when the buffer is full. -/
def readSome (order : ByteOrder) (l : ReadLoop) (portion : Bytes) : ReadLoop :=
  if (l.buffer ++ portion).length = l.stage.size then l.onRead order (l.buffer ++ portion)
  else { l with buffer := l.buffer ++ portion }

/-- `async_read` is made of reads of some bytes, never more than its buffer lacks. -/
def step (order : ByteOrder) (s : Arrival) : Act → Option Arrival
  | .segment bytes =>
    some { s with pending := s.pending ++ bytes, arrived := s.arrived ++ bytes }
  | .readSome count =>
    if s.loop.stage ≠ .stopped ∧ 0 < count ∧ count ≤ s.pending.length ∧
        s.loop.buffer.length + count ≤ s.loop.stage.size then
      some { s with
        loop := readSome order s.loop (s.pending.take count)
        pending := s.pending.drop count }
    else none

theorem readSome_eq (order : ByteOrder) (l : ReadLoop) (portion : Bytes)
    (hs : l.stage ≠ .stopped) (hne : portion ≠ [])
    (h : l.buffer.length + portion.length ≤ l.stage.size) :
    readSome order l portion = l.receiveAll order portion := by
  unfold readSome
  by_cases hfull : l.buffer.length + portion.length = l.stage.size
  · rw [if_pos (by simpa using hfull), ReadLoop.receiveAll_full order l portion hs hne hfull]
  · rw [if_neg (by simpa using hfull), ReadLoop.receiveAll_short order l portion hs (by omega)]

/-! The bytes taken and not delivered -/

/-- What the handlers have captured and the buffer holds, as it was on the wire. -/
def undelivered (order : ByteOrder) (l : ReadLoop) : Bytes :=
  match l.stage with
  | .objectId => l.buffer
  | .header objectId => order.image objectId ++ l.buffer
  | .body objectId bodySize => order.image objectId ++ order.image bodySize ++ l.buffer
  | .stopped => []

/-- A read is in progress and its buffer is not full. -/
structure Reading (l : ReadLoop) : Prop where
  running : l.stage ≠ .stopped
  lacks : l.buffer.length < l.stage.size

theorem reading_start : Reading .start := ⟨Stage.noConfusion, by decide⟩

theorem reading_doReadBody (l : ReadLoop) (objectId bodySize : UInt32) :
    Reading (l.doReadBody objectId bodySize) := by
  unfold ReadLoop.doReadBody
  split
  · exact ⟨Stage.noConfusion, Nat.zero_lt_succ 3⟩
  · next hz =>
    exact ⟨Stage.noConfusion, Nat.pos_of_ne_zero fun h => hz (UInt32.toNat_inj.mp h)⟩

theorem reading_receive (order : ByteOrder) {l : ReadLoop} (h : Reading l) (b : UInt8) :
    Reading (l.receive order b) := by
  rw [ReadLoop.receive, if_neg h.running]
  split
  · cases hs : l.stage with
    | objectId => simp only [ReadLoop.onRead, hs]; exact ⟨Stage.noConfusion, Nat.zero_lt_succ 3⟩
    | header objectId => simp only [ReadLoop.onRead, hs]; exact reading_doReadBody ..
    | body objectId bodySize =>
      simp only [ReadLoop.onRead, hs]; exact ⟨Stage.noConfusion, Nat.zero_lt_succ 3⟩
    | stopped => exact absurd hs h.running
  · next hfull =>
    refine ⟨h.running, ?_⟩
    have hl := h.lacks
    simp only [List.length_append, List.length_singleton] at hfull ⊢
    omega

theorem writeAll_concat (order : ByteOrder) (ms : List Message) (m : Message) :
    writeAll order (ms ++ [m]) = writeAll order ms ++ write order m := by
  simp [writeAll]

/-- The empty body that a header of 0 announces is delivered at once. -/
theorem written_doReadBody (order : ByteOrder) (l : ReadLoop) (objectId bodySize : UInt32) :
    writeAll order (l.doReadBody objectId bodySize).delivered ++
        undelivered order (l.doReadBody objectId bodySize) =
      writeAll order l.delivered ++ (order.image objectId ++ order.image bodySize) := by
  unfold ReadLoop.doReadBody
  split
  · next hz =>
    simp only [ReadLoop.onBody, ReadLoop.doReadObjectID, undelivered, writeAll_concat, write, hz]
    simp [header]
  · simp [undelivered]

/-- One byte more is written or waits to be delivered. -/
theorem written_receive (order : ByteOrder) {l : ReadLoop} (h : Reading l) (b : UInt8) :
    writeAll order (l.receive order b).delivered ++ undelivered order (l.receive order b) =
      writeAll order l.delivered ++ undelivered order l ++ [b] := by
  rw [ReadLoop.receive, if_neg h.running]
  split
  · next hfull =>
    cases hs : l.stage with
    | objectId =>
      rw [hs] at hfull
      simp only [ReadLoop.onRead, hs, ReadLoop.doReadHeader, undelivered]
      rw [image_word order hfull]
      simp
    | header objectId =>
      rw [hs] at hfull
      simp only [ReadLoop.onRead, hs]
      rw [written_doReadBody, image_word order hfull]
      simp [undelivered, hs]
    | body objectId bodySize =>
      rw [hs] at hfull
      have hsize : header (l.buffer ++ [b]) = bodySize := by
        rw [header, hfull]
        exact UInt32.ofNat_toNat
      simp only [ReadLoop.onRead, hs, ReadLoop.onBody, ReadLoop.doReadObjectID, undelivered,
        writeAll_concat, write, hsize]
      simp
    | stopped => exact absurd hs h.running
  · cases hs : l.stage with
    | stopped => exact absurd hs h.running
    | _ => simp [undelivered, hs]

theorem fits_receive (order : ByteOrder) {l : ReadLoop}
    (h : ∀ m ∈ l.delivered, m.data.length < 2 ^ 32) (b : UInt8) :
    ∀ m ∈ (l.receive order b).delivered, m.data.length < 2 ^ 32 := by
  have hadd : ∀ (objectId : UInt32) (body : Bytes), body.length < 2 ^ 32 →
      ∀ m ∈ l.delivered ++ [⟨objectId, body⟩], m.data.length < 2 ^ 32 := by
    intro objectId body hb m hm
    rcases List.mem_append.mp hm with hold | hnew
    · exact h m hold
    · rw [List.mem_singleton.mp hnew]; exact hb
  unfold ReadLoop.receive
  split
  · exact h
  · split
    · next hfull =>
      cases hs : l.stage with
      | objectId => simp only [ReadLoop.onRead, hs]; exact h
      | header objectId =>
        simp only [ReadLoop.onRead, hs, ReadLoop.doReadBody]
        split
        · exact hadd objectId [] (by decide)
        · exact h
      | body objectId bodySize =>
        rw [hs] at hfull
        simp only [ReadLoop.onRead, hs]
        exact hadd objectId _ (hfull ▸ bodySize.toNat_lt)
      | stopped => simp only [ReadLoop.onRead, hs]; exact h
    · exact h

/-- What a read loop that has taken some bytes has done with them. -/
structure Taken (order : ByteOrder) (bytes : Bytes) (l : ReadLoop) : Prop where
  reading : Reading l
  written : writeAll order l.delivered ++ undelivered order l = bytes
  fits : ∀ m ∈ l.delivered, m.data.length < 2 ^ 32

theorem taken_receiveAll (order : ByteOrder) {taken : Bytes} {l : ReadLoop}
    (h : Taken order taken l) (bytes : Bytes) :
    Taken order (taken ++ bytes) (l.receiveAll order bytes) := by
  induction bytes generalizing taken l with
  | nil => rwa [List.append_nil]
  | cons b rest ih =>
    have hb : Taken order (taken ++ [b]) (l.receive order b) :=
      ⟨reading_receive order h.reading b, by rw [written_receive order h.reading, h.written],
        fits_receive order h.fits b⟩
    have hrest := ih hb
    rwa [List.append_assoc, List.singleton_append] at hrest

theorem taken_start (order : ByteOrder) (bytes : Bytes) :
    Taken order bytes (ReadLoop.start.receiveAll order bytes) :=
  taken_receiveAll order ⟨reading_start, rfl, by simp [start_eq, idle]⟩ bytes

/-! The batch parser -/

/-- The length that a frame declares after its object id. -/
def declared (order : ByteOrder) (bytes : Bytes) : Nat :=
  (order.word ((bytes.drop 4).take 4)).toNat

/-- Cut whole frames off the front; the rest is shorter than the frame it begins. -/
def parse (order : ByteOrder) (bytes : Bytes) : List Message × Bytes :=
  if 8 + declared order bytes ≤ bytes.length then
    let later := parse order (bytes.drop (8 + declared order bytes))
    (⟨order.word (bytes.take 4), (bytes.drop 8).take (declared order bytes)⟩ :: later.1, later.2)
  else ([], bytes)
termination_by bytes.length
decreasing_by simp only [List.length_drop]; omega

theorem declared_frame (order : ByteOrder) (objectId bodySize : UInt32) (rest : Bytes) :
    declared order (order.image objectId ++ order.image bodySize ++ rest) = bodySize.toNat := by
  rw [declared, List.append_assoc, List.drop_left' (image_length order objectId),
    List.take_left' (image_length order bodySize), word_image]

/-- The parser undoes the writer, also before a part of a frame. -/
theorem parse_writeAll (order : ByteOrder) (ms : List Message) (rest : Bytes)
    (hfit : ∀ m ∈ ms, m.data.length < 2 ^ 32) (hrest : rest.length < 8 + declared order rest) :
    parse order (writeAll order ms ++ rest) = (ms, rest) := by
  induction ms with
  | nil =>
    change parse order rest = _
    rw [parse, if_neg (by omega)]
  | cons m ms ih =>
    have hm : m.data.length < 2 ^ 32 := hfit m List.mem_cons_self
    have hsplit : writeAll order (m :: ms) ++ rest =
        order.image m.objectId ++ order.image (header m.data) ++
          (m.data ++ (writeAll order ms ++ rest)) := by
      simp [writeAll, write]
    have hlater : (writeAll order (m :: ms) ++ rest).drop (8 + m.data.length) =
        writeAll order ms ++ rest := by
      rw [← write_length order m, writeAll, List.flatMap_cons, List.append_assoc,
        List.drop_left]
      rfl
    have hdeclared : declared order (writeAll order (m :: ms) ++ rest) = m.data.length := by
      rw [hsplit, declared_frame, header_toNat hm]
    have hid : order.word ((writeAll order (m :: ms) ++ rest).take 4) = m.objectId := by
      rw [hsplit, List.append_assoc, List.take_left' (image_length order m.objectId), word_image]
    have hbody : ((writeAll order (m :: ms) ++ rest).drop 8).take m.data.length = m.data := by
      rw [hsplit, List.drop_left' (by simp), List.take_left]
    have hlong : 8 + m.data.length ≤ (writeAll order (m :: ms) ++ rest).length := by
      rw [hsplit]
      simp only [List.length_append, image_length]
      omega
    rw [parse, hdeclared, if_pos hlong, hid, hbody, hlater,
      ih fun x hx => hfit x (List.mem_cons_of_mem _ hx)]

/-- What is not delivered is shorter than the frame it begins. -/
theorem undelivered_short (order : ByteOrder) {l : ReadLoop} (h : Reading l) :
    (undelivered order l).length < 8 + declared order (undelivered order l) := by
  have hlacks := h.lacks
  cases hs : l.stage with
  | objectId =>
    simp only [hs, Stage.size, undelivered] at hlacks ⊢
    omega
  | header objectId =>
    simp only [hs, Stage.size, undelivered, List.length_append, image_length] at hlacks ⊢
    omega
  | body objectId bodySize =>
    simp only [hs, Stage.size, undelivered, declared_frame] at hlacks ⊢
    simp only [List.length_append, image_length]
    omega
  | stopped => exact absurd hs h.running

/-- Fewer bytes than the frame they begin has are a strict prefix of some frame. -/
theorem short_prefix_frame (order : ByteOrder) {bytes : Bytes}
    (h : bytes.length < 8 + declared order bytes) :
    ∃ objectId bodySize body, body.length = bodySize.toNat ∧
      bytes <+: frame order objectId bodySize body ∧
      bytes.length < (frame order objectId bodySize body).length := by
  by_cases h8 : bytes.length < 8
  · let padded := bytes ++ List.replicate (8 - bytes.length) 0
    have hlen : padded.length = 8 := by simp [padded]; omega
    refine ⟨order.word (padded.take 4), order.word (padded.drop 4),
      List.replicate (order.word (padded.drop 4)).toNat 0, List.length_replicate, ?_, ?_⟩
    · rw [frame, image_word order (by simp [hlen]), image_word order (by simp [hlen]),
        List.take_append_drop, List.append_assoc]
      exact List.prefix_append ..
    · simp only [frame, List.length_append, image_length]
      omega
  · have hid : (bytes.take 4).length = 4 := by simp; omega
    have hsize : ((bytes.drop 4).take 4).length = 4 := by simp; omega
    refine ⟨order.word (bytes.take 4), order.word ((bytes.drop 4).take 4),
      bytes.drop 8 ++ List.replicate (8 + declared order bytes - bytes.length) 0, ?_, ?_, ?_⟩
    · simp only [List.length_append, List.length_drop, List.length_replicate, declared] at h ⊢
      omega
    · have hparts : bytes.take 4 ++ (bytes.drop 4).take 4 ++ bytes.drop 8 = bytes := by
        rw [List.append_assoc, ← List.drop_drop (i := 4) (j := 4), List.take_append_drop,
          List.take_append_drop]
      rw [frame, image_word order hid, image_word order hsize, ← List.append_assoc, hparts]
      exact List.prefix_append ..
    · simp only [frame, List.length_append, image_length, List.length_drop,
        List.length_replicate]
      omega

/-- The callbacks made on some bytes and the bytes that wait are a parse of them. -/
structure Lossless (order : ByteOrder) (bytes : Bytes) (l : ReadLoop) : Prop where
  parsed : parse order bytes = (l.delivered, undelivered order l)
  declared : ∀ front m back, l.delivered = front ++ m :: back → ∃ bodySize rest,
    bytes = writeAll order front ++ (frame order m.objectId bodySize m.data ++ rest) ∧
      m.data.length = bodySize.toNat
  reencoded : writeAll order l.delivered ++ undelivered order l = bytes
  strictPrefix : ∃ objectId bodySize body, body.length = bodySize.toNat ∧
    undelivered order l <+: frame order objectId bodySize body ∧
    (undelivered order l).length < (frame order objectId bodySize body).length

theorem lossless_taken {order : ByteOrder} {bytes : Bytes} {l : ReadLoop}
    (h : Taken order bytes l) : Lossless order bytes l := by
  have hshort := undelivered_short order h.reading
  refine ⟨?_, fun front m back hsplit => ?_, h.written, short_prefix_frame order hshort⟩
  · rw [← h.written]
    exact parse_writeAll order _ _ h.fits hshort
  · have hm : m.data.length < 2 ^ 32 := h.fits m (by rw [hsplit]; simp)
    refine ⟨header m.data, writeAll order back ++ undelivered order l, ?_, (header_toNat hm).symm⟩
    rw [← h.written, hsplit]
    simp [writeAll, write_eq_frame]

/-! Every way of splitting -/

/-- The read loop has been given the bytes taken from the socket, in whatever portions. -/
structure Fed (order : ByteOrder) (s : Arrival) (taken : Bytes) : Prop where
  bytes : taken ++ s.pending = s.arrived
  loop : s.loop = ReadLoop.start.receiveAll order taken

theorem fed_step {order : ByteOrder} {s t : Arrival} {a : Act} {taken : Bytes}
    (h : Fed order s taken) (hs : step order s a = some t) :
    ∃ portion, Fed order t (taken ++ portion) := by
  cases a with
  | segment bytes =>
    cases hs
    refine ⟨[], ?_, ?_⟩
    · rw [List.append_nil, ← List.append_assoc, h.bytes]
    · rw [List.append_nil]; exact h.loop
  | readSome count =>
    simp only [step] at hs
    split at hs
    · next hc =>
      obtain ⟨hrunning, hpos, hcount, hsize⟩ := hc
      cases hs
      have hlen : (s.pending.take count).length = count := by simp; omega
      refine ⟨s.pending.take count, ?_, ?_⟩
      · rw [List.append_assoc, List.take_append_drop]; exact h.bytes
      · change readSome order s.loop _ = _
        rw [readSome_eq order s.loop _ hrunning (List.ne_nil_of_length_pos (by omega))
          (by omega), ReadLoop.receiveAll_append, ← h.loop]
    · cases hs

theorem fed_reach {order : ByteOrder} {s : Arrival}
    (h : Reach (step order) Any initial s) : ∃ taken, Fed order s taken := by
  refine h.invariant (I := fun s => ∃ taken, Fed order s taken) ⟨[], rfl, rfl⟩ ?_
  intro u a v ⟨taken, htaken⟩ _ hs
  obtain ⟨portion, hportion⟩ := fed_step htaken hs
  exact ⟨_, hportion⟩

def IsRead : Act → Prop
  | .segment _ => False
  | .readSome _ => True

/-- While bytes are pending the read in progress takes some of them. -/
theorem drains (order : ByteOrder) (s : Arrival) (h : Reading s.loop) :
    ∃ t, Reach (step order) (fun _ a => IsRead a) s t ∧ t.pending = [] ∧
      t.arrived = s.arrived := by
  cases hp : s.pending with
  | nil => exact ⟨s, .refl, hp, rfl⟩
  | cons b rest =>
    have hlacks := h.lacks
    have hstep : step order s (.readSome 1) =
        some { s with loop := readSome order s.loop [b], pending := rest } := by
      simp only [step, hp]
      rw [if_pos ⟨h.running, Nat.one_pos, by simp, by omega⟩]
      rfl
    have hloop : readSome order s.loop [b] = s.loop.receive order b :=
      readSome_eq order s.loop [b] h.running (by simp) (by simp; omega)
    obtain ⟨t, ht, hnone, harrived⟩ :=
      drains order { s with loop := readSome order s.loop [b], pending := rest }
        (hloop ▸ reading_receive order h b)
    exact ⟨t, (Reach.single trivial hstep).trans ht, hnone, harrived⟩
termination_by s.pending.length
decreasing_by simp [hp]

/-- However the bytes are split into segments and the segments into portions: the
callbacks are those of the batch parser on the bytes taken so far, nothing is lost, and
the reads always go on until all bytes are taken, where two runs agree. -/
theorem lossless (order : ByteOrder) (s : Arrival) (h : Reach (step order) Any initial s) :
    (∃ taken, taken ++ s.pending = s.arrived ∧ Lossless order taken s.loop) ∧
    (∃ t, Reach (step order) (fun _ a => IsRead a) s t ∧ t.pending = [] ∧
      t.arrived = s.arrived ∧ Lossless order s.arrived t.loop) ∧
    (∀ t, Reach (step order) Any initial t → s.pending = [] → t.pending = [] →
      s.arrived = t.arrived → s.loop.delivered = t.loop.delivered) := by
  obtain ⟨taken, htaken⟩ := fed_reach h
  have hl : Taken order taken s.loop := htaken.loop ▸ taken_start order taken
  refine ⟨⟨taken, htaken.bytes, lossless_taken hl⟩, ?_, fun t ht hs0 ht0 harrived => ?_⟩
  · obtain ⟨t, ht, hnone, harrived⟩ := drains order s hl.reading
    obtain ⟨all, hall⟩ := fed_reach (h.trans (ht.weaken fun _ _ _ _ _ => trivial))
    have hbytes : all = s.arrived := by
      rw [← harrived, ← hall.bytes, hnone, List.append_nil]
    exact ⟨t, ht, hnone, harrived, hbytes ▸ lossless_taken (hall.loop ▸ taken_start order all)⟩
  · obtain ⟨all, hall⟩ := fed_reach ht
    have hbytes : taken = all := by
      rw [← List.append_nil taken, ← hs0, htaken.bytes, harrived, ← hall.bytes, ht0,
        List.append_nil]
    rw [htaken.loop, hall.loop, hbytes]

/-- A message in three segments, with a part of the next frame. -/
def threeSegments : List Act :=
  [.segment [7, 0], .readSome 1, .segment [0, 0, 2, 0], .readSome 1, .readSome 2, .readSome 2,
    .segment [0, 0, 5, 6, 9], .readSome 2, .readSome 1, .readSome 1, .readSome 1]

theorem lossless_threeSegments : ∃ s, run (step .little) initial threeSegments = some s ∧
    s.loop = ⟨.objectId, [9], [⟨7, [5, 6]⟩]⟩ ∧
    (∃ taken, taken ++ s.pending = s.arrived ∧ Lossless .little taken s.loop) ∧
    (∃ t, Reach (step .little) (fun _ a => IsRead a) s t ∧ t.pending = [] ∧
      t.arrived = s.arrived ∧ Lossless .little s.arrived t.loop) ∧
    (∀ t, Reach (step .little) Any initial t → s.pending = [] → t.pending = [] →
      s.arrived = t.arrived → s.loop.delivered = t.loop.delivered) := by
  obtain ⟨s, hs⟩ : ∃ s, run (step .little) initial threeSegments = some s := ⟨_, rfl⟩
  have hloop : s.loop = ⟨.objectId, [9], [⟨7, [5, 6]⟩]⟩ := by cases hs; decide
  exact ⟨s, hs, hloop, lossless .little s (Reach.of_run hs)⟩

end Dousi.Stream.Segments
