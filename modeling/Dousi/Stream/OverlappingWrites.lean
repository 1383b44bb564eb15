import Dousi.Lib.Transition
import Dousi.Stream.RoundTrip
import Mathlib.Data.List.Permutation

/-!
# Several async_write operations outstanding on one socket

`AsioStream::Write` starts an `async_write` without waiting for an earlier one.
One `async_write` is a series of `write_some` steps, each of which transfers a
non-empty prefix of what the operation still has to send; the steps of operations
that are outstanding together may alternate.
-/
namespace Dousi.Stream.OverlappingWrites

open Dousi.Lib.Word
open Dousi.Lib.Transition
open AsioStream RoundTrip

/-- One `async_write`: its message and the bytes not yet transferred. -/
structure WriteOp where
  message : Message
  remaining : Bytes
  deriving DecidableEq, Repr

/-- A socket with the bytes it carried and every `async_write` started on it. -/
structure Socket where
  wire : Bytes
  ops : List WriteOp
  deriving DecidableEq, Repr

inductive Action where
  | write (m : Message)
  | writeSome (op count : Nat)
  deriving DecidableEq, Repr

def step (order : ByteOrder) (s : Socket) : Action → Option Socket
  | .write m => some { s with ops := s.ops ++ [⟨m, AsioStream.write order m⟩] }
  | .writeSome i count =>
    match s.ops[i]? with
    | none => none
    | some op =>
      if 0 < count ∧ count ≤ op.remaining.length then
        some { wire := s.wire ++ op.remaining.take count
               ops := s.ops.set i { op with remaining := op.remaining.drop count } }
      else none

def unused : Socket := ⟨[], []⟩

def WriteOp.Done (op : WriteOp) : Prop := op.remaining = []

def WriteOp.Untouched (order : ByteOrder) (op : WriteOp) : Prop :=
  op.remaining = AsioStream.write order op.message

instance (op : WriteOp) : Decidable op.Done := inferInstanceAs (Decidable (_ = _))

instance (order : ByteOrder) (op : WriteOp) : Decidable (op.Untouched order) :=
  inferInstanceAs (Decidable (_ = _))

/-- Every `Write` made so far has been transferred in full. -/
def Complete (s : Socket) : Prop := ∀ op ∈ s.ops, op.Done

/-- No operation is given a `write_some` while another one is partly transferred,
and every body fits its header. -/
def Uncontended (order : ByteOrder) (s : Socket) : Action → Prop
  | .write m => m.data.length < 2 ^ 32
  | .writeSome i _ => ∀ (j : Nat) (hj : j < s.ops.length), j ≠ i →
      s.ops[j].Done ∨ s.ops[j].Untouched order

instance (order : ByteOrder) (s : Socket) (a : Action) : Decidable (Uncontended order s a) :=
  match a with
  | .write _ => inferInstanceAs (Decidable (_ < _))
  | .writeSome _ _ => inferInstanceAs (Decidable (∀ _, _))

/-- The messages of the operations that are done, in the order of their `Write`. -/
def doneMessages (ops : List WriteOp) : List Message :=
  (ops.filter fun op => decide op.Done).map WriteOp.message

theorem set_split {ops : List WriteOp} {i : Nat} {op : WriteOp} (h : ops[i]? = some op)
    (op' : WriteOp) :
    ∃ front back, ops = front ++ op :: back ∧ ops.set i op' = front ++ op' :: back := by
  obtain ⟨hi, he⟩ := List.getElem?_eq_some_iff.mp h
  refine ⟨ops.take i, ops.drop (i + 1), ?_, ?_⟩
  · rw [← he, List.getElem_cons_drop, List.take_append_drop]
  · rw [List.set_eq_take_append_cons_drop, if_pos hi]

theorem doneMessages_set_kept {ops : List WriteOp} {i : Nat} {op : WriteOp}
    (h : ops[i]? = some op) (hop : ¬ op.Done) {op' : WriteOp} (hop' : ¬ op'.Done) :
    doneMessages (ops.set i op') = doneMessages ops := by
  obtain ⟨front, back, hl, hs⟩ := set_split h op'
  rw [hs, hl]
  simp [doneMessages, hop, hop']

theorem doneMessages_set_done {ops : List WriteOp} {i : Nat} {op : WriteOp}
    (h : ops[i]? = some op) (hop : ¬ op.Done) {op' : WriteOp} (hop' : op'.Done) :
    (doneMessages ops ++ [op'.message]).Perm (doneMessages (ops.set i op')) := by
  obtain ⟨front, back, hl, hs⟩ := set_split h op'
  rw [hs, hl]
  simp only [doneMessages, List.filter_append, List.filter_cons, hop, hop', decide_true,
    decide_false, if_true, Bool.false_eq_true, if_false, List.map_append, List.map_cons]
  rw [List.append_assoc]
  exact (List.perm_append_comm).append_left _

/-- At most one operation is partly transferred; the wire carries the frames of
the finished ones and then its first bytes. -/
structure Serial (order : ByteOrder) (s : Socket) (sent : List Message) (part : Bytes) : Prop where
  wire : s.wire = writeAll order sent ++ part
  sent : sent.Perm (doneMessages s.ops)
  short : ∀ op ∈ s.ops, op.message.data.length < 2 ^ 32
  current : (part = [] ∧ ∀ op ∈ s.ops, op.Done ∨ op.Untouched order) ∨
    ∃ (i : Nat) (op : WriteOp), s.ops[i]? = some op ∧ ¬ op.Done ∧
      part ++ op.remaining = AsioStream.write order op.message ∧
      ∀ (j : Nat) (op' : WriteOp), j ≠ i → s.ops[j]? = some op' → op'.Done ∨ op'.Untouched order

theorem untouched_not_done {order : ByteOrder} {op : WriteOp} (h : op.Untouched order) :
    ¬ op.Done := by
  intro hd
  exact write_ne_nil order op.message (h.symm.trans hd)

theorem serial_write {order : ByteOrder} {s : Socket} {sent : List Message} {part : Bytes}
    (h : Serial order s sent part) {m : Message} (hm : m.data.length < 2 ^ 32) :
    Serial order { s with ops := s.ops ++ [⟨m, AsioStream.write order m⟩] } sent part := by
  have hnew : ¬ (WriteOp.mk m (AsioStream.write order m)).Done := untouched_not_done rfl
  constructor
  · exact h.wire
  · have hd : doneMessages (s.ops ++ [⟨m, AsioStream.write order m⟩]) = doneMessages s.ops := by
      simp [doneMessages, hnew]
    rw [hd]; exact h.sent
  · intro op hop
    rcases List.mem_append.mp hop with hold | hn
    · exact h.short op hold
    · rw [List.mem_singleton.mp hn]; exact hm
  · rcases h.current with ⟨hp, hall⟩ | ⟨i, op, hi, hnd, hpart, hothers⟩
    · refine Or.inl ⟨hp, fun op hop => ?_⟩
      rcases List.mem_append.mp hop with hold | hn
      · exact hall op hold
      · rw [List.mem_singleton.mp hn]; exact Or.inr rfl
    · obtain ⟨hlt, _⟩ := List.getElem?_eq_some_iff.mp hi
      refine Or.inr ⟨i, op, ?_, hnd, hpart, fun j op' hj hget => ?_⟩
      · rw [List.getElem?_append_left hlt]; exact hi
      · by_cases hjl : j < s.ops.length
        · rw [List.getElem?_append_left hjl] at hget
          exact hothers j op' hj hget
        · rw [List.getElem?_append_right (by omega)] at hget
          have hmem := List.mem_of_getElem? hget
          rw [List.mem_singleton.mp hmem]; exact Or.inr rfl

/-- A `write_some` on an operation with no other one partly transferred. The
operation either was current already or becomes current, and then is finished or not. -/
theorem serial_writeSome {order : ByteOrder} {s : Socket} {sent : List Message} {part : Bytes}
    (h : Serial order s sent part) {i count : Nat} {op : WriteOp} (hi : s.ops[i]? = some op)
    (hpos : 0 < count) (hle : count ≤ op.remaining.length)
    (hothers : ∀ j op', j ≠ i → s.ops[j]? = some op' → op'.Done ∨ op'.Untouched order) :
    ∃ sent' part', Serial order
      { wire := s.wire ++ op.remaining.take count
        ops := s.ops.set i { op with remaining := op.remaining.drop count } } sent' part' := by
  have hnd : ¬ op.Done := fun hd => by rw [hd] at hle; simp at hle; omega
  -- what was on the wire of this operation before the step
  have hpart : part ++ op.remaining = AsioStream.write order op.message := by
    rcases h.current with ⟨hp, hall⟩ | ⟨i', op', hi', hnd', hpart', hoth'⟩
    · rcases hall op (List.mem_of_getElem? hi) with hd | hu
      · exact absurd hd hnd
      · rw [hp, List.nil_append]; exact hu
    · by_cases he : i' = i
      · subst he
        rw [hi] at hi'
        obtain rfl := Option.some.inj hi'
        exact hpart'
      · rcases hothers i' op' he hi' with hd | hu
        · exact absurd hd hnd'
        · rcases hoth' i op (Ne.symm he) hi with hd | hu'
          · exact absurd hd hnd
          · -- both untouched: nothing of a partly transferred operation is on the wire
            have hnil : part = [] := by
              have hl := congrArg List.length hpart'
              rw [hu, List.length_append] at hl
              exact List.length_eq_zero_iff.mp (by omega)
            rw [hnil, List.nil_append]; exact hu'
  have hlt : i < s.ops.length := (List.getElem?_eq_some_iff.mp hi).1
  have hself : (s.ops.set i { op with remaining := op.remaining.drop count })[i]? =
      some { op with remaining := op.remaining.drop count } := by
    rw [List.getElem?_set_self hlt]
  have hshort : ∀ x ∈ s.ops.set i { op with remaining := op.remaining.drop count },
      x.message.data.length < 2 ^ 32 := by
    intro x hx
    rcases List.mem_or_eq_of_mem_set hx with hold | rfl
    · exact h.short x hold
    · exact h.short op (List.mem_of_getElem? hi)
  have hrest : ∀ j op', j ≠ i →
      (s.ops.set i { op with remaining := op.remaining.drop count })[j]? = some op' →
      op'.Done ∨ op'.Untouched order := by
    intro j op' hj hget
    rw [List.getElem?_set_ne (Ne.symm hj)] at hget
    exact hothers j op' hj hget
  have hwire : s.wire ++ op.remaining.take count =
      writeAll order sent ++ (part ++ op.remaining.take count) := by
    rw [h.wire, List.append_assoc]
  by_cases hfull : count = op.remaining.length
  · have hdrop : op.remaining.drop count = [] := List.drop_eq_nil_of_le (by omega)
    have htake : op.remaining.take count = op.remaining := List.take_of_length_le (by omega)
    have hdone : ({ op with remaining := op.remaining.drop count } : WriteOp).Done := hdrop
    refine ⟨sent ++ [op.message], [], ?_, ?_, hshort, Or.inl ⟨rfl, fun x hx => ?_⟩⟩
    · rw [hwire, htake, hpart]
      simp [writeAll]
    · exact (h.sent.append_right _).trans (doneMessages_set_done hi hnd hdone)
    · obtain ⟨j, hj⟩ := List.mem_iff_getElem?.mp hx
      by_cases hji : j = i
      · subst hji
        rw [hself] at hj
        obtain rfl := Option.some.inj hj
        exact Or.inl hdrop
      · exact hrest j x hji hj
  · have hkeep : ¬ ({ op with remaining := op.remaining.drop count } : WriteOp).Done := by
      intro hd
      have hl := congrArg List.length hd
      simp only [List.length_drop, List.length_nil] at hl
      omega
    refine ⟨sent, part ++ op.remaining.take count, hwire, ?_, hshort,
      Or.inr ⟨i, _, hself, hkeep, ?_, hrest⟩⟩
    · rw [doneMessages_set_kept hi hnd hkeep]; exact h.sent
    · rw [List.append_assoc, List.take_append_drop]; exact hpart

/-- What an accepted `write_some` says of the operation it was given to. -/
theorem writeSome_cases {order : ByteOrder} {s t : Socket} {i count : Nat}
    (h : step order s (.writeSome i count) = some t) :
    ∃ op, s.ops[i]? = some op ∧ 0 < count ∧ count ≤ op.remaining.length ∧
      t = { wire := s.wire ++ op.remaining.take count
            ops := s.ops.set i { op with remaining := op.remaining.drop count } } := by
  cases hi : s.ops[i]? with
  | none => simp only [step, hi] at h; cases h
  | some op =>
    simp only [step, hi] at h
    by_cases hcount : 0 < count ∧ count ≤ op.remaining.length
    · rw [if_pos hcount] at h
      exact ⟨op, rfl, hcount.1, hcount.2, (Option.some.inj h).symm⟩
    · rw [if_neg hcount] at h
      cases h

theorem serial_step {order : ByteOrder} {s t : Socket} {a : Action}
    (h : ∃ sent part, Serial order s sent part) (hc : Uncontended order s a)
    (hs : step order s a = some t) : ∃ sent part, Serial order t sent part := by
  obtain ⟨sent, part, h⟩ := h
  cases a with
  | write m =>
    obtain rfl := Option.some.inj hs
    exact ⟨sent, part, serial_write h hc⟩
  | writeSome i count =>
    obtain ⟨op, hi, hpos, hle, rfl⟩ := writeSome_cases hs
    refine serial_writeSome h hi hpos hle fun j op' hj hget => ?_
    obtain ⟨hlt, rfl⟩ := List.getElem?_eq_some_iff.mp hget
    exact hc j hlt hj

theorem serial_unused (order : ByteOrder) : Serial order unused [] [] :=
  ⟨rfl, by simp [doneMessages, unused], by simp [unused], Or.inl ⟨rfl, by simp [unused]⟩⟩

/-- In every run that never gives a `write_some` to one operation while another
is partly transferred, the wire of a complete state is the frames of all messages
in some order, and the peer's read loop delivers exactly these messages. -/
theorem frames_whole {order : ByteOrder} {s : Socket}
    (h : Reach (step order) (Uncontended order) unused s) (hdone : Complete s) :
    ∃ sent : List Message, sent.Perm (s.ops.map WriteOp.message) ∧
      s.wire = writeAll order sent ∧
      ReadLoop.start.receiveAll order s.wire = ⟨.objectId, [], sent⟩ := by
  obtain ⟨sent, part, hser⟩ :=
    h.invariant ⟨[], [], serial_unused order⟩ fun _ _ _ hi hc hs => serial_step hi hc hs
  have hnil : part = [] := by
    rcases hser.current with ⟨hp, _⟩ | ⟨i, op, hi, hnd, _⟩
    · exact hp
    · exact absurd (hdone op (List.mem_of_getElem? hi)) hnd
  have hperm : sent.Perm (s.ops.map WriteOp.message) := by
    have hall : doneMessages s.ops = s.ops.map WriteOp.message := by
      rw [doneMessages, List.filter_eq_self.mpr fun op hop => by simpa using hdone op hop]
    exact hall ▸ hser.sent
  have hwire : s.wire = writeAll order sent := by rw [hser.wire, hnil, List.append_nil]
  refine ⟨sent, hperm, hwire, ?_⟩
  have hshort : ∀ m ∈ sent, m.data.length < 2 ^ 32 := by
    intro m hm
    obtain ⟨op, hop, rfl⟩ := List.mem_map.mp (hperm.subset hm)
    exact hser.short op hop
  rw [hwire, start_eq, receiveAll_writeAll order [] sent hshort, List.nil_append]
  rfl

/-- Two `write_some` steps of one operation with a whole operation between them. -/
def alternating : List Action :=
  [.write ⟨1, []⟩, .write ⟨2, []⟩, .writeSome 0 4, .writeSome 1 8, .writeSome 0 4]

/-- Both writes are complete, but the wire holds the frames in neither order and
the peer delivers a message that nobody wrote. -/
theorem alternating_garbles : ∃ s, run (step .little) unused alternating = some s ∧
    Complete s ∧ s.ops.map WriteOp.message = [⟨1, []⟩, ⟨2, []⟩] ∧
    (∀ sent : List Message, sent.Perm [⟨1, []⟩, ⟨2, []⟩] → s.wire ≠ writeAll .little sent) ∧
    (ReadLoop.start.receiveAll .little s.wire).delivered = [⟨1, [0, 0]⟩] := by
  refine ⟨⟨[1, 0, 0, 0, 2, 0, 0, 0, 0, 0, 0, 0, 0, 0, 0, 0],
    [⟨⟨1, []⟩, []⟩, ⟨⟨2, []⟩, []⟩]⟩, by decide, by simp [Complete, WriteOp.Done], rfl, ?_,
    by decide⟩
  have hall : ∀ sent ∈ [Message.mk 1 [], Message.mk 2 []].permutations',
      [1, 0, 0, 0, 2, 0, 0, 0, 0, 0, 0, 0, 0, 0, 0, 0] ≠ writeAll .little sent := by decide
  exact fun sent hperm => hall sent (List.mem_permutations'.mpr hperm)

/-- Two writes are outstanding together. The second one is transferred first, in two parts,
and no part of the other one falls between them. -/
def outstanding : List Action :=
  [.write ⟨1, []⟩, .write ⟨2, [9]⟩, .writeSome 1 4, .writeSome 1 5, .writeSome 0 3,
    .writeSome 0 5]

theorem frames_whole_outstanding : ∃ s,
    run (guarded (step .little) (Uncontended .little)) unused outstanding = some s ∧
    Complete s ∧ s.wire = writeAll .little [⟨2, [9]⟩, ⟨1, []⟩] ∧
    ∃ sent : List Message, sent.Perm (s.ops.map WriteOp.message) ∧
      s.wire = writeAll .little sent ∧
      ReadLoop.start.receiveAll .little s.wire = ⟨.objectId, [], sent⟩ := by
  let s : Socket := ⟨[2, 0, 0, 0, 1, 0, 0, 0, 9, 1, 0, 0, 0, 0, 0, 0, 0],
    [⟨⟨1, []⟩, []⟩, ⟨⟨2, [9]⟩, []⟩]⟩
  have hrun : run (guarded (step .little) (Uncontended .little)) unused outstanding = some s := by
    decide
  have hdone : Complete s := by simp [Complete, WriteOp.Done, s]
  exact ⟨s, hrun, hdone, by decide, frames_whole (Reach.of_guarded hrun) hdone⟩

end Dousi.Stream.OverlappingWrites
