import Mathlib.Algebra.Group.Nat.Defs
import Mathlib.Tactic.Common

/-!
# Memory images of 32-bit words

The four bytes of a `uint32_t` as a host keeps them, for both byte orders.
-/
namespace Dousi.Lib.Word

abbrev Bytes := List UInt8

inductive ByteOrder where
  | little
  | big
  deriving DecidableEq, Repr

/-- The byte of weight `256^i`. -/
def byteAt (w : UInt32) (i : Nat) : UInt8 := UInt8.ofNat (w.toNat / 256 ^ i)

/-- The image of a word in memory, lowest address first. -/
def ByteOrder.image : ByteOrder → UInt32 → Bytes
  | .little, w => [byteAt w 0, byteAt w 1, byteAt w 2, byteAt w 3]
  | .big, w => [byteAt w 3, byteAt w 2, byteAt w 1, byteAt w 0]

def combine (b0 b1 b2 b3 : UInt8) : UInt32 :=
  UInt32.ofNat (b0.toNat + 256 * b1.toNat + 65536 * b2.toNat + 16777216 * b3.toNat)

/-- The word whose image is a list of four bytes. -/
def ByteOrder.word : ByteOrder → Bytes → UInt32
  | .little, [b0, b1, b2, b3] => combine b0 b1 b2 b3
  | .big, [b0, b1, b2, b3] => combine b3 b2 b1 b0
  | _, _ => 0

@[simp] theorem image_length (o : ByteOrder) (w : UInt32) : (o.image w).length = 4 := by
  cases o <;> rfl

theorem byteAt_toNat (w : UInt32) (i : Nat) : (byteAt w i).toNat = w.toNat / 256 ^ i % 256 := by
  simp [byteAt]

theorem combine_byteAt (w : UInt32) :
    combine (byteAt w 0) (byteAt w 1) (byteAt w 2) (byteAt w 3) = w := by
  have hw : w.toNat < 4294967296 := w.toNat_lt
  apply UInt32.toNat_inj.mp
  simp only [combine, byteAt_toNat, UInt32.toNat_ofNat']
  omega

/-- Reading a word back on a host of the same byte order gives the word. -/
@[simp] theorem word_image (o : ByteOrder) (w : UInt32) : o.word (o.image w) = w := by
  cases o <;> exact combine_byteAt w

theorem byteAt_combine (b0 b1 b2 b3 : UInt8) :
    byteAt (combine b0 b1 b2 b3) 0 = b0 ∧ byteAt (combine b0 b1 b2 b3) 1 = b1 ∧
      byteAt (combine b0 b1 b2 b3) 2 = b2 ∧ byteAt (combine b0 b1 b2 b3) 3 = b3 := by
  have h0 := b0.toNat_lt
  have h1 := b1.toNat_lt
  have h2 := b2.toNat_lt
  have h3 := b3.toNat_lt
  refine ⟨?_, ?_, ?_, ?_⟩ <;>
    · apply UInt8.toNat_inj.mp
      simp only [byteAt_toNat, combine, UInt32.toNat_ofNat']
      omega

/-- Every four bytes are the image of the word read from them. -/
theorem image_word (o : ByteOrder) {bs : Bytes} (h : bs.length = 4) :
    o.image (o.word bs) = bs := by
  obtain ⟨b0, b1, b2, b3, rfl⟩ : ∃ b0 b1 b2 b3, bs = [b0, b1, b2, b3] := by
    match bs, h with
    | [b0, b1, b2, b3], _ => exact ⟨b0, b1, b2, b3, rfl⟩
  cases o with
  | little =>
    obtain ⟨h0, h1, h2, h3⟩ := byteAt_combine b0 b1 b2 b3
    simp only [ByteOrder.word, ByteOrder.image, h0, h1, h2, h3]
  | big =>
    obtain ⟨h0, h1, h2, h3⟩ := byteAt_combine b3 b2 b1 b0
    simp only [ByteOrder.word, ByteOrder.image, h0, h1, h2, h3]

/-- The image of the word is the same in both byte orders. -/
def Palindromic (w : UInt32) : Prop := ByteOrder.little.image w = ByteOrder.big.image w

instance (w : UInt32) : Decidable (Palindromic w) := inferInstanceAs (Decidable (_ = _))

theorem image_eq {o o' : ByteOrder} {w : UInt32} (h : o = o' ∨ Palindromic w) :
    o.image w = o'.image w := by
  rcases h with rfl | h
  · rfl
  · cases o with
    | little =>
      cases o' with
      | little => rfl
      | big => exact h
    | big =>
      cases o' with
      | little => exact h.symm
      | big => rfl

/-- A word crosses over to a host of the other byte order only when it is palindromic. -/
theorem word_image_iff (o o' : ByteOrder) (w : UInt32) :
    o'.word (o.image w) = w ↔ o = o' ∨ Palindromic w := by
  constructor
  · intro h
    have himage : o.image w = o'.image w := by
      rw [← image_word o' (image_length o w), h]
    cases o with
    | little =>
      cases o' with
      | little => exact .inl rfl
      | big => exact .inr himage
    | big =>
      cases o' with
      | little => exact .inr himage.symm
      | big => exact .inl rfl
  · intro h
    rw [image_eq h, word_image]

/-- A counter of 64 bits tells numbers apart as long as it has not wrapped around. -/
theorem ofNat_inj {m n : Nat} (hm : m < 2 ^ 64) (hn : n < 2 ^ 64)
    (h : UInt64.ofNat m = UInt64.ofNat n) : m = n := by
  have ht := congrArg UInt64.toNat h
  rwa [UInt64.toNat_ofNat', UInt64.toNat_ofNat', Nat.mod_eq_of_lt hm, Nat.mod_eq_of_lt hn] at ht

end Dousi.Lib.Word
