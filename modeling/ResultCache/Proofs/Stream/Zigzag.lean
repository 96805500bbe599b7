/-
Signed numbers in zigzag form. Encoding and decoding are inverse to each other, over all signed and
all unsigned numbers of 64 bits, and the form grows with the distance from zero; so a number nearer
to zero is never written in more bytes (`inverse_and_short`).
-/
import Mathlib.Algebra.Order.Group.Unbundled.Int
import Mathlib.Data.Nat.Log
import ResultCache.Proofs.Stream.Number

namespace ResultCache

theorem Varint.encodedLength_mono {u v : UInt64} (h : u ≤ v) :
    Varint.encodedLength u ≤ Varint.encodedLength v := by
  have hlog : u.toNat.log2 ≤ v.toNat.log2 := by
    rw [Nat.log2_eq_log_two, Nat.log2_eq_log_two]
    exact Nat.log_mono_right (UInt64.le_iff_toNat_le.1 h)
  exact Nat.succ_le_succ (Nat.div_le_div_right hlog)

namespace Zigzag

theorem encode_decode (u : UInt64) : encode (decode u) = u := by
  have hu := decode_toInt u
  have hv := encode_toNat (decode u)
  apply UInt64.toNat_inj.1
  split at hu <;> split at hv <;> omega

/-- A number further from zero has the larger form, whatever the signs. -/
theorem encode_lt_encode {v w : Int64} (h : |v.toInt| < |w.toInt|) : encode v < encode w := by
  have hv := encode_toNat v
  have hw := encode_toNat w
  rw [Int.abs_eq_natAbs, Int.abs_eq_natAbs] at h
  rw [UInt64.lt_iff_toNat_lt]
  split at hv <;> split at hw <;> omega

/-- A number from zero on is doubled, and a negative one is doubled in magnitude, less one. That is a
bijection between the signed and the unsigned numbers, undone by decoding; the step between any two
documents leads from the one to the other; and a number nearer to zero takes no more bytes. -/
theorem inverse_and_short :
    (∀ v : Int64,
      ((encode v).toNat : Int) = if 0 ≤ v.toInt then 2 * v.toInt else -2 * v.toInt - 1) ∧
    (Function.LeftInverse decode encode ∧ Function.RightInverse decode encode) ∧
    (Function.Bijective encode ∧ Function.Bijective decode) ∧
    (∀ a b : UInt64, a + (decode (encode (b - a).toInt64)).toUInt64 = b) ∧
    ∀ v w : Int64, |v.toInt| < |w.toInt| →
      Varint.encodedLength (encode v) ≤ Varint.encodedLength (encode w) := by
  refine ⟨fun v => ?_, ⟨decode_encode, encode_decode⟩, ⟨?_, ?_⟩, add_decode_encode_sub,
    fun v w h => ?_⟩
  · have hv := encode_toNat v
    split at hv <;> split <;> omega
  · exact Function.bijective_iff_has_inverse.2 ⟨decode, decode_encode, encode_decode⟩
  · exact Function.bijective_iff_has_inverse.2 ⟨encode, encode_decode, decode_encode⟩
  · exact Varint.encodedLength_mono (UInt64.le_of_lt (encode_lt_encode h))

/-- The least number is further from zero than the greatest. -/
theorem greatest_no_longer_than_least :
    |Int64.maxValue.toInt| < |Int64.minValue.toInt| ∧
      Varint.encodedLength (encode Int64.maxValue) ≤
        Varint.encodedLength (encode Int64.minValue) :=
  ⟨by decide, inverse_and_short.2.2.2.2 _ _ (by decide)⟩

end Zigzag

end ResultCache
