/-
Numbers as bytes of seven bits each, lowest first; every byte but the last of a number has its
high bit set. Writing is `encode`, reading is `decode`, and `encodedLength` tells the length
without writing.
-/
import ResultCache.Error

namespace ResultCache.Varint

/-! ## Writing -/

/-- The groups of seven bits of `n`, lowest first, each but the last marked as continued. -/
def groups (n : Nat) : List UInt8 :=
  if n < 128 then [n.toUInt8] else (n % 128 + 128).toUInt8 :: groups (n / 128)
termination_by n
decreasing_by omega

/-- The bytes of `v`, as few as possible. -/
def encode (v : UInt64) : List UInt8 := groups v.toNat

/-- The number of bytes of `v`: one for every seven bits up to its highest, and one for zero. -/
def encodedLength (v : UInt64) : Nat := v.toNat.log2 / 7 + 1

/-! ## Reading -/

/-- The width a number is read in. -/
inductive Width where
  | word32
  | word64
  deriving DecidableEq, Repr

/-- The longest number, in bytes, of a width. -/
def Width.maxBytes : Width → Nat
  | .word32 => 5
  | .word64 => 10

/-- Goes on with a number whose first `k` groups, worth `acc`, are read. The tenth group holds the
64th bit alone, and there is no eleventh. -/
def decodeFrom (k acc : Nat) : List UInt8 → Except Damage (UInt64 × Nat)
  | [] => .error .incompleteNumber
  | b :: rest =>
    let chunk := b.toNat % 128
    if 10 ≤ k ∨ (k = 9 ∧ 1 < chunk) then .error .oversizedNumber
    else if b.toNat < 128 then .ok ((acc + chunk <<< (7 * k)).toUInt64, k + 1)
    else decodeFrom (k + 1) (acc + chunk <<< (7 * k)) rest

/-- The 64-bit number at the front of `bytes` and how many bytes it takes. -/
def decode64 (bytes : List UInt8) : Except Damage (UInt64 × Nat) := decodeFrom 0 0 bytes

/-- The 32-bit number at the front of `bytes` and how many bytes it takes. No more than five bytes
are looked at. -/
def decode32 (bytes : List UInt8) : Except Damage (UInt64 × Nat) := do
  let (v, n) ← decode64 (bytes.take Width.word32.maxBytes)
  if v.toNat < UInt32.size then .ok (v, n) else .error .oversizedNumber

/-- The number of the given width at the front of `bytes` and how many bytes it takes. -/
def decode : Width → List UInt8 → Except Damage (UInt64 × Nat)
  | .word32 => decode32
  | .word64 => decode64

end ResultCache.Varint
