/-
Signed numbers on the unsigned range, small magnitudes staying small: 0, -1, 1, -2, 2 become
0, 1, 2, 3, 4. `encode` and `decode` undo each other.
-/

namespace ResultCache.Zigzag

/-- Doubles `v` and, for a negative one, flips every bit. -/
def encode (v : Int64) : UInt64 := ((v <<< 1) ^^^ (v >>> 63)).toUInt64

/-- Halves `u` and, for an odd one, flips every bit. -/
def decode (u : UInt64) : Int64 := (u >>> 1).toInt64 ^^^ (-(u &&& 1).toInt64)

end ResultCache.Zigzag
