/-
A hasher that mixes the words of a sequence into one number, one after another.
-/
import ResultCache.Query.Word

namespace ResultCache

/-- Spreads every bit of `x` over all bits. -/
def scramble (x : UInt64) : UInt64 :=
  let x := (x ^^^ (x >>> 30)) * 0xbf58476d1ce4e5b9
  let x := (x ^^^ (x >>> 27)) * 0x94d049bb133111eb
  x ^^^ (x >>> 31)

/-- Takes one more number into a running hash. -/
def absorb (h x : UInt64) : UInt64 := scramble ((h ^^^ x) * 0x9e3779b97f4a7c15 + 0x243f6a8885a308d3)

/-- Takes one more word into a running hash: its kind, then its content. -/
def Word.absorb (h : UInt64) : Word → UInt64
  | .unsigned n => ResultCache.absorb (ResultCache.absorb h 1) n
  | .signed n => ResultCache.absorb (ResultCache.absorb h 2) n.toUInt64
  | .text s =>
    s.toList.foldl (fun h c => ResultCache.absorb h c.val.toUInt64)
      (ResultCache.absorb (ResultCache.absorb h 3) s.length.toUInt64)
  | .size n => ResultCache.absorb (ResultCache.absorb h 4) n.toUInt64

/-- The hash of a sequence of words. -/
def mixing : Hasher := fun ws => ws.foldl Word.absorb 0x13198a2e03707344

end ResultCache
