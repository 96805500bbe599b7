/-
Cache entries. A `Draft` gathers the matches of a running query; finishing it gives an `Entry`, which
is only read from then on. Times are given by the caller, who reads them from two clocks.
-/
import ResultCache.Stream.Reader

namespace ResultCache

/-! ## Time -/

/-- An instant on a clock, in nanoseconds. -/
abbrev Instant := Int

/-- What two clocks show at one time. Neither tells anything about the other. -/
structure Moment where
  /-- The time of day, by which entries are dated and grow old. It may be set at will. -/
  wall : Instant
  /-- A clock that only runs on, by which it is measured how long a query takes. -/
  steady : Instant
  deriving DecidableEq, Repr

/-- A failure that is no error of the cache but of a computation without a result: the operation
does not happen. -/
inductive Fault where
  /-- A lifetime longer than any span of time that can be expressed. -/
  | lifetimeOutOfRange (secs : Int64)
  deriving DecidableEq, Repr

/-- The longest span of time, in whole seconds: spans are counted in milliseconds of 64 bits. -/
def longestSpan : Int := 9223372036854775

/-- A number of seconds as a span of nanoseconds. -/
def lifetime (secs : Int64) : Except Fault Int :=
  if -longestSpan ≤ secs.toInt ∧ secs.toInt ≤ longestSpan then .ok (secs.toInt * 1000000000)
  else .error (.lifetimeOutOfRange secs)

/-- A span of nanoseconds in whole milliseconds, as far as 32 bits reach. -/
def milliseconds (nanos : Nat) : UInt32 :=
  if nanos / 1000000 < UInt32.size then (nanos / 1000000).toUInt32 else 4294967295

/-! ## Fingerprints -/

/-- The lookup identity of a query: one key, and a hash for every filter in order. -/
structure Fingerprint where
  key : UInt64
  filterHashes : List UInt64
  deriving DecidableEq, Repr, Inhabited

/-! ## Entries -/

/-- A sealed match stream with what is known about it. -/
structure Entry where
  /-- The index the query ran against. -/
  index : Int64
  /-- The time of day at which the query ended. -/
  builtAt : Instant
  /-- How long the query took. -/
  elapsedMs : UInt32
  filterHashes : List UInt64 := []
  key : UInt64 := 0
  stream : Stream
  deriving DecidableEq, Repr, Inhabited

namespace Entry

/-- What every entry costs before its first match. -/
def baseSize : Nat := 96

/-- The bytes charged against the budget. -/
def sizeBytes (e : Entry) : Nat :=
  baseSize + e.stream.bytes.size + 4 * e.stream.weights.size + 8 * e.filterHashes.length

theorem sizeBytes_pos (e : Entry) : 0 < e.sizeBytes := by
  unfold sizeBytes baseSize; omega

/-- Whether the entry is older than `ttlSecs` at the time of day `now`. -/
def expired (now : Instant) (ttlSecs : Int64) (e : Entry) : Except Fault Bool :=
  match lifetime ttlSecs with
  | .ok life => .ok (decide (life < now - e.builtAt))
  | .error f => .error f

/-- The entry filed under a fingerprint. -/
def withFingerprint (f : Fingerprint) (e : Entry) : Entry :=
  { e with key := f.key, filterHashes := f.filterHashes }

/-- All matches of the entry. -/
def unpack (e : Entry) : Except Damage (Array Match) := e.stream.unpack

end Entry

/-! ## Drafts -/

/-- An entry whose query is still running. -/
structure Draft where
  index : Int64
  writer : Writer := Writer.empty
  deriving Inhabited

namespace Draft

/-- A draft for a query on `index`. -/
def start (index : Int64) : Draft := { index }

/-- Records one match, in the order the ranker delivers it. -/
def push (m : Match) (d : Draft) : Draft := { d with writer := d.writer.append m }

/-- Records matches in order. -/
def pushAll (ms : List Match) (d : Draft) : Draft := ms.foldl (fun d m => d.push m) d

/-- How many matches are recorded. -/
def length (d : Draft) : Nat := d.writer.total

/-- Whether no match is recorded. -/
def isEmpty (d : Draft) : Bool := d.writer.isEmpty

/-- The entry of a query that ended at the time of day `now` after `elapsed` nanoseconds. -/
def finish (now : Instant) (elapsed : Nat) (d : Draft) : Entry :=
  { index := d.index, builtAt := now, elapsedMs := milliseconds elapsed, stream := d.writer.finish }

end Draft

end ResultCache
