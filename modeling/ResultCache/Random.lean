/-
Workloads drawn by mixing the seed.
-/
import ResultCache.Query.Mixing
import ResultCache.Simulation

namespace ResultCache.Workload

/-- The `n`-th number of a seed. -/
def random (seed n : UInt64) : UInt64 := scramble (seed + (n + 1) * 0x9e3779b97f4a7c15)

/-- The matches of a query under a seed, `maxMatches` at most. -/
def liveMatches (w : Workload) (query : UInt64) : List Match :=
  let seed := w.seed ^^^ (query * 0x9e3779b97f4a7c15)
  let count := (random seed 0).toNat % (w.maxMatches.toNat + 1)
  (List.range count).map fun i =>
    { doc := random seed (2 * i + 1).toUInt64 % 1000000
      weight := 1000 + (random seed (2 * i + 2).toUInt64 % 100).toUInt32 }

/-- The choices that a seed stands for. -/
def draws (w : Workload) : Draws :=
  { query := fun step => random (w.seed + step.toUInt64) 0 % max w.distinct 1
    live := w.liveMatches }

end ResultCache.Workload
