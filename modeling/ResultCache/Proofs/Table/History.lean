/-
Histories of a cache. An `Operation` is one call with its arguments, the clock reading among them,
a `Answer` what the caller gets back. `serveAll` serves operations one after another; what one
operation preserves a whole history preserves, and what two servers do alike at every step they do
alike in every history.
-/
import ResultCache.Table.Cache

namespace ResultCache

/-! ## Operations -/

/-- A call to a cache. -/
inductive Operation where
  | add (e : Entry)
  | find (now : Instant) (index : Int64) (key : UInt64) (filterHashes : List UInt64)
  | invalidate (index : Int64)
  | configure (config : Config)
  | clear

/-- What a call gives back. -/
inductive Answer where
  | added (stored : Bool)
  | found (result : Except Fault (Option Entry))
  | dropped (count : Nat)
  | done

def Cache.serve : Operation → Cache → Answer × Cache
  | .add e, c => (.added (c.add e).1, (c.add e).2)
  | .find now index key filterHashes, c =>
    (.found (c.find now index key filterHashes).1, (c.find now index key filterHashes).2)
  | .invalidate index, c => (.dropped (c.invalidate index).1, (c.invalidate index).2)
  | .configure config, c => (.done, c.configure config)
  | .clear, c => (.done, c.clear)

/-! ## Histories -/

section

variable {σ τ : Type}

/-- Serves operations one after another. -/
def serveAll (serve : Operation → σ → Answer × σ) : List Operation → σ → List Answer × σ
  | [], s => ([], s)
  | op :: ops, s =>
    ((serve op s).1 :: (serveAll serve ops (serve op s).2).1, (serveAll serve ops (serve op s).2).2)

theorem serveAll_simulation {serve : Operation → σ → Answer × σ} {serve' : Operation → τ → Answer × τ}
    {R : σ → τ → Prop}
    (step : ∀ op s t, R s t → (serve op s).1 = (serve' op t).1 ∧ R (serve op s).2 (serve' op t).2)
    (ops : List Operation) :
    ∀ s t, R s t → (serveAll serve ops s).1 = (serveAll serve' ops t).1 ∧
      R (serveAll serve ops s).2 (serveAll serve' ops t).2 := by
  induction ops with
  | nil => exact fun _ _ h => ⟨rfl, h⟩
  | cons op ops ih =>
    intro s t h
    obtain ⟨hr, h⟩ := step op s t h
    obtain ⟨hrs, h⟩ := ih _ _ h
    refine ⟨?_, h⟩
    show _ :: _ = _ :: _
    rw [hr, hrs]

end

/-- A cache after a history, and the answers given. -/
def Cache.run (ops : List Operation) (c : Cache) : List Answer × Cache := serveAll Cache.serve ops c

end ResultCache
