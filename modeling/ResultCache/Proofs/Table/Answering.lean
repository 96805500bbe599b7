/-
When a lookup comes to an answer. A configuration is accepted when it passes validation, as one read
from a file or put together from a command line has; validation knows only a lower end of lifetimes.
A lookup under an accepted configuration answers, with an entry or with none, unless the key is held
and the lifetime is longer than any span of time that can be expressed; then it ends in a fault and
leaves the cache as it was.
-/
import ResultCache.CommandLine.Run
import ResultCache.Proofs.Table.Contents
import ResultCache.Proofs.Table.Soundness

namespace ResultCache

open CommandLine

/-! ## Accepted configurations -/

/-- The ways in which a configuration comes to be used. -/
inductive Config.Accepted (config : Config) : Prop where
  | valid (h : config.validate = .ok ())
  | read {format : Json.TextFormat} {content : Option String}
      (h : Config.ofFile format content = .ok config)
  | resolved {format : Json.TextFormat} {source : ConfigSource} {content : Option String}
      (h : source.resolve format content = .ok config)

namespace Config

variable {config : Config} {format : Json.TextFormat} {content : Option String}

theorem validate_iff : config.validate = .ok () ↔ 0 ≤ config.ttlSecs.toInt := by
  unfold validate
  split <;> rename_i hneg <;> rw [Int64.lt_iff_toInt_lt, Int64.toInt_zero] at hneg
  · constructor
    · rintro ⟨⟩
    · omega
  · simpa using hneg

theorem ofFile_validate (h : ofFile format content = .ok config) :
    config.validate = .ok () := by
  unfold ofFile at h
  split at h
  · cases h
  · split at h
    · cases h
    · split at h
      · rename_i hvalid
        cases h
        exact hvalid
      · cases h

theorem resolve_validate {source : ConfigSource}
    (h : source.resolve format content = .ok config) : config.validate = .ok () := by
  unfold ConfigSource.resolve at h
  -- with a file or without, the configuration put together is validated last
  split at h
  all_goals
    obtain ⟨base, -, h⟩ := bind_eq_ok.1 h
    obtain ⟨⟨⟩, hvalid, h⟩ := bind_eq_ok.1 h
    cases h
    exact hvalid

theorem Accepted.validate (h : config.Accepted) : config.validate = .ok () := by
  cases h with
  | valid h => exact h
  | read h => exact ofFile_validate h
  | resolved h => exact resolve_validate h

/-- A lifetime that passes validation can only be too long. -/
theorem Accepted.endless_iff (h : config.Accepted) :
    Shelf.endless config.ttlSecs = true ↔ longestSpan < config.ttlSecs.toInt := by
  have hnonneg := validate_iff.1 h.validate
  unfold Shelf.endless longestSpan
  rw [decide_eq_true_iff]
  omega

end Config

/-! ## Lookups -/

namespace Shelf

theorem held?_isSome {key : UInt64} {m : Shelf} :
    (m.held? key).isSome = true ↔ ∃ e ∈ m.entries, e.key = key := by
  simp [held?, List.find?_isSome]

end Shelf

namespace Cache

namespace Mirrors

variable {c : Cache} {m : Shelf} {now : Instant} {index : Int64} {key : UInt64}
  {filterHashes : List UInt64}

theorem find_answers_iff_not_stalls (h : c.Mirrors m) :
    (∃ found, (c.find now index key filterHashes).1 = .ok found) ↔
      Shelf.stalls (.find now index key filterHashes) m = false := by
  constructor
  · rintro ⟨found, hfound⟩
    exact (h.find_ok hfound).1
  · intro hs
    exact ⟨_, (h.find hs).1⟩

/-- A lookup that faults leaves no trace. -/
theorem find_fault (h : c.Mirrors m) {fault : Fault}
    (hf : (c.find now index key filterHashes).1 = .error fault) :
    c.find now index key filterHashes = (.error (.lifetimeOutOfRange c.config.ttlSecs), c) := by
  cases hs : Shelf.stalls (.find now index key filterHashes) m with
  | true => rw [h.find_stalls hs, h.config]
  | false =>
    rw [(h.find hs).1] at hf
    cases hf

theorem stalls_iff (h : c.Mirrors m) (hc : c.config.Accepted) :
    Shelf.stalls (.find now index key filterHashes) m = true ↔
      longestSpan < c.config.ttlSecs.toInt ∧ ∃ e ∈ c.entries, e.key = key := by
  rw [h.shows.entries, ← hc.endless_iff, h.config]
  simp only [Shelf.stalls, Bool.and_eq_true, Shelf.held?_isSome]
  constructor
  · rintro ⟨⟨-, hheld⟩, hend⟩
    exact ⟨hend, hheld⟩
  · rintro ⟨hend, e, he, hk⟩
    exact ⟨⟨h.isEnabled_of_mem he, e, he, hk⟩, hend⟩

end Mirrors

variable {config : Config} {ops : List Operation} {now : Instant} {index : Int64} {key : UInt64}
  {filterHashes : List UInt64}

/-- Whatever the history, a lookup under an accepted configuration answers exactly if its key is not
held or the lifetime in force can be expressed; one that does not answer leaves no trace. -/
theorem find_answers_iff (h : ((create config).run ops).2.config.Accepted) :
    let c := ((create config).run ops).2
    ((∃ found, (c.find now index key filterHashes).1 = .ok found) ↔
      ∀ e ∈ c.entries, e.key = key → c.config.ttlSecs.toInt ≤ longestSpan) ∧
    ∀ fault, (c.find now index key filterHashes).1 = .error fault →
      c.find now index key filterHashes = (.error (.lifetimeOutOfRange c.config.ttlSecs), c) := by
  intro c
  have hm := (run_mirrors config ops).2
  refine ⟨?_, fun fault hf => hm.find_fault hf⟩
  rw [hm.find_answers_iff_not_stalls, ← Bool.not_eq_true, hm.stalls_iff h]
  constructor
  · intro hn e he hk
    exact Int.not_lt.1 fun hlt => hn ⟨hlt, e, he, hk⟩
  · rintro hall ⟨hlt, e, he, hk⟩
    exact Int.not_lt.2 (hall e he hk) hlt

/-- The longest lifetime there is serves a lookup of an entry just stored. -/
theorem find_answers_at_longest :
    let c := ((create ⟨1000, 0, 9223372036854775⟩).run
      [.add { index := 1, builtAt := 0, elapsedMs := 10, key := 7, stream := {} }]).2
    c.config.Accepted ∧ ∃ found, (c.find 0 1 7 []).1 = .ok found := by
  intro c
  have hconfig : c.config = ⟨1000, 0, 9223372036854775⟩ := (run_mirrors _ _).2.config
  have hc : c.config.Accepted := .valid (by rw [hconfig]; rfl)
  exact ⟨hc, (find_answers_iff hc).1.2 fun _ _ _ => by rw [hconfig]; decide⟩

/-- A second more is accepted all the same, and the lookup faults. -/
theorem accepted_lookup_faults :
    let c := ((create ⟨1000, 0, 9223372036854776⟩).run
      [.add { index := 1, builtAt := 0, elapsedMs := 10, key := 7, stream := {} }]).2
    c.config.Accepted ∧ (c.find 0 1 7 []).1 = .error (.lifetimeOutOfRange 9223372036854776) := by
  intro c
  have hm := (run_mirrors ⟨1000, 0, 9223372036854776⟩
    [.add { index := 1, builtAt := 0, elapsedMs := 10, key := 7, stream := {} }]).2
  refine ⟨.valid (by rw [hm.config]; rfl), ?_⟩
  rw [hm.find_stalls (by decide)]
  rfl

end Cache

end ResultCache
