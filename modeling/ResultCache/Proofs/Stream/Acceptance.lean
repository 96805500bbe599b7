/-
Which bytes are read as a number, said byte by byte: where a number ends, what its bytes are worth
together, and where that leaves the range of its width. A number is read from what stands before
its last byte and from nothing behind it, and a cursor moves exactly by what was read.
-/
import ResultCache.Proofs.Stream.Reading
import Mathlib.Algebra.BigOperators.Ring.Finset

namespace ResultCache

namespace Varint

/-! ## Numerals, byte by byte -/

/-- What the first `k` bytes are worth together, seven bits each and the lowest first. -/
def worth (b : List UInt8) (k : Nat) : Nat :=
  ∑ i ∈ Finset.range k, (b.getD i 0).toNat % 128 * 128 ^ i

/-- The first `k` bytes, and no fewer, are marked as one number. -/
structure Marked (b : List UInt8) (k : Nat) : Prop where
  pos : 1 ≤ k
  le : k ≤ b.length
  continued : ∀ i, i + 1 < k → 128 ≤ (b.getD i 0).toNat
  ended : (b.getD (k - 1) 0).toNat < 128

theorem worth_cons (c : UInt8) (b : List UInt8) (k : Nat) :
    worth (c :: b) (k + 1) = c.toNat % 128 + 128 * worth b k := by
  unfold worth
  rw [Finset.sum_range_succ', Finset.mul_sum, Nat.add_comm]
  congr 1
  · simp
  · refine Finset.sum_congr rfl fun i _ => ?_
    rw [List.getD_cons_succ]
    ring

theorem marked_one {c : UInt8} {b : List UInt8} : Marked (c :: b) 1 ↔ c.toNat < 128 := by
  constructor
  · exact fun h => h.ended
  · exact fun h => ⟨Nat.le_refl 1, Nat.succ_le_succ (Nat.zero_le _), fun i hi => by omega, h⟩

theorem marked_cons {c : UInt8} {b : List UInt8} {k : Nat} (hk : 1 ≤ k) :
    Marked (c :: b) (k + 1) ↔ 128 ≤ c.toNat ∧ Marked b k := by
  obtain ⟨j, rfl⟩ : ∃ j, k = j + 1 := ⟨k - 1, by omega⟩
  constructor
  · intro h
    refine ⟨h.continued 0 (by omega), hk, Nat.le_of_succ_le_succ h.le, fun i hi => ?_, h.ended⟩
    exact h.continued (i + 1) (by omega)
  · rintro ⟨hc, h⟩
    refine ⟨by omega, Nat.succ_le_succ h.le, fun i hi => ?_, h.ended⟩
    cases i with
    | zero => exact hc
    | succ i => exact h.continued i (by omega)

theorem numeral_singleton_iff {c : UInt8} {n : Nat} :
    Numeral [c] n ↔ c.toNat < 128 ∧ c.toNat % 128 = n := by
  constructor
  · intro h
    cases h with
    | last hc => exact ⟨hc, Nat.mod_eq_of_lt hc⟩
    | more _ h => exact absurd h.length_pos (by simp)
  · rintro ⟨hc, rfl⟩
    rw [Nat.mod_eq_of_lt hc]
    exact .last hc

theorem numeral_cons_iff {c : UInt8} {bs : List UInt8} {n : Nat} (hbs : bs ≠ []) :
    Numeral (c :: bs) n ↔ 128 ≤ c.toNat ∧ ∃ m, Numeral bs m ∧ c.toNat % 128 + 128 * m = n := by
  constructor
  · intro h
    cases h with
    | last => exact absurd rfl hbs
    | more hc h => exact ⟨hc, _, h, rfl⟩
  · rintro ⟨hc, m, h, rfl⟩
    exact .more hc h

/-- A numeral is marked as one number and has the worth of its bytes. -/
theorem numeral_take_iff {k : Nat} : ∀ {b : List UInt8} {n : Nat}, k ≤ b.length →
    (Numeral (b.take k) n ↔ Marked b k ∧ worth b k = n) := by
  induction k with
  | zero =>
    intro b n _
    refine iff_of_false (fun h => ?_) fun h => absurd h.1.pos (by decide)
    exact absurd h.length_pos (by simp)
  | succ k ih =>
    intro b n hk
    cases b with
    | nil => cases hk
    | cons c b =>
      have hkb : k ≤ b.length := Nat.le_of_succ_le_succ hk
      rw [List.take_succ_cons, worth_cons]
      cases k with
      | zero =>
        rw [marked_one, List.take_zero, numeral_singleton_iff]
        rfl
      | succ j =>
        have hne : b.take (j + 1) ≠ [] := by
          rw [Ne, List.take_eq_nil_iff]
          rintro (h | rfl)
          · cases h
          · cases hkb
        rw [marked_cons (by omega), numeral_cons_iff hne]
        constructor
        · rintro ⟨hc, m, h, rfl⟩
          obtain ⟨hmarked, rfl⟩ := (ih hkb).1 h
          exact ⟨⟨hc, hmarked⟩, rfl⟩
        · rintro ⟨⟨hc, hmarked⟩, rfl⟩
          exact ⟨hc, _, (ih hkb).2 ⟨hmarked, rfl⟩, rfl⟩

/-! ## Reading -/

variable {w : Width} {b : List UInt8} {v : UInt64} {k : Nat}

theorem decode_eq_ok_iff : decode w b = .ok (v, k) ↔ k ≤ b.length ∧ Spells w (b.take k) v := by
  constructor
  · intro h
    obtain ⟨bs, rest, rfl, hs, rfl⟩ := decode_sound h
    rw [List.take_left, List.length_append]
    exact ⟨Nat.le_add_right _ _, hs⟩
  · rintro ⟨hk, hs⟩
    have h := decode_complete hs (b.drop k)
    rwa [List.take_append_drop, List.length_take, Nat.min_eq_left hk] at h

theorem spells_word32_iff {bs : List UInt8} :
    Spells .word32 bs v ↔ Spells .word64 bs v ∧ bs.length ≤ 5 ∧ v.toNat < 2 ^ 32 := by
  constructor
  · intro h
    exact ⟨⟨h.numeral, Nat.le_trans h.length_le (by decide), v.toNat_lt⟩, h.length_le, h.lt⟩
  · rintro ⟨h, hlen, hlt⟩
    exact ⟨h.numeral, hlen, hlt⟩

theorem decode64_eq_ok_iff : decode .word64 b = .ok (v, k) ↔
    Marked b k ∧ k ≤ 10 ∧ worth b k < 2 ^ 64 ∧ worth b k = v.toNat := by
  rw [decode_eq_ok_iff]
  constructor
  · rintro ⟨hk, hs⟩
    obtain ⟨hmarked, hworth⟩ := (numeral_take_iff hk).1 hs.numeral
    have hlen := hs.length_le
    rw [List.length_take, Nat.min_eq_left hk] at hlen
    exact ⟨hmarked, hlen, hworth ▸ v.toNat_lt, hworth⟩
  · rintro ⟨hmarked, hlen, hlt, hworth⟩
    refine ⟨hmarked.le, (numeral_take_iff hmarked.le).2 ⟨hmarked, hworth⟩, ?_, v.toNat_lt⟩
    rw [List.length_take, Nat.min_eq_left hmarked.le]
    exact hlen

theorem decode32_eq_ok_iff : decode .word32 b = .ok (v, k) ↔
    decode .word64 b = .ok (v, k) ∧ k ≤ 5 ∧ v.toNat < 2 ^ 32 := by
  rw [decode_eq_ok_iff, decode_eq_ok_iff, spells_word32_iff]
  constructor
  · rintro ⟨hk, hs, hlen, hlt⟩
    rw [List.length_take, Nat.min_eq_left hk] at hlen
    exact ⟨⟨hk, hs⟩, hlen, hlt⟩
  · rintro ⟨⟨hk, hs⟩, hlen, hlt⟩
    refine ⟨hk, hs, ?_, hlt⟩
    rwa [List.length_take, Nat.min_eq_left hk]

theorem decode_append (h : decode w b = .ok (v, k)) (more : List UInt8) :
    decode w (b ++ more) = .ok (v, k) := by
  obtain ⟨hk, hs⟩ := decode_eq_ok_iff.1 h
  refine decode_eq_ok_iff.2 ⟨?_, ?_⟩
  · rw [List.length_append]
    omega
  · rwa [List.take_append_of_le_length hk]

/-! ## Reading at a cursor -/

/-- What stands behind the eleventh byte makes no difference, not even to the damage reported. -/
theorem decodeFrom_take {bytes : List UInt8} : ∀ {k acc n : Nat}, k ≤ 10 → 11 ≤ k + n →
    decodeFrom k acc (bytes.take n) = decodeFrom k acc bytes := by
  induction bytes with
  | nil => intro k acc n _ _; rw [List.take_nil]
  | cons c bytes ih =>
    intro k acc n hk hn
    obtain ⟨n, rfl⟩ : ∃ m, n = m + 1 := ⟨n - 1, by omega⟩
    rw [List.take_succ_cons, decodeFrom, decodeFrom]
    by_cases hfull : 10 ≤ k ∨ k = 9 ∧ 1 < c.toNat % 128
    · rw [if_pos hfull, if_pos hfull]
    · rw [if_neg hfull, if_neg hfull, ih (by omega) (by omega)]

theorem decode_take_eleven (w : Width) (b : List UInt8) : decode w (b.take 11) = decode w b := by
  cases w with
  | word64 => exact decodeFrom_take (by omega) (by omega)
  | word32 =>
    show decode32 (b.take 11) = decode32 b
    unfold decode32
    rw [List.take_take]
    rfl

end Varint

open Varint

theorem Cursor.read_eq (w : Width) (c : Cursor) :
    c.read w = match decode w c.rest with
      | .ok (v, k) => (.ok v, c.advance k)
      | .error d => (.error d, c) := by
  have hwindow : decode w c.window = decode w c.rest := by
    rw [Cursor.window_eq]
    exact decode_take_eleven w c.rest
  unfold read next
  rw [hwindow]
  cases decode w c.rest <;> rfl

/-! ## Acceptance -/

namespace Varint

/-- A number of 64 bits is read from the front of `b` exactly if its first `k` bytes, ten at most,
are marked as one number and are worth less than `2 ^ 64`; a number of 32 bits exactly if in
addition it takes five bytes at most and is less than `2 ^ 32`. Everything else is damage. What is
read stays the same whatever stands behind it. A cursor with `b` before it moves by the bytes of
the number read, and stays where it was if there is none. -/
theorem decode_accepts (b : List UInt8) :
    (∀ v k, decode .word64 b = .ok (v, k) ↔
      1 ≤ k ∧ k ≤ min 10 b.length ∧ (∀ i, i + 1 < k → 128 ≤ (b.getD i 0).toNat) ∧
      (b.getD (k - 1) 0).toNat < 128 ∧ worth b k < 2 ^ 64 ∧ worth b k = v.toNat) ∧
    (∀ v k, decode .word32 b = .ok (v, k) ↔
      decode .word64 b = .ok (v, k) ∧ k ≤ 5 ∧ v.toNat < 2 ^ 32) ∧
    ∀ w,
      ((∃ v k, decode w b = .ok (v, k)) ∨ decode w b = .error .incompleteNumber ∨
        decode w b = .error .oversizedNumber) ∧
      (∀ v k, decode w b = .ok (v, k) → ∀ more, decode w (b ++ more) = .ok (v, k)) ∧
      ∀ c : Cursor, c.rest = b →
        (∀ v k, decode w b = .ok (v, k) → c.read w = (.ok v, c.advance k)) ∧
        ∀ d, decode w b = .error d → c.read w = (.error d, c) := by
  refine ⟨fun v k => ?_, fun v k => decode32_eq_ok_iff, fun w => ⟨?_, ?_, ?_⟩⟩
  · rw [decode64_eq_ok_iff]
    constructor
    · rintro ⟨⟨hpos, hle, hcontinued, hended⟩, hlen, hlt, hworth⟩
      exact ⟨hpos, Nat.le_min.2 ⟨hlen, hle⟩, hcontinued, hended, hlt, hworth⟩
    · rintro ⟨hpos, hle, hcontinued, hended, hlt, hworth⟩
      obtain ⟨hlen, hle⟩ := Nat.le_min.1 hle
      exact ⟨⟨hpos, hle, hcontinued, hended⟩, hlen, hlt, hworth⟩
  · cases h : decode w b with
    | ok p => exact .inl ⟨p.1, p.2, rfl⟩
    | error d =>
      rcases decode_error h with rfl | rfl
      · exact .inr (.inl rfl)
      · exact .inr (.inr rfl)
  · exact fun v k h more => decode_append h more
  · rintro c rfl
    rw [Cursor.read_eq]
    refine ⟨fun v k h => ?_, fun d h => ?_⟩
    · rw [h]
    · rw [h]

/-- The tenth byte has room for one bit. -/
example :
    decode .word64 [255, 255, 255, 255, 255, 255, 255, 255, 255, 1] = .ok (18446744073709551615, 10) ∧
    decode .word64 [255, 255, 255, 255, 255, 255, 255, 255, 255, 2] = .error .oversizedNumber := by
  decide

end Varint

end ResultCache
