/-
Numbers as they may stand in a stream, shortest or not: `Numeral` gives the value of a string of
bytes, and `Spells` adds the longest form and the range of a width. Reading accepts exactly what
`Spells` allows, whatever follows, and what is written is such a numeral. At the end, the zigzag
form of a signed number.
-/
import ResultCache.Stream.Varint
import ResultCache.Stream.Zigzag
import Mathlib.Tactic.Ring

namespace ResultCache

namespace Varint

/-! ## Numerals -/

/-- The value of a string of bytes, seven bits a byte and the lowest first; every byte but the last
has its high bit set. -/
inductive Numeral : List UInt8 → Nat → Prop where
  | last {b : UInt8} : b.toNat < 128 → Numeral [b] b.toNat
  | more {b : UInt8} {bs : List UInt8} {n : Nat} :
      128 ≤ b.toNat → Numeral bs n → Numeral (b :: bs) (b.toNat % 128 + 128 * n)

theorem Numeral.length_pos {bs : List UInt8} {n : Nat} (h : Numeral bs n) : 0 < bs.length := by
  cases h <;> simp

/-- The bits of a number of a width. -/
def Width.bits : Width → Nat
  | .word32 => 32
  | .word64 => 64

/-- The bytes spell a number of the width, not necessarily in its shortest form. -/
structure Spells (w : Width) (bs : List UInt8) (v : UInt64) : Prop where
  numeral : Numeral bs v.toNat
  length_le : bs.length ≤ w.maxBytes
  lt : v.toNat < 2 ^ w.bits

/-! ## Reading -/

theorem pow_le_two_pow_63 {k : Nat} (hk : k ≤ 9) : 128 ^ k ≤ 2 ^ 63 :=
  calc 128 ^ k ≤ 128 ^ 9 := Nat.pow_le_pow_right (by decide) hk
    _ = 2 ^ 63 := by decide

theorem shiftLeft_groups (chunk k : Nat) : chunk <<< (7 * k) = chunk * 128 ^ k := by
  rw [Nat.shiftLeft_eq, Nat.pow_mul]

/-- One more group keeps the number read so far below the next power. -/
theorem add_chunk_lt {k acc chunk : Nat} (hacc : acc < 128 ^ k) (hchunk : chunk < 128) :
    acc + chunk * 128 ^ k < 128 ^ (k + 1) := by
  have hle : chunk * 128 ^ k ≤ 127 * 128 ^ k := Nat.mul_le_mul_right _ (by omega)
  rw [Nat.pow_succ]
  omega

/-- What is read of a number is a numeral; its value stays within 64 bits. -/
theorem decodeFrom_sound {bytes : List UInt8} : ∀ {k acc m : Nat} {v : UInt64}, acc < 128 ^ k →
    decodeFrom k acc bytes = .ok (v, m) →
    ∃ bs rest n, bytes = bs ++ rest ∧ Numeral bs n ∧ k + bs.length ≤ 10 ∧ m = k + bs.length ∧
      acc + n * 128 ^ k < 2 ^ 64 ∧ v = (acc + n * 128 ^ k).toUInt64 := by
  induction bytes with
  | nil => intro k acc m v _ h; cases h
  | cons b bytes ih =>
    intro k acc m v hacc h
    have hchunk : b.toNat % 128 < 128 := Nat.mod_lt _ (by decide)
    rw [decodeFrom, shiftLeft_groups] at h
    split at h
    · cases h
    · rename_i hroom
      have hk : k ≤ 9 := by omega
      split at h
      · rename_i hlast
        cases h
        have hmod : b.toNat % 128 = b.toNat := Nat.mod_eq_of_lt hlast
        rw [hmod] at hroom ⊢
        refine ⟨[b], bytes, b.toNat, rfl, .last hlast, Nat.succ_le_succ hk, rfl, ?_, rfl⟩
        by_cases hk9 : k = 9
        · -- the tenth byte has room for one bit
          subst hk9
          omega
        · have hlt := add_chunk_lt hacc hlast
          have hle := pow_le_two_pow_63 (k := k + 1) (by omega)
          omega
      · rename_i hmore
        have hacc' := add_chunk_lt hacc hchunk
        obtain ⟨bs, rest, n, rfl, hn, hlen, hm, hlt, hv⟩ := ih hacc' h
        have heq : acc + b.toNat % 128 * 128 ^ k + n * 128 ^ (k + 1) =
            acc + (b.toNat % 128 + 128 * n) * 128 ^ k := by ring
        rw [heq] at hlt hv
        refine ⟨b :: bs, rest, _, rfl, .more (by omega) hn, ?_, ?_, hlt, hv⟩
        · rw [List.length_cons]; omega
        · rw [List.length_cons]; omega

/-- Every numeral of ten bytes at most whose value stays within 64 bits is read. -/
theorem decodeFrom_complete {bs : List UInt8} {n : Nat} (h : Numeral bs n) (rest : List UInt8) :
    ∀ {k acc : Nat}, k + bs.length ≤ 10 → acc + n * 128 ^ k < 2 ^ 64 →
    decodeFrom k acc (bs ++ rest) = .ok ((acc + n * 128 ^ k).toUInt64, k + bs.length) := by
  induction h with
  | @last b hb =>
    intro k acc hlen hlt
    have hmod : b.toNat % 128 = b.toNat := Nat.mod_eq_of_lt hb
    have hroom : ¬ (10 ≤ k ∨ k = 9 ∧ 1 < b.toNat) := by
      rintro (hk | ⟨rfl, hbig⟩)
      · simp at hlen; omega
      · omega
    rw [List.singleton_append, decodeFrom, shiftLeft_groups]
    simp only [hmod]
    rw [if_neg hroom, if_pos hb]
    rfl
  | @more b bs n hb hn ih =>
    intro k acc hlen hlt
    have hpos := hn.length_pos
    rw [List.length_cons] at hlen
    have hroom : ¬ (10 ≤ k ∨ k = 9 ∧ 1 < b.toNat % 128) := by omega
    have heq : acc + b.toNat % 128 * 128 ^ k + n * 128 ^ (k + 1) =
        acc + (b.toNat % 128 + 128 * n) * 128 ^ k := by ring
    rw [List.cons_append, decodeFrom, shiftLeft_groups, if_neg hroom, if_neg (by omega),
      ih (by omega) (by rw [heq]; exact hlt), heq,
      List.length_cons, Nat.add_assoc, Nat.add_comm 1]

theorem decode64_sound {bytes : List UInt8} {v : UInt64} {m : Nat}
    (h : decode64 bytes = .ok (v, m)) :
    ∃ bs rest, bytes = bs ++ rest ∧ Spells .word64 bs v ∧ m = bs.length := by
  obtain ⟨bs, rest, n, hbytes, hn, hlen, hm, hlt, hv⟩ := decodeFrom_sound (by decide) h
  rw [Nat.pow_zero, Nat.mul_one, Nat.zero_add] at hlt hv
  have hval : v.toNat = n := by
    rw [hv]
    exact Nat.mod_eq_of_lt hlt
  refine ⟨bs, rest, hbytes, ⟨hval ▸ hn, ?_, v.toNat_lt⟩, ?_⟩
  · rw [Nat.zero_add] at hlen; exact hlen
  · rw [hm, Nat.zero_add]

theorem decode64_complete {bs : List UInt8} {v : UInt64} (h : Spells .word64 bs v)
    (rest : List UInt8) : decode64 (bs ++ rest) = .ok (v, bs.length) := by
  have hlen : 0 + bs.length ≤ 10 := by rw [Nat.zero_add]; exact h.length_le
  have hlt : 0 + v.toNat * 128 ^ 0 < 2 ^ 64 := by
    rw [Nat.pow_zero, Nat.mul_one, Nat.zero_add]; exact v.toNat_lt
  unfold decode64
  rw [decodeFrom_complete h.numeral rest hlen hlt, Nat.pow_zero, Nat.mul_one, Nat.zero_add,
    Nat.zero_add]
  congr 2
  exact UInt64.toNat_inj.1 (Nat.mod_eq_of_lt v.toNat_lt)

theorem decode_sound {w : Width} {bytes : List UInt8} {v : UInt64} {m : Nat}
    (h : decode w bytes = .ok (v, m)) :
    ∃ bs rest, bytes = bs ++ rest ∧ Spells w bs v ∧ m = bs.length := by
  cases w with
  | word64 => exact decode64_sound h
  | word32 =>
    obtain ⟨⟨u, n⟩, hu, h⟩ := bind_eq_ok.1 h
    obtain ⟨bs, rest, htake, hs, rfl⟩ := decode64_sound hu
    dsimp only at h
    split at h
    · rename_i hlt
      cases h
      have hlen : bs.length ≤ 5 := by
        have := congrArg List.length htake
        simp only [List.length_take, List.length_append, Width.maxBytes] at this
        omega
      refine ⟨bs, rest ++ bytes.drop 5, ?_, ⟨hs.numeral, hlen, hlt⟩, rfl⟩
      rw [← List.append_assoc, ← htake]
      exact (List.take_append_drop 5 bytes).symm
    · cases h

theorem decode_complete {w : Width} {bs : List UInt8} {v : UInt64} (h : Spells w bs v)
    (rest : List UInt8) : decode w (bs ++ rest) = .ok (v, bs.length) := by
  cases w with
  | word64 => exact decode64_complete h rest
  | word32 =>
    have hlen : bs.length ≤ 5 := h.length_le
    have h64 : Spells .word64 bs v := ⟨h.numeral, Nat.le_trans hlen (by decide), v.toNat_lt⟩
    show decode32 (bs ++ rest) = _
    unfold decode32
    rw [List.take_append, List.take_of_length_le h.length_le, decode64_complete h64]
    exact if_pos h.lt

/-- Bytes that are no number are reported as such. -/
theorem decodeFrom_error {bytes : List UInt8} {d : Damage} : ∀ {k acc : Nat},
    decodeFrom k acc bytes = .error d → d = .incompleteNumber ∨ d = .oversizedNumber := by
  induction bytes with
  | nil => intro k acc h; cases h; exact .inl rfl
  | cons b bytes ih =>
    intro k acc h
    rw [decodeFrom] at h
    split at h
    · cases h; exact .inr rfl
    · split at h
      · cases h
      · exact ih h

theorem decode_error {w : Width} {bytes : List UInt8} {d : Damage}
    (h : decode w bytes = .error d) : d = .incompleteNumber ∨ d = .oversizedNumber := by
  cases w with
  | word64 => exact decodeFrom_error h
  | word32 =>
    rcases bind_eq_error.1 h with h64 | ⟨⟨v, n⟩, -, h⟩
    · exact decodeFrom_error h64
    · dsimp only at h
      split at h
      · cases h
      · cases h
        exact .inr rfl

/-! ## Writing -/

theorem groups_numeral (n : Nat) : Numeral (groups n) n := by
  fun_induction groups n with
  | case1 n hlt =>
    have hval : n.toUInt8.toNat = n := Nat.mod_eq_of_lt (by omega)
    have h := Numeral.last (b := n.toUInt8) (by rw [hval]; exact hlt)
    rwa [hval] at h
  | case2 n hge ih =>
    have hval : (n % 128 + 128).toUInt8.toNat = n % 128 + 128 := Nat.mod_eq_of_lt (by omega)
    have h := Numeral.more (b := (n % 128 + 128).toUInt8) (by rw [hval]; omega) ih
    have heq : (n % 128 + 128) % 128 + 128 * (n / 128) = n := by omega
    rwa [hval, heq] at h

theorem groups_length_le {n : Nat} : ∀ {k : Nat}, 1 ≤ k → n < 128 ^ k → (groups n).length ≤ k := by
  fun_induction groups n with
  | case1 n hlt =>
    intro k hk _
    exact hk
  | case2 n hge ih =>
    intro k hk hn
    obtain ⟨k, rfl⟩ : ∃ j, k = j + 1 := ⟨k - 1, by omega⟩
    have hk' : 1 ≤ k := by
      by_contra hzero
      have : k = 0 := by omega
      subst this
      rw [Nat.zero_add, Nat.pow_one] at hn
      omega
    have hdiv : n / 128 < 128 ^ k := by
      rw [Nat.pow_succ] at hn
      exact Nat.div_lt_of_lt_mul (by omega)
    rw [List.length_cons]
    exact Nat.succ_le_succ (ih hk' hdiv)

/-- What is written for a number of a width can be read in that width. -/
theorem encode_spells {w : Width} {v : UInt64} (h : v.toNat < 2 ^ w.bits) :
    Spells w (encode v) v := by
  refine ⟨groups_numeral _, groups_length_le ?_ (Nat.lt_of_lt_of_le h ?_), h⟩
  · cases w <;> decide
  · cases w <;> decide

end Varint

/-! ## Zigzag -/

namespace Zigzag

/-- The unsigned reading of a signed number. -/
theorem toNat_toUInt64 (v : Int64) :
    (v.toUInt64.toNat : Int) = if v.toInt < 0 then v.toInt + 2 ^ 64 else v.toInt := by
  have h : v.toInt = if 2 * v.toUInt64.toNat < 2 ^ 64 then (v.toUInt64.toNat : Int)
      else v.toUInt64.toNat - 2 ^ 64 := BitVec.toInt_eq_toNat_cond _
  have hlt := v.toUInt64.toNat_lt
  rw [h]
  split <;> split <;> omega

theorem toInt_toInt64 (u : UInt64) :
    u.toInt64.toInt = if u.toNat < 2 ^ 63 then (u.toNat : Int) else u.toNat - 2 ^ 64 := by
  have h : u.toInt64.toInt = if 2 * u.toNat < 2 ^ 64 then (u.toNat : Int)
      else u.toNat - 2 ^ 64 := BitVec.toInt_eq_toNat_cond _
  rw [h]
  split <;> split <;> omega

theorem shiftRight_63 (v : Int64) : v >>> 63 = if v.toInt < 0 then -1 else 0 := by
  have hle := v.le_toInt
  have hlt := v.toInt_lt
  have hshift : (v >>> 63).toInt = v.toInt >>> (63 : Nat) := by
    rw [← Int64.toInt_toBitVec, Int64.toBitVec_shiftRight]
    exact BitVec.toInt_sshiftRight
  apply Int64.toInt_inj.1
  rw [hshift, Int.shiftRight_eq_div_pow]
  split
  · show _ = (-1 : Int)
    omega
  · show _ = (0 : Int)
    omega

theorem toNat_shiftLeft_one (v : Int64) :
    (v <<< 1).toUInt64.toNat = v.toUInt64.toNat * 2 % 2 ^ 64 := by
  show (v.toUInt64 <<< 1).toNat = _
  rw [UInt64.toNat_shiftLeft, Nat.shiftLeft_eq]
  rfl

theorem encode_toNat (v : Int64) :
    ((encode v).toNat : Int) = if v.toInt < 0 then -2 * v.toInt - 1 else 2 * v.toInt := by
  have hle := v.le_toInt
  have hlt := v.toInt_lt
  have hval := toNat_toUInt64 v
  have hshift := toNat_shiftLeft_one v
  unfold encode
  rw [shiftRight_63]
  split
  · rename_i hneg
    rw [if_pos hneg] at hval
    rw [Int64.xor_neg_one, Int64.toUInt64_not, UInt64.toNat_not, hshift, UInt64.size]
    omega
  · rename_i hpos
    rw [if_neg hpos] at hval
    rw [Int64.xor_zero, hshift]
    omega

theorem decode_toInt (u : UInt64) :
    (decode u).toInt = if u.toNat % 2 = 1 then -(u.toNat / 2 : Int) - 1 else u.toNat / 2 := by
  have hlt := u.toNat_lt
  have hhalf : (u >>> 1).toNat = u.toNat / 2 := by
    rw [UInt64.toNat_shiftRight, Nat.shiftRight_eq_div_pow]
    rfl
  have hval : (u >>> 1).toInt64.toInt = u.toNat / 2 := by
    rw [toInt_toInt64, hhalf, if_pos (by omega)]
    omega
  have hbit : (u &&& 1).toNat = u.toNat % 2 := by
    rw [UInt64.toNat_and]
    exact Nat.and_one_is_mod _
  unfold decode
  split
  · rename_i hodd
    have hone : u &&& 1 = 1 := UInt64.toNat_inj.1 (hbit.trans hodd)
    rw [hone]
    show ((u >>> 1).toInt64 ^^^ -1).toInt = _
    rw [Int64.xor_neg_one, Int64.toInt_not, hval]
    apply Int.bmod_eq_of_le <;> omega
  · rename_i heven
    have hzero : u &&& 1 = 0 := UInt64.toNat_inj.1 (hbit.trans (by simp; omega))
    rw [hzero]
    show ((u >>> 1).toInt64 ^^^ 0).toInt = _
    rw [Int64.xor_zero, hval]

theorem decode_encode (v : Int64) : decode (encode v) = v := by
  have hv := encode_toNat v
  apply Int64.toInt_inj.1
  rw [decode_toInt]
  split at hv <;> split <;> omega

/-- The step from `a` to `b` leads there, even where it wraps around. -/
theorem add_decode_encode_sub (a b : UInt64) :
    a + (decode (encode (b - a).toInt64)).toUInt64 = b := by
  rw [decode_encode, UInt64.toUInt64_toInt64, UInt64.add_comm, UInt64.sub_add_cancel]

end Zigzag

end ResultCache
