/-
Writing numbers and reading them back. Numbers of either width written one after another behind a
buffer are read back from there, each by as many bytes as were written for it. What is written is
the shortest of the numerals of a number, and no other numeral is as short.
-/
import ResultCache.Proofs.Stream.Acceptance

namespace ResultCache

namespace Varint

/-! ## Length -/

theorem groups_of_lt {n : Nat} (h : n < 128) : groups n = [n.toUInt8] := by
  rw [groups, if_pos h]

theorem log2_div_128 {n : Nat} (h : 128 ≤ n) : n.log2 = (n / 128).log2 + 7 := by
  have hne : n / 128 ≠ 0 := by omega
  have hlow := Nat.log2_self_le hne
  have hhigh : n / 128 < 2 ^ ((n / 128).log2 + 1) := Nat.lt_log2_self
  refine (Nat.log2_eq_iff (by omega)).2 ⟨?_, ?_⟩
  · rw [Nat.pow_add]
    omega
  · rw [Nat.add_right_comm, Nat.pow_add]
    omega

theorem groups_length (n : Nat) : (groups n).length = n.log2 / 7 + 1 := by
  fun_induction groups n with
  | case1 n hlt =>
    have hlog : n.log2 < 7 := by
      by_cases hzero : n = 0
      · subst hzero
        decide
      · exact (Nat.log2_lt hzero).2 hlt
    rw [Nat.div_eq_of_lt hlog]
    rfl
  | case2 n hge ih =>
    have hlog := log2_div_128 (n := n) (by omega)
    rw [List.length_cons, ih, hlog, Nat.add_div_right _ (by decide)]

theorem encode_length (v : UInt64) : (encode v).length = encodedLength v := groups_length v.toNat

/-! ## Minimality -/

/-- A continued byte before what is written for `n` is written as it is, if there is a rest. -/
theorem groups_cons {b : UInt8} {n : Nat} (hb : 128 ≤ b.toNat) (hn : n ≠ 0) :
    groups (b.toNat % 128 + 128 * n) = b :: groups n := by
  have hlt := b.toNat_lt
  have hlow : (b.toNat % 128 + 128 * n) % 128 + 128 = b.toNat := by omega
  have hhigh : (b.toNat % 128 + 128 * n) / 128 = n := by omega
  rw [groups, if_neg (by omega), hlow, hhigh]
  congr 1
  exact UInt8.toNat_inj.1 (Nat.mod_eq_of_lt hlt)

/-- No numeral of a number is shorter than the one written, and none but that one is as short. -/
theorem Numeral.shortest {bs : List UInt8} {n : Nat} (h : Numeral bs n) :
    (groups n).length ≤ bs.length ∧ (bs.length = (groups n).length → bs = groups n) := by
  induction h with
  | @last b hb =>
    have hbyte : b.toNat.toUInt8 = b := UInt8.toNat_inj.1 (Nat.mod_eq_of_lt b.toNat_lt)
    rw [groups_of_lt hb, hbyte]
    exact ⟨Nat.le_refl _, fun _ => rfl⟩
  | @more b bs n hb hn ih =>
    by_cases hzero : n = 0
    · -- a continued byte before zero only makes the numeral longer
      subst hzero
      have hpos := hn.length_pos
      rw [Nat.mul_zero, Nat.add_zero, groups_of_lt (Nat.mod_lt _ (by decide)), List.length_singleton,
        List.length_cons]
      exact ⟨by omega, fun hlen => by omega⟩
    · rw [groups_cons hb hzero, List.length_cons, List.length_cons]
      refine ⟨Nat.succ_le_succ ih.1, fun hlen => ?_⟩
      rw [ih.2 (Nat.succ.inj hlen)]

theorem encodedLength_le_of_decode {b : List UInt8} {v : UInt64} {k : Nat}
    (h : decode .word64 b = .ok (v, k)) :
    encodedLength v ≤ k ∧ (k = encodedLength v ↔ b.take k = encode v) := by
  obtain ⟨hk, hs⟩ := decode_eq_ok_iff.1 h
  have hlen : (b.take k).length = k := by rw [List.length_take, Nat.min_eq_left hk]
  obtain ⟨hle, heq⟩ := hs.numeral.shortest
  rw [hlen] at hle heq
  rw [← encode_length]
  refine ⟨hle, heq, fun hbytes => ?_⟩
  rw [← hbytes, hlen]

/-! ## Writing one number after another -/

/-- A number and the width it is written and read in. -/
structure Number where
  width : Width
  value : UInt64
  lt : value.toNat < 2 ^ width.bits

/-- Puts a number behind a buffer, and tells how many bytes that took. -/
def put (v : UInt64) (buffer : Array UInt8) : Nat × Array UInt8 :=
  ((encode v).length, buffer ++ encode v)

/-- Puts numbers behind a buffer in order, and tells for each how many bytes it took. -/
def putAll : List Number → Array UInt8 → List Nat × Array UInt8
  | [], buffer => ([], buffer)
  | n :: ns, buffer =>
    let (count, buffer) := put n.value buffer
    let (counts, buffer) := putAll ns buffer
    (count :: counts, buffer)

theorem putAll_eq (ns : List Number) : ∀ buffer : Array UInt8,
    putAll ns buffer =
      (ns.map fun n => encodedLength n.value, buffer ++ ns.flatMap fun n => encode n.value) := by
  induction ns with
  | nil =>
    intro buffer
    simp [putAll]
  | cons n ns ih =>
    intro buffer
    rw [putAll, put]
    dsimp only
    rw [ih, encode_length]
    refine Prod.ext rfl (Array.toList_inj.1 ?_)
    simp

theorem Number.encodedLength_le (n : Number) : encodedLength n.value ≤ n.width.maxBytes := by
  rw [← encode_length]
  exact (encode_spells n.lt).length_le

end Varint

open Varint

/-! ## Reading one number after another -/

namespace Cursor

/-- Reads numbers of these widths in order, and tells for each what came of it and how far the
cursor moved. -/
def readAll : List Width → Cursor → List (Except Damage UInt64 × Nat) × Cursor
  | [], c => ([], c)
  | w :: ws, c =>
    let (v, c') := c.read w
    let (vs, last) := readAll ws c'
    ((v, c'.position - c.position) :: vs, last)

/-- Numbers that stand before a cursor are read as they were written. -/
theorem readAll_eq (ns : List Number) : ∀ c : Cursor,
    c.rest = (ns.flatMap fun n => encode n.value) →
    c.readAll (ns.map (·.width)) =
      (ns.map fun n => (.ok n.value, encodedLength n.value), c.advance c.rest.length) := by
  induction ns with
  | nil =>
    intro c hrest
    rw [hrest]
    rfl
  | cons n ns ih =>
    intro c hrest
    rw [List.flatMap_cons] at hrest
    have hdecode : decode n.width c.rest = .ok (n.value, encodedLength n.value) := by
      rw [hrest, ← encode_length]
      exact decode_complete (encode_spells n.lt) _
    have hread : c.read n.width = (.ok n.value, c.advance (encodedLength n.value)) := by
      rw [read_eq, hdecode]
    have hbehind : (c.advance (encodedLength n.value)).rest = ns.flatMap fun n => encode n.value := by
      rw [← encode_length]
      exact rest_advance hrest
    have hlength : c.rest.length =
        encodedLength n.value + (c.advance (encodedLength n.value)).rest.length := by
      rw [hbehind, hrest, List.length_append, encode_length]
    have hmoved : (c.advance (encodedLength n.value)).position - c.position =
        encodedLength n.value := Nat.add_sub_cancel_left _ _
    rw [List.map_cons, readAll, hread]
    dsimp only
    rw [ih _ hbehind, hmoved, advance_advance, ← hlength]
    rfl

end Cursor

namespace Varint

/-- Numbers put behind any buffer and read from its old end in the same widths come back in order,
the cursor moving each time by as many bytes as writing the number took, and in the end nothing is
left. Every number takes the bytes foretold for it, and no more than its width allows; and wherever
a number is read, it stands in no fewer bytes than these, and in just as many only where the bytes
are those that would be written. -/
theorem put_read (ns : List Number) (buffer : Array UInt8) :
    let (counts, written) := putAll ns buffer
    let (values, c) := (Cursor.mk written buffer.size).readAll (ns.map (·.width))
    values = (ns.map fun n => .ok n.value).zip counts ∧
    c.position = buffer.size + counts.sum ∧ c.atEnd = true ∧
    counts = (ns.map fun n => encodedLength n.value) ∧
    (∀ n ∈ ns, encodedLength n.value ≤ n.width.maxBytes) ∧
    ∀ b v k, decode .word64 b = .ok (v, k) →
      encodedLength v ≤ k ∧ (k = encodedLength v ↔ b.take k = encode v) := by
  have hrest : (Cursor.mk (buffer ++ ns.flatMap fun n => encode n.value) buffer.size).rest =
      ns.flatMap fun n => encode n.value := by
    simp [Cursor.rest]
  have hlength : (ns.flatMap fun n => encode n.value).length =
      (ns.map fun n => encodedLength n.value).sum := by
    simp [List.length_flatMap, encode_length]
  have hsize : (buffer ++ ns.flatMap fun n => encode n.value).size =
      buffer.size + (ns.map fun n => encodedLength n.value).sum := by
    rw [← hlength, ← Array.length_toList, Array.toList_appendList, List.length_append,
      Array.length_toList]
  rw [putAll_eq]
  dsimp only
  rw [Cursor.readAll_eq ns _ hrest, hrest, hlength]
  refine ⟨?_, rfl, ?_, rfl, fun n _ => n.encodedLength_le, fun b v k => encodedLength_le_of_decode⟩
  · rw [List.zip_map']
  · exact decide_eq_true (Nat.le_of_eq hsize)

end Varint

end ResultCache
