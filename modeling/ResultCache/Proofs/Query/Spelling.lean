/-
Spellings that tell where they end. The parts of a query are spelled one behind the other without
anything between them; what keeps them apart is that no spelling is the beginning of another one
(`PrefixFree`). Lists begin with their length, and where a value is of one of several kinds, the kind
comes first.
-/
import Mathlib.Logic.Function.Basic
import ResultCache.Query.Fingerprint

namespace ResultCache

/-! ## Prefix-free spellings -/

/-- A spelling with anything behind it tells the value and what is behind. -/
structure PrefixFree {α : Type} (words : α → List Word) : Prop where
  cut : ∀ {a b : α} {u v : List Word}, words a ++ u = words b ++ v → a = b ∧ u = v

namespace PrefixFree

variable {α β : Type} {words : α → List Word}

theorem injective (h : PrefixFree words) : Function.Injective words := by
  intro a b hab
  exact (h.cut (congrArg (· ++ []) hab)).1

theorem single {word : α → Word} (h : Function.Injective word) : PrefixFree fun a => [word a] where
  cut := by
    intro a b u v huv
    obtain ⟨hword, hrest⟩ := List.cons.inj huv
    exact ⟨h hword, hrest⟩

theorem pair {words' : β → List Word} (h : PrefixFree words) (h' : PrefixFree words') :
    PrefixFree fun p : α × β => words p.1 ++ words' p.2 where
  cut := by
    rintro ⟨a, b⟩ ⟨a', b'⟩ u v huv
    simp only [List.append_assoc] at huv
    obtain ⟨rfl, hrest⟩ := h.cut huv
    obtain ⟨rfl, hbehind⟩ := h'.cut hrest
    exact ⟨rfl, hbehind⟩

theorem flatMap (h : PrefixFree words) {as : List α} : ∀ {bs : List α} {u v : List Word},
    as.length = bs.length → as.flatMap words ++ u = bs.flatMap words ++ v → as = bs ∧ u = v := by
  induction as with
  | nil =>
    intro bs u v hlength huv
    obtain rfl := List.length_eq_zero_iff.1 hlength.symm
    exact ⟨rfl, huv⟩
  | cons a as ih =>
    intro bs u v hlength huv
    cases bs with
    | nil => cases hlength
    | cons b bs =>
      rw [List.flatMap_cons, List.flatMap_cons, List.append_assoc, List.append_assoc] at huv
      obtain ⟨rfl, hrest⟩ := h.cut huv
      obtain ⟨rfl, hbehind⟩ := ih (Nat.succ.inj hlength) hrest
      exact ⟨rfl, hbehind⟩

/-- The length in front tells how many items there are, and each item tells where it ends. -/
theorem list (h : PrefixFree words) : PrefixFree (listWords words) where
  cut := by
    intro as bs u v huv
    obtain ⟨hsize, hrest⟩ := List.cons.inj huv
    exact h.flatMap (Word.size.inj hsize) hrest

end PrefixFree

/-! ## Words -/

theorem Word.text_injective : Function.Injective Word.text := fun _ _ => Word.text.inj

theorem Word.signed_injective : Function.Injective Word.signed := fun _ _ => Word.signed.inj

theorem Word.unsigned_injective : Function.Injective Word.unsigned := fun _ _ => Word.unsigned.inj

theorem unsigned_word_injective : Function.Injective fun n : UInt32 => Word.unsigned n.toUInt64 :=
  fun _ _ h => UInt32.toUInt64_inj.1 (Word.unsigned.inj h)

theorem Single.word_injective : Function.Injective fun x : Single => Word.unsigned x.bits.toUInt64 := by
  rintro ⟨bits⟩ ⟨bits'⟩ h
  exact congrArg Single.mk (unsigned_word_injective h)

theorem flagWord_injective : Function.Injective flagWord := by
  intro a b h
  cases a <;> cases b <;> simp_all [flagWord]

theorem ColumnKind.word_injective : Function.Injective ColumnKind.word := by
  intro a b h
  cases a <;> cases b <;> simp_all [word]

theorem texts_prefixFree : PrefixFree (listWords fun s : String => [.text s]) :=
  (PrefixFree.single Word.text_injective).list

/-! ## Filters -/

/-- The number that tells the kind of a condition. -/
def Condition.kind : Condition → UInt64
  | .values _ => 0
  | .range _ _ => 1
  | .floatRange _ _ => 2
  | .strings _ => 3

/-- What is spelled of a condition besides its kind. -/
def Condition.content : Condition → List Word
  | .values allowed => listWords (fun v => [.signed v]) allowed
  | .range min max => [.signed min, .signed max]
  | .floatRange min max => [.unsigned min.bits.toUInt64, .unsigned max.bits.toUInt64]
  | .strings allowed => listWords (fun s => [.text s]) allowed

/-- Among conditions of one kind, the content tells where it ends. -/
theorem Condition.content_cut {a b : Condition} {u v : List Word} (hkind : a.kind = b.kind)
    (h : a.content ++ u = b.content ++ v) : a = b ∧ u = v := by
  cases a with
  | values allowed =>
    cases b with
    | values allowed' =>
      obtain ⟨rfl, hrest⟩ := (PrefixFree.single Word.signed_injective).list.cut h
      exact ⟨rfl, hrest⟩
    | _ => exact absurd hkind (by simp [kind])
  | range min max =>
    cases b with
    | range min' max' =>
      obtain ⟨hmin, h⟩ := List.cons.inj h
      obtain ⟨hmax, hrest⟩ := List.cons.inj h
      rw [Word.signed.inj hmin, Word.signed.inj hmax]
      exact ⟨rfl, hrest⟩
    | _ => exact absurd hkind (by simp [kind])
  | floatRange min max =>
    cases b with
    | floatRange min' max' =>
      obtain ⟨hmin, h⟩ := List.cons.inj h
      obtain ⟨hmax, hrest⟩ := List.cons.inj h
      rw [Single.word_injective hmin, Single.word_injective hmax]
      exact ⟨rfl, hrest⟩
    | _ => exact absurd hkind (by simp [kind])
  | strings allowed =>
    cases b with
    | strings allowed' =>
      obtain ⟨rfl, hrest⟩ := texts_prefixFree.cut h
      exact ⟨rfl, hrest⟩
    | _ => exact absurd hkind (by simp [kind])

theorem Filter.words_eq (f : Filter) :
    f.words = .unsigned f.condition.kind :: .text f.attr ::
      (f.condition.content ++ [flagWord f.exclude]) := by
  obtain ⟨attr, condition, exclude⟩ := f
  cases condition <;> rfl

theorem Filter.words_prefixFree : PrefixFree Filter.words where
  cut := by
    rintro ⟨attr, condition, exclude⟩ ⟨attr', condition', exclude'⟩ u v h
    simp only [words_eq, List.cons_append, List.append_assoc] at h
    obtain ⟨hkind, h₁⟩ := List.cons.inj h
    obtain ⟨hattr, h₂⟩ := List.cons.inj h₁
    obtain ⟨rfl, h₃⟩ := Condition.content_cut (Word.unsigned.inj hkind) h₂
    obtain ⟨hexclude, hrest⟩ := List.cons.inj h₃
    cases Word.text.inj hattr
    cases flagWord_injective hexclude
    exact ⟨rfl, hrest⟩

/-! ## Options -/

theorem Ranking.words_prefixFree : PrefixFree Ranking.words where
  cut := by
    intro a b u v h
    -- the first word already tells two kinds apart
    cases a <;> cases b <;> simp_all [words]

/-- Weights are spelled as the list of the fields with their weights. -/
theorem entryWords_prefixFree : PrefixFree (listWords fun p : String × UInt32 =>
    [.text p.1, .unsigned p.2.toUInt64]) :=
  ((PrefixFree.single Word.text_injective).pair (.single unsigned_word_injective)).list

theorem QueryOptions.words_prefixFree : PrefixFree QueryOptions.words where
  cut := by
    rintro ⟨ranking, ⟨entries, sorted⟩, maxMatches, fields⟩
      ⟨ranking', ⟨entries', sorted'⟩, maxMatches', fields'⟩ u v h
    simp only [words, List.append_assoc, List.cons_append] at h
    obtain ⟨rfl, h₁⟩ := Ranking.words_prefixFree.cut h
    obtain ⟨rfl, h₂⟩ := entryWords_prefixFree.cut h₁
    obtain ⟨hmax, h₃⟩ := List.cons.inj h₂
    obtain ⟨rfl, hrest⟩ := texts_prefixFree.cut h₃
    cases Word.unsigned.inj hmax
    exact ⟨rfl, hrest⟩

/-! ## Schemas -/

theorem Column.words_prefixFree : PrefixFree Column.words where
  cut := by
    rintro ⟨name, kind, expr⟩ ⟨name', kind', expr'⟩ u v h
    obtain ⟨hname, h₁⟩ := List.cons.inj h
    obtain ⟨hkind, hexpr⟩ := List.cons.inj h₁
    cases Word.text.inj hname
    cases ColumnKind.word_injective hkind
    cases expr with
    | none =>
      cases expr' with
      | none => exact ⟨rfl, (List.cons.inj hexpr).2⟩
      | some text' => simp at hexpr
    | some text =>
      cases expr' with
      | none => simp at hexpr
      | some text' =>
        obtain ⟨htext, hrest⟩ := List.cons.inj (List.cons.inj hexpr).2
        cases Word.text.inj htext
        exact ⟨rfl, hrest⟩

theorem Schema.words_injective : Function.Injective Schema.words := by
  rintro ⟨columns⟩ ⟨columns'⟩ h
  exact congrArg Schema.mk (Column.words_prefixFree.list.injective h)

/-! ## Keys -/

/-- The words of a key tell everything that goes into it. -/
theorem Fingerprint.keyWords_inj {index index' : Int64} {text text' : String}
    {options options' : QueryOptions} {hashes hashes' : List UInt64} {signature signature' : UInt64} :
    keyWords index text options hashes signature = keyWords index' text' options' hashes' signature' ↔
      index = index' ∧ text = text' ∧ options = options' ∧ hashes = hashes' ∧
        signature = signature' := by
  constructor
  · intro h
    obtain ⟨hindex, h₁⟩ := List.cons.inj h
    obtain ⟨htext, h₂⟩ := List.cons.inj h₁
    rw [List.append_assoc, List.append_assoc] at h₂
    obtain ⟨hoptions, h₃⟩ := QueryOptions.words_prefixFree.cut h₂
    obtain ⟨hhashes, h₄⟩ := (PrefixFree.single Word.unsigned_injective).list.cut h₃
    obtain ⟨hsignature, -⟩ := List.cons.inj h₄
    exact ⟨Word.signed.inj hindex, Word.text.inj htext, hoptions, hhashes,
      Word.unsigned.inj hsignature⟩
  · rintro ⟨rfl, rfl, rfl, rfl, rfl⟩
    rfl

end ResultCache
