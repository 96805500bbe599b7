/-
The lines of a report for programs. They list the fields of the report at any depth by their paths,
in ascending order, so that a record comes right before its own fields (`fieldLines_eq_paths`). Line
by line the report can be read back: the blanks in front tell how deep a field stands, the first
colon ends its key, and what follows is nothing for a record and the value for any other field
(`fieldLines_append_inj`).
-/
import Mathlib.Order.Basic
import ResultCache.Json.Printer
import ResultCache.Proofs.Query.FieldWeights
import ResultCache.Report.Lines

namespace ResultCache

/-! ## Reports -/

namespace Report

/-- A key that can be told from what stands around it on its line. -/
structure IsKey (key : String) : Prop where
  nonempty : key ≠ ""
  noColon : ':' ∉ key.toList
  noBlank : ' ' ∉ key.toList

instance (key : String) : Decidable (IsKey key) :=
  decidable_of_iff (key ≠ "" ∧ ':' ∉ key.toList ∧ ' ' ∉ key.toList)
    ⟨fun ⟨h, h', h''⟩ => ⟨h, h', h''⟩, fun h => ⟨h.nonempty, h.noColon, h.noBlank⟩⟩

/-- A value that is written by its text on the line of its key. -/
def IsPlain : Json → Prop
  | .object _ => False
  | .string _ => False
  | _ => True

/-- The fields of a report, sorted by key: records of the same kind and plain values. -/
inductive IsReport : List (String × Json) → Prop where
  | nil : IsReport []
  | record {key : String} {fields rest : List (String × Json)} :
      IsKey key → (∀ p ∈ rest, key < p.1) → IsReport fields → IsReport rest →
      IsReport ((key, .object fields) :: rest)
  | plain {key : String} {v : Json} {rest : List (String × Json)} :
      IsKey key → (∀ p ∈ rest, key < p.1) → IsPlain v → IsReport rest →
      IsReport ((key, v) :: rest)

end Report

/-- What stands at a path of keys. -/
def Json.at? : List String → Json → Option Json
  | [], v => some v
  | key :: path, .object fields => (fields.lookup key).bind (at? path)
  | _ :: _, _ => none

namespace Report

variable {text : Json → String}

/-! ## Single lines -/

/-- The line of a record. -/
def recordLine (depth : Nat) (key : String) : String := Json.indentation depth ++ key ++ ":"

/-- The line of a plain value. -/
def plainLine (text : Json → String) (depth : Nat) (key : String) (v : Json) : String :=
  Json.indentation depth ++ key ++ ": " ++ text v

theorem fieldLines_nil (depth : Nat) : fieldLines text .program depth [] = [] := by rw [fieldLines]

theorem fieldLines_record (depth : Nat) (key : String) (fields rest : List (String × Json)) :
    fieldLines text .program depth ((key, .object fields) :: rest) =
      recordLine depth key ::
        (fieldLines text .program (depth + 1) fields ++ fieldLines text .program depth rest) := by
  rw [fieldLines]
  rfl

theorem fieldText_plain {v : Json} (hv : IsPlain v) (key : String) :
    fieldText text .program key v = text v := by
  cases v with
  | object fields => cases hv
  | string s => cases hv
  | number n => cases n <;> rfl
  | _ => rfl

theorem fieldLines_plain {v : Json} (hv : IsPlain v) (depth : Nat) (key : String)
    (rest : List (String × Json)) :
    fieldLines text .program depth ((key, v) :: rest) =
      plainLine text depth key v :: fieldLines text .program depth rest := by
  have hne : ∀ fields, v ≠ .object fields := by
    rintro fields rfl
    exact hv
  rw [fieldLines, fieldText_plain hv]
  · rfl
  · exact hne

theorem indentation_toList (depth : Nat) :
    (Json.indentation depth).toList = List.replicate (2 * depth) ' ' := String.toList_ofList

/-- The blanks in front of a line. -/
def leading (line : String) : Nat := (line.toList.takeWhile (· == ' ')).length

theorem recordLine_toList (depth : Nat) (key : String) :
    (recordLine depth key).toList = List.replicate (2 * depth) ' ' ++ (key.toList ++ [':']) := by
  simp [recordLine, indentation_toList]

theorem plainLine_toList (depth : Nat) (key : String) (v : Json) :
    (plainLine text depth key v).toList =
      List.replicate (2 * depth) ' ' ++ (key.toList ++ ':' :: ' ' :: (text v).toList) := by
  simp [plainLine, indentation_toList]

theorem leading_eq {line key : String} {depth : Nat} {text : List Char} (hkey : IsKey key)
    (h : line.toList = List.replicate (2 * depth) ' ' ++ (key.toList ++ text)) :
    leading line = 2 * depth := by
  have hne : key.toList ≠ [] := by simpa using hkey.nonempty
  obtain ⟨c, cs, hc⟩ := List.exists_cons_of_ne_nil hne
  have hblank : c ≠ ' ' := by
    rintro rfl
    exact hkey.noBlank (by rw [hc]; exact List.mem_cons_self ..)
  rw [leading, h, hc, List.takeWhile_append_of_pos (by simp)]
  simp [hblank]

/-- A key and what follows its colon can be told from one another. -/
theorem key_inj {key key' : String} {text text' : List Char} (hkey : IsKey key) (hkey' : IsKey key')
    (h : key.toList ++ ':' :: text = key'.toList ++ ':' :: text') : key = key' ∧ text = text' := by
  have hcut : ∀ {k : String} {t : List Char}, IsKey k →
      (k.toList ++ ':' :: t).takeWhile (· != ':') = k.toList := by
    intro k t hk
    have hall : ∀ c ∈ k.toList, (c != ':') = true := by
      intro c hc
      simp only [bne_iff_ne, ne_eq]
      rintro rfl
      exact hk.noColon hc
    rw [List.takeWhile_append_of_pos hall]
    simp
  have hsame := (hcut hkey).symm.trans ((congrArg _ h).trans (hcut hkey'))
  obtain rfl := String.toList_inj.1 hsame
  exact ⟨rfl, (List.cons.inj (List.append_cancel_left h)).2⟩

/-! ## Reading a report back -/

/-- The lines that follow the fields of a record stand further out. -/
def Outer (depth : Nat) (lines : List String) : Prop := ∀ l ∈ lines.head?, leading l < 2 * depth

/-- The first line of the fields of a record has their depth. -/
theorem leading_fieldLines {fields : List (String × Json)} (h : IsReport fields) (depth : Nat) :
    ∀ l ∈ (fieldLines text .program depth fields).head?, leading l = 2 * depth := by
  intro l hl
  cases h with
  | nil =>
    rw [fieldLines_nil] at hl
    cases hl
  | record hkey =>
    rw [fieldLines_record] at hl
    cases hl
    exact leading_eq hkey (recordLine_toList _ _)
  | plain hkey _ hv =>
    rw [fieldLines_plain hv] at hl
    cases hl
    exact leading_eq hkey (plainLine_toList _ _ _)

theorem Outer.append {fields : List (String × Json)} (h : IsReport fields) {depth : Nat}
    {more : List String} (hmore : Outer depth more) :
    Outer (depth + 1) (fieldLines text .program depth fields ++ more) := by
  intro l hl
  rw [List.head?_append] at hl
  rcases hf : (fieldLines text .program depth fields).head? with _ | l'
  · rw [hf, Option.none_or] at hl
    have := hmore l hl
    omega
  · rw [hf, Option.some_or] at hl
    cases hl
    have := leading_fieldLines h depth l hf
    omega

/-- Fields have a first line, and that is not further out. -/
theorem not_outer {fields : List (String × Json)} (h : IsReport fields) (hne : fields ≠ [])
    (depth : Nat) (more : List String) :
    ¬ Outer depth (fieldLines text .program depth fields ++ more) := by
  intro hout
  obtain ⟨l, hl⟩ : ∃ l, (fieldLines text .program depth fields).head? = some l := by
    cases h with
    | nil => exact absurd rfl hne
    | record hkey =>
      rw [fieldLines_record]
      exact ⟨_, rfl⟩
    | plain hkey _ hv =>
      rw [fieldLines_plain hv]
      exact ⟨_, rfl⟩
  have hlt := hout l (by rw [List.head?_append, hl]; rfl)
  have := leading_fieldLines h depth l hl
  omega

theorem recordLine_inj {depth : Nat} {key key' : String} (hkey : IsKey key) (hkey' : IsKey key')
    (h : recordLine depth key = recordLine depth key') : key = key' := by
  have hlist := congrArg String.toList h
  rw [recordLine_toList, recordLine_toList] at hlist
  exact (key_inj hkey hkey' (List.append_cancel_left hlist)).1

theorem plainLine_inj {depth : Nat} {key key' : String} {v v' : Json} (hkey : IsKey key)
    (hkey' : IsKey key') (h : plainLine text depth key v = plainLine text depth key' v') :
    key = key' ∧ text v = text v' := by
  have hlist := congrArg String.toList h
  rw [plainLine_toList, plainLine_toList] at hlist
  obtain ⟨hk, htext⟩ := key_inj hkey hkey' (List.append_cancel_left hlist)
  exact ⟨hk, String.toList_inj.1 (List.cons.inj htext).2⟩

/-- Nothing stands behind the colon of a record. -/
theorem recordLine_ne_plainLine {depth : Nat} {key key' : String} (hkey : IsKey key)
    (hkey' : IsKey key') (v : Json) : recordLine depth key ≠ plainLine text depth key' v := by
  intro h
  have hlist := congrArg String.toList h
  rw [recordLine_toList, plainLine_toList] at hlist
  cases (key_inj hkey hkey' (List.append_cancel_left hlist)).2

/-! ## Paths -/

/-- The fields behind a field have other keys. -/
theorem ne_key {key : String} {rest : List (String × Json)} (hbefore : ∀ p ∈ rest, key < p.1)
    {p : String × Json} (hp : p ∈ rest) : p.1 ≠ key := by
  intro hsame
  have hlt := hbefore p hp
  rw [hsame] at hlt
  exact String.lt_irrefl key hlt

section

variable {key : String} {v w : Json} {fields rest : List (String × Json)} {path : List String}

theorem at?_record : (Json.object ((key, .object fields) :: rest)).at? (key :: path) =
    (Json.object fields).at? path := by
  rw [Json.at?, Named.lookup_cons_eq, if_pos rfl]
  rfl

theorem at?_plain (hv : IsPlain v) : (Json.object ((key, v) :: rest)).at? (key :: path) =
    if path = [] then some v else none := by
  rw [Json.at?, Named.lookup_cons_eq, if_pos rfl]
  cases path with
  | nil => rfl
  | cons k path =>
    cases v with
    | object fields => cases hv
    | _ => rfl

theorem at?_rest {k : String} (hk : k ≠ key) : (Json.object ((key, v) :: rest)).at? (k :: path) =
    (Json.object rest).at? (k :: path) := by
  rw [Json.at?, Named.lookup_cons_eq, if_neg hk, Json.at?]

/-- A path into fields begins with the key of one of them. -/
theorem mem_of_at? {k : String} (h : (Json.object fields).at? (k :: path) = some w) :
    ∃ p ∈ fields, p.1 = k := by
  rw [Json.at?] at h
  obtain ⟨x, hx, -⟩ := Option.bind_eq_some_iff.1 h
  obtain ⟨before, after, rfl, -⟩ := List.lookup_eq_some_iff.1 hx
  exact ⟨(k, x), by simp, rfl⟩

end

/-- The paths of all fields of a report, a record before its own fields. -/
def paths : List (String × Json) → List (List String)
  | [] => []
  | (key, .object fields) :: rest => [key] :: ((paths fields).map (key :: ·) ++ paths rest)
  | (key, _) :: rest => [key] :: paths rest

theorem paths_plain {v : Json} (hv : IsPlain v) (key : String) (rest : List (String × Json)) :
    paths ((key, v) :: rest) = [key] :: paths rest := by
  cases v with
  | object fields => cases hv
  | _ => rw [paths]; nofun

/-- Every path begins with the key of a field. -/
theorem exists_of_mem_paths {fields : List (String × Json)} {path : List String}
    (h : path ∈ paths fields) : ∃ p ∈ fields, ∃ inner, path = p.1 :: inner := by
  fun_induction paths fields generalizing path with
  | case1 => cases h
  | case2 key fields rest ihfields ihrest =>
    rcases List.mem_cons.1 h with rfl | h
    · exact ⟨_, List.mem_cons_self .., [], rfl⟩
    rcases List.mem_append.1 h with h | h
    · obtain ⟨inner, -, rfl⟩ := List.mem_map.1 h
      exact ⟨_, List.mem_cons_self .., inner, rfl⟩
    · obtain ⟨p, hp, hpath⟩ := ihrest h
      exact ⟨p, List.mem_cons_of_mem _ hp, hpath⟩
  | case3 key v rest _ ih =>
    rcases List.mem_cons.1 h with rfl | h
    · exact ⟨_, List.mem_cons_self .., [], rfl⟩
    · obtain ⟨p, hp, hpath⟩ := ih h
      exact ⟨p, List.mem_cons_of_mem _ hp, hpath⟩

theorem notMem_paths {key : String} {rest : List (String × Json)}
    (hbefore : ∀ p ∈ rest, key < p.1) (path : List String) : key :: path ∉ paths rest := by
  intro hmem
  obtain ⟨p, hp, inner, hpath⟩ := exists_of_mem_paths hmem
  exact ne_key hbefore hp (List.cons.inj hpath).1.symm

/-- They are the paths at which something stands inside the report. -/
theorem mem_paths {fields : List (String × Json)} (h : IsReport fields) {path : List String} :
    path ∈ paths fields ↔ path ≠ [] ∧ ∃ v, (Json.object fields).at? path = some v := by
  induction h generalizing path with
  | nil => cases path <;> simp [paths, Json.at?]
  | @record key fields rest hkey hbefore hfields hrest ihfields ihrest =>
    rw [paths]
    cases path with
    | nil => simp [ihrest]
    | cons k path =>
      by_cases hk : k = key
      · subst hk
        have hnot := notMem_paths hbefore path
        rw [at?_record]
        cases path <;> simp [ihfields, hnot, Json.at?]
      · simp [at?_rest hk, ihrest, hk, Ne.symm hk]
  | @plain key v rest hkey hbefore hv hrest ih =>
    rw [paths_plain hv]
    cases path with
    | nil => simp [ih]
    | cons k path =>
      by_cases hk : k = key
      · subst hk
        have hnot := notMem_paths hbefore path
        cases path <;> simp [at?_plain hv, hnot]
      · simp [at?_rest hk, ih, hk]

theorem paths_ascend {fields : List (String × Json)} (h : IsReport fields) :
    (paths fields).Pairwise (· < ·) := by
  have hafter : ∀ {key : String} {rest : List (String × Json)} (path : List String),
      (∀ p ∈ rest, key < p.1) → ∀ path' ∈ paths rest, key :: path < path' := by
    intro key rest path hbefore path' hmem
    obtain ⟨p, hp, inner, rfl⟩ := exists_of_mem_paths hmem
    exact List.cons_lt_cons_iff.2 (.inl (hbefore p hp))
  induction h with
  | nil =>
    rw [paths]
    exact .nil
  | @record key fields rest hkey hbefore hfields hrest ihfields ihrest =>
    rw [paths]
    refine List.pairwise_cons.2 ⟨fun path hmem => ?_, List.pairwise_append.2 ⟨?_, ihrest, ?_⟩⟩
    · rcases List.mem_append.1 hmem with hmem | hmem
      · obtain ⟨inner, hinner, rfl⟩ := List.mem_map.1 hmem
        obtain ⟨p, -, more, rfl⟩ := exists_of_mem_paths hinner
        exact List.cons_lt_cons_iff.2 (.inr ⟨rfl, List.nil_lt_cons _ _⟩)
      · exact hafter [] hbefore path hmem
    · refine List.pairwise_map.2 (ihfields.imp fun hlt => ?_)
      exact List.cons_lt_cons_iff.2 (.inr ⟨rfl, hlt⟩)
    · intro path hmem path' hmem'
      obtain ⟨inner, -, rfl⟩ := List.mem_map.1 hmem
      exact hafter inner hbefore path' hmem'
  | plain hkey hbefore hv hrest ih =>
    rw [paths_plain hv]
    exact List.pairwise_cons.2 ⟨hafter [] hbefore, ih⟩

/-! ## Lines by paths -/

/-- The line of what stands at a path: blanks, two for every record around it, its key, a colon, and
the value if it is no record. -/
def lineAt (text : Json → String) (depth : Nat) (v : Json) (path : List String) : String :=
  match v.at? path with
  | some (.object _) => recordLine (depth + (path.length - 1)) (path.getLastD "")
  | some w => plainLine text (depth + (path.length - 1)) (path.getLastD "") w
  | none => ""

theorem map_lineAt_rest {key : String} {rest : List (String × Json)}
    (hbefore : ∀ p ∈ rest, key < p.1) (v : Json) (depth : Nat) :
    (paths rest).map (lineAt text depth (.object ((key, v) :: rest))) =
      (paths rest).map (lineAt text depth (.object rest)) := by
  refine List.map_congr_left fun path hmem => ?_
  obtain ⟨p, hp, inner, rfl⟩ := exists_of_mem_paths hmem
  rw [lineAt, lineAt, at?_rest (ne_key hbefore hp)]

theorem lineAt_record (key k : String) (fields rest : List (String × Json)) (depth : Nat)
    (path : List String) :
    lineAt text depth (.object ((key, .object fields) :: rest)) (key :: k :: path) =
      lineAt text (depth + 1) (.object fields) (k :: path) := by
  rw [lineAt, lineAt, at?_record]
  have hdepth : depth + ((key :: k :: path).length - 1) = depth + 1 + ((k :: path).length - 1) := by
    simp only [List.length_cons]
    omega
  rw [hdepth]
  rfl

theorem fieldLines_eq_paths {fields : List (String × Json)} (h : IsReport fields) (depth : Nat) :
    fieldLines text .program depth fields =
      (paths fields).map (lineAt text depth (.object fields)) := by
  induction h generalizing depth with
  | nil =>
    rw [fieldLines, paths]
    rfl
  | @record key fields rest hkey hbefore hfields hrest ihfields ihrest =>
    have hinner : ((paths fields).map (key :: ·)).map
        (lineAt text depth (.object ((key, .object fields) :: rest))) =
          (paths fields).map (lineAt text (depth + 1) (.object fields)) := by
      rw [List.map_map]
      refine List.map_congr_left fun path hmem => ?_
      obtain ⟨p, -, inner, rfl⟩ := exists_of_mem_paths hmem
      exact lineAt_record key p.1 fields rest depth inner
    rw [fieldLines_record, paths, List.map_cons, List.map_append, hinner, map_lineAt_rest hbefore,
      ihfields, ihrest]
    rw [lineAt, at?_record]
    rfl
  | @plain key v rest hkey hbefore hv hrest ih =>
    rw [fieldLines_plain hv, paths_plain hv, List.map_cons, map_lineAt_rest hbefore, ih]
    rw [lineAt, at?_plain hv, if_pos rfl]
    cases v with
    | object fields => cases hv
    | _ => rfl

/-! ## Telling reports apart -/

/-- The plain values of two reports can be told apart by their text. -/
def PrintsApart (text : Json → String) (fields fields' : List (String × Json)) : Prop :=
  ∀ path path' v v', (Json.object fields).at? path = some v → (Json.object fields').at? path' = some v' →
    IsPlain v → IsPlain v' → text v = text v' → v = v'

/-- Every plain value of the first report is one of the second. -/
def Within (fields fields' : List (String × Json)) : Prop :=
  ∀ path v, IsPlain v → (Json.object fields).at? path = some v →
    ∃ path', (Json.object fields').at? path' = some v

theorem within_record (key : String) (fields rest : List (String × Json)) :
    Within fields ((key, .object fields) :: rest) :=
  fun path _ _ hpath => ⟨key :: path, at?_record.trans hpath⟩

theorem within_rest {key : String} {rest : List (String × Json)} (hbefore : ∀ p ∈ rest, key < p.1)
    (v : Json) : Within rest ((key, v) :: rest) := by
  intro path w hw hpath
  cases path with
  | nil =>
    cases hpath
    cases hw
  | cons k path =>
    obtain ⟨p, hp, rfl⟩ := mem_of_at? hpath
    exact ⟨p.1 :: path, (at?_rest (ne_key hbefore hp)).trans hpath⟩

theorem PrintsApart.mono {fields fields' inner inner' : List (String × Json)}
    (h : PrintsApart text fields fields') (hin : Within inner fields) (hin' : Within inner' fields') :
    PrintsApart text inner inner' := by
  intro path path' v v' hpath hpath' hv hv' hsame
  obtain ⟨outer, houter⟩ := hin path v hv hpath
  obtain ⟨outer', houter'⟩ := hin' path' v' hv' hpath'
  exact h outer outer' v v' houter houter' hv hv' hsame

/-- The lines of the fields of a record give the fields, whatever lines stand behind them, as long
as those stand further out. -/
theorem fieldLines_append_inj {fields fields' : List (String × Json)} (h : IsReport fields)
    (h' : IsReport fields') (hprint : PrintsApart text fields fields') {depth : Nat}
    {more more' : List String} (hmore : Outer depth more) (hmore' : Outer depth more')
    (hlines : fieldLines text .program depth fields ++ more =
      fieldLines text .program depth fields' ++ more') :
    fields = fields' ∧ more = more' := by
  induction h generalizing fields' depth more more' with
  | nil =>
    rw [fieldLines_nil, List.nil_append] at hlines
    cases fields' with
    | nil => exact ⟨rfl, by rwa [fieldLines_nil, List.nil_append] at hlines⟩
    | cons p rest' => exact absurd (hlines ▸ hmore) (not_outer h' (List.cons_ne_nil _ _) depth more')
  | @record key fields rest hkey hbefore hfields hrest ihfields ihrest =>
    cases h' with
    | nil =>
      rw [fieldLines_nil, List.nil_append] at hlines
      exact absurd (hlines ▸ hmore')
        (not_outer (.record hkey hbefore hfields hrest) (List.cons_ne_nil _ _) depth more)
    | @record key' fields' rest' hkey' hbefore' hfields' hrest' =>
      rw [fieldLines_record, fieldLines_record, List.cons_append, List.cons_append,
        List.append_assoc, List.append_assoc] at hlines
      obtain ⟨hline, hinner⟩ := List.cons.inj hlines
      obtain rfl := recordLine_inj hkey hkey' hline
      -- behind the inner fields come the other fields of this record, and then whatever follows
      obtain ⟨rfl, houter⟩ := ihfields hfields'
        (hprint.mono (within_record key fields rest) (within_record key fields' rest'))
        (hmore.append hrest) (hmore'.append hrest') hinner
      obtain ⟨rfl, rfl⟩ := ihrest hrest'
        (hprint.mono (within_rest hbefore _) (within_rest hbefore' _)) hmore hmore' houter
      exact ⟨rfl, rfl⟩
    | @plain key' v' rest' hkey' hbefore' hv' hrest' =>
      rw [fieldLines_record, fieldLines_plain hv'] at hlines
      exact absurd (List.cons.inj hlines).1 (recordLine_ne_plainLine hkey hkey' v')
  | @plain key v rest hkey hbefore hv hrest ih =>
    cases h' with
    | nil =>
      rw [fieldLines_nil, List.nil_append] at hlines
      exact absurd (hlines ▸ hmore')
        (not_outer (.plain hkey hbefore hv hrest) (List.cons_ne_nil _ _) depth more)
    | @record key' fields' rest' hkey' hbefore' hfields' hrest' =>
      rw [fieldLines_plain hv, fieldLines_record] at hlines
      exact absurd (List.cons.inj hlines).1.symm (recordLine_ne_plainLine hkey' hkey v)
    | @plain key' v' rest' hkey' hbefore' hv' hrest' =>
      rw [fieldLines_plain hv, fieldLines_plain hv', List.cons_append, List.cons_append] at hlines
      obtain ⟨hline, houter⟩ := List.cons.inj hlines
      obtain ⟨rfl, htext⟩ := plainLine_inj hkey hkey' hline
      obtain rfl := hprint [key] [key] v v' (at?_plain hv) (at?_plain hv') hv hv' htext
      obtain ⟨rfl, rfl⟩ := ih hrest'
        (hprint.mono (within_rest hbefore _) (within_rest hbefore' _)) hmore hmore' houter
      exact ⟨rfl, rfl⟩

/-- Reports whose plain values have different texts are told apart by their lines for programs. The
lines are those of the fields at any depth by their paths, in ascending order: two blanks for every
record around a field, its key, a colon, and its value if it is no record. -/
theorem lines_tell_reports {fields fields' : List (String × Json)} (h : IsReport fields)
    (h' : IsReport fields') (hprint : PrintsApart text fields fields') :
    (lines text .program (.object fields) = lines text .program (.object fields') ↔ fields = fields') ∧
    ∃ ps : List (List String), ps.Pairwise (· < ·) ∧
      (∀ path, path ∈ ps ↔ path ≠ [] ∧ ∃ v, (Json.object fields).at? path = some v) ∧
      lines text .program (.object fields) = ps.map (lineAt text 0 (.object fields)) := by
  have hlines : ∀ fields, lines text .program (.object fields) = fieldLines text .program 0 fields := by
    intro fields
    rw [lines, linesAt]
  refine ⟨⟨fun hsame => ?_, fun hsame => by rw [hsame]⟩,
    paths fields, paths_ascend h, fun _ => mem_paths h, ?_⟩
  · rw [hlines, hlines] at hsame
    have hnone : Outer 0 [] := by rintro l ⟨⟩
    exact (fieldLines_append_inj h h' hprint hnone hnone (by rw [hsame])).1
  · rw [hlines, fieldLines_eq_paths h]

/-- A plain value of some fields stands in the first one or in the others. -/
theorem at?_cons {key : String} {v w : Json} {rest : List (String × Json)} {path : List String}
    (hv : IsPlain v) (h : (Json.object ((key, w) :: rest)).at? path = some v) :
    (∃ inner, w.at? inner = some v) ∨ (Json.object rest).at? path = some v := by
  cases path with
  | nil =>
    cases h
    cases hv
  | cons k path =>
    by_cases hk : k = key
    · subst hk
      rw [Json.at?, Named.lookup_cons_eq, if_pos rfl] at h
      exact .inl ⟨path, h⟩
    · rw [at?_rest hk] at h
      exact .inr h

theorem at?_nil {v : Json} {path : List String} (hv : IsPlain v) :
    (Json.object []).at? path ≠ some v := by
  intro h
  cases path with
  | nil =>
    cases h
    cases hv
  | cons k path => cases h

/-- A count inside a record is not one beside it. -/
theorem lines_tell_inner_from_outer :
    lines Json.compact .program (.object [("status", .object [("used", .number (.natural 3))])]) ≠
      lines Json.compact .program (.object [("status", .object []), ("used", .number (.natural 3))]) := by
  have h : IsReport [("status", .object [("used", .number (.natural 3))])] :=
    .record (by decide) nofun (.plain (by decide) nofun trivial .nil) .nil
  have h' : IsReport [("status", .object []), ("used", .number (.natural 3))] :=
    .record (by decide) (by decide) .nil (.plain (by decide) nofun trivial .nil)
  have hcount : ∀ {path : List String} {v : Json},
      (Json.number (.natural 3)).at? path = some v → v = .number (.natural 3) := by
    intro path v hpath
    cases path <;> cases hpath
    rfl
  refine fun hsame => absurd ((lines_tell_reports h h' ?_).1.1 hsame) (by simp)
  -- both reports have the one value 3
  intro path path' v v' hpath hpath' hv hv' _
  have hleft : v = .number (.natural 3) := by
    rcases at?_cons hv hpath with ⟨inner, hinner⟩ | hrest
    · rcases at?_cons hv hinner with ⟨_, hvalue⟩ | hrest
      · exact hcount hvalue
      · exact absurd hrest (at?_nil hv)
    · exact absurd hrest (at?_nil hv)
  have hright : v' = .number (.natural 3) := by
    rcases at?_cons hv' hpath' with ⟨inner, hinner⟩ | hrest
    · exact absurd hinner (at?_nil hv')
    · rcases at?_cons hv' hrest with ⟨_, hvalue⟩ | hrest
      · exact hcount hvalue
      · exact absurd hrest (at?_nil hv')
  rw [hleft, hright]

end Report

end ResultCache
