/-
The standard format is faithful (`TextFormat.standard_faithful`). The compact text of any value is
taken apart into its tree: its tokens are found again in their order, since a number stands in front
of a comma or an end only, and the steps that build the tree put every container together from what
stands between its ends, whatever containers are open around it.
-/
import ResultCache.Json.Printer
import ResultCache.Proofs.Json.Format
import ResultCache.Proofs.Json.Token

namespace ResultCache.Json

/-! ## Numbers -/

/-- What is found of a number: the one that its literal means. -/
def Number.found (n : Number) : Tree := if n.isFinite then .number n.literal.number? else .null

theorem Number.token_written (n : Number) : n.token.Written := by
  unfold token
  split
  · exact n.literal_wellFormed
  · trivial

theorem Number.token_endsBefore (n : Number) {rest : List Char} (h : Ends rest) :
    n.token.EndsBefore rest := by
  unfold token
  split
  · exact h
  · trivial

/-! ## Tokens -/

/-- The text of these tokens is cut into them, in front of this rest. -/
def Lexes (ts : List Token) (rest : List Char) : Prop :=
  lex (ts.flatMap Token.chars ++ rest) = (lex rest).map (ts ++ ·)

namespace Lexes

variable {t : Token} {ts us : List Token} {rest : List Char}

theorem nil : Lexes [] rest := Option.map_id'.symm

theorem cons (ht : t.Written) (hrest : t.EndsBefore (ts.flatMap Token.chars ++ rest))
    (h : Lexes ts rest) : Lexes (t :: ts) rest := by
  rw [Lexes, List.flatMap_cons, List.append_assoc, lex_chars ht hrest, h, Option.map_map]
  rfl

theorem append (h : Lexes ts (us.flatMap Token.chars ++ rest)) (h' : Lexes us rest) :
    Lexes (ts ++ us) rest := by
  rw [Lexes, List.flatMap_append, List.append_assoc, h, h', Option.map_map]
  simp only [Function.comp_def, List.append_assoc]

end Lexes

theorem ends_moreItemTokens (items : List Json) (rest : List Char) :
    Ends ((moreItemTokens items).flatMap Token.chars ++ rest) := by
  cases items <;> exact ends_cons.2 (by decide)

theorem ends_moreFieldTokens (fields : List (String × Json)) (rest : List Char) :
    Ends ((moreFieldTokens fields).flatMap Token.chars ++ rest) := by
  cases fields <;> exact ends_cons.2 (by decide)

mutual

theorem lexes_tokens {rest : List Char} (h : Ends rest) : (v : Json) → Lexes v.tokens rest
  | .null => .cons trivial trivial .nil
  | .bool _ => .cons trivial trivial .nil
  | .number n => .cons n.token_written (n.token_endsBefore h) .nil
  | .string s => .cons ⟨s, rfl⟩ trivial .nil
  | .array items => .cons trivial trivial (lexes_itemTokens rest items)
  | .object fields => .cons trivial trivial (lexes_fieldTokens rest fields)

theorem lexes_itemTokens (rest : List Char) : (items : List Json) → Lexes (itemTokens items) rest
  | [] => .cons trivial trivial .nil
  | v :: items =>
    (lexes_tokens (ends_moreItemTokens items rest) v).append (lexes_moreItemTokens rest items)

theorem lexes_moreItemTokens (rest : List Char) :
    (items : List Json) → Lexes (moreItemTokens items) rest
  | [] => .cons trivial trivial .nil
  | v :: items =>
    .cons trivial trivial
      ((lexes_tokens (ends_moreItemTokens items rest) v).append (lexes_moreItemTokens rest items))

theorem lexes_fieldTokens (rest : List Char) :
    (fields : List (String × Json)) → Lexes (fieldTokens fields) rest
  | [] => .cons trivial trivial .nil
  | (key, v) :: fields =>
    .cons ⟨key, rfl⟩ trivial (.cons trivial trivial
      ((lexes_tokens (ends_moreFieldTokens fields rest) v).append
        (lexes_moreFieldTokens rest fields)))

theorem lexes_moreFieldTokens (rest : List Char) :
    (fields : List (String × Json)) → Lexes (moreFieldTokens fields) rest
  | [] => .cons trivial trivial .nil
  | (key, v) :: fields =>
    .cons trivial trivial (.cons ⟨key, rfl⟩ trivial (.cons trivial trivial
      ((lexes_tokens (ends_moreFieldTokens fields rest) v).append
        (lexes_moreFieldTokens rest fields))))

end

/-! ## Building -/

namespace Tree

/-- These tokens, taken in one after another, lead from the one state to the other. -/
def Leads (ts : List Token) (p q : Progress) : Prop := ts.foldlM Progress.step p = some q

namespace Leads

variable {t : Token} {ts us : List Token} {p q r : Progress}

theorem nil : Leads [] p p := rfl

theorem cons (ht : p.step t = some q) (h : Leads ts q r) : Leads (t :: ts) p r := by
  rw [Leads, List.foldlM_cons, ht]
  exact h

theorem append (h : Leads ts p q) (h' : Leads us q r) : Leads (ts ++ us) p r := by
  rw [Leads, List.foldlM_append, h]
  exact h'

end Leads

theorem step_token (n : Number) (stack : List Open) :
    Progress.step ⟨.value, stack⟩ n.token = some (.put n.found stack) := by
  unfold Number.token Number.found
  split <;> rfl

theorem step_string (s : String) (stack : List Open) :
    Progress.step ⟨.value, stack⟩ (.string (unitsOf s)) = some (.put (.string (some s)) stack) := by
  rw [← textOf?_unitsOf]
  rfl

theorem step_firstKey (key : String) (stack : List Open) :
    Progress.step ⟨.firstKey, stack⟩ (.string (unitsOf key)) = some ⟨.colon [] (some key), stack⟩ := by
  rw [← textOf?_unitsOf]
  rfl

theorem step_key (key : String) (fields : List (Option String × Tree)) (stack : List Open) :
    Progress.step ⟨.key fields, stack⟩ (.string (unitsOf key)) =
      some ⟨.colon fields (some key), stack⟩ := by
  rw [← textOf?_unitsOf]
  rfl

/-- Where an array may end, a value is started as anywhere else. -/
theorem leads_firstItem {v : Json} {items : List Tree} {stack : List Open} {q : Progress}
    (h : Leads v.tokens ⟨.value, .array items :: stack⟩ q) :
    Leads v.tokens ⟨.firstItem, .array items :: stack⟩ q := by
  cases v with
  | number n =>
    have htokens : (Json.number n).tokens = [.number n.literal] ∨ (Json.number n).tokens = [.null] := by
      rw [tokens, Number.token]
      split
      · exact .inl rfl
      · exact .inr rfl
    rcases htokens with ht | ht <;> rw [ht] at h ⊢ <;> exact h
  | _ => exact h

mutual

/-- A value is put into whatever is open around it. -/
theorem leads_tokens (stack : List Open) :
    (v : Json) → Leads v.tokens ⟨.value, stack⟩ (.put (v.tree Number.found) stack)
  | .null => .cons rfl .nil
  | .bool _ => .cons rfl .nil
  | .number n => .cons (step_token n stack) .nil
  | .string s => .cons (step_string s stack) .nil
  | .array items => .cons rfl (leads_itemTokens stack items)
  | .object fields => .cons rfl (leads_fieldTokens stack fields)

theorem leads_itemTokens (stack : List Open) : (items : List Json) →
    Leads (itemTokens items) ⟨.firstItem, .array [] :: stack⟩
      (.put (.array (itemTrees Number.found items)) stack)
  | [] => .cons rfl .nil
  | v :: rest =>
    (leads_firstItem (leads_tokens (.array [] :: stack) v)).append
      (leads_moreItemTokens [v.tree Number.found] stack rest)

theorem leads_moreItemTokens (before : List Tree) (stack : List Open) : (items : List Json) →
    Leads (moreItemTokens items) ⟨.more, .array before :: stack⟩
      (.put (.array (before.reverse ++ itemTrees Number.found items)) stack)
  | [] => by
    rw [itemTrees, List.append_nil]
    exact .cons rfl .nil
  | v :: rest => by
    have h := leads_moreItemTokens (v.tree Number.found :: before) stack rest
    rw [List.reverse_cons, List.append_assoc] at h
    exact .cons rfl ((leads_tokens (.array before :: stack) v).append h)

theorem leads_fieldTokens (stack : List Open) : (fields : List (String × Json)) →
    Leads (fieldTokens fields) ⟨.firstKey, stack⟩
      (.put (.object (fieldTrees Number.found fields)) stack)
  | [] => .cons rfl .nil
  | (key, v) :: rest =>
    .cons (step_firstKey key stack) (.cons rfl ((leads_tokens (.object [] (some key) :: stack) v).append
      (leads_moreFieldTokens [(some key, v.tree Number.found)] none stack rest)))

theorem leads_moreFieldTokens (before : List (Option String × Tree)) (last : Option String)
    (stack : List Open) : (fields : List (String × Json)) →
    Leads (moreFieldTokens fields) ⟨.more, .object before last :: stack⟩
      (.put (.object (before.reverse ++ fieldTrees Number.found fields)) stack)
  | [] => by
    rw [fieldTrees, List.append_nil]
    exact .cons rfl .nil
  | (key, v) :: rest => by
    have h := leads_moreFieldTokens ((some key, v.tree Number.found) :: before) none stack rest
    rw [List.reverse_cons, List.append_assoc] at h
    exact .cons rfl (.cons (step_key key before stack) (.cons rfl
      ((leads_tokens (.object before (some key) :: stack) v).append h)))

end

theorem parse_compact (v : Json) : parse v.compact = some (v.tree Number.found) := by
  have hlex : lex v.compact.toList = some v.tokens := by
    have h := lexes_tokens ends_nil v
    rw [Lexes, lex, List.append_nil, Option.map_some, List.append_nil] at h
    rw [compact, String.toList_ofList, h]
  have hbuild : v.tokens.foldlM Progress.step {} = some ⟨.nothing (v.tree Number.found), []⟩ :=
    leads_tokens [] v
  rw [parse, hlex]
  simp only [ofTokens?, hbuild, Option.bind_eq_bind, Option.bind_some]

end Tree

/-- Whatever is written in the standard format is found again. -/
theorem TextFormat.standard_faithful : TextFormat.standard.Faithful Number.found where
  read_compact v _ := Tree.parse_compact v
  natural n := congrArg Tree.number (Number.number?_natural n)
  negative _ h := congrArg Tree.number (Number.number?_negative h)
  not_finite b h := by
    rw [Number.found, Number.isFinite, h, if_neg Bool.false_ne_true]

end ResultCache.Json
