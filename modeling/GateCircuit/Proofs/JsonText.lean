/-
# Values survive their text

A value on one line is the spelling of its tokens: brackets around items or members, commas between
them, and no number beside a number. Reading the tokens back takes at most twice as many steps as there
are tokens. So every value that has a text of its own, strings that are text and numerals with their
digits, is parsed from that text as it was.

Key definitions: `Json.tokens`, `Json.WellFormed`.
Key theorems: `Json.compact_eq_spellings`, `Json.value_tokens`, `Json.parse_compact`.
-/
import Mathlib
import GateCircuit.Json.Reader
import GateCircuit.Proofs.JsonTokens

namespace GateCircuit
namespace Json

open JsonToken (spelling)

mutual

/-- The tokens of a value. -/
def tokens : Json → List JsonToken
  | null => [.null]
  | bool b => [.bool b]
  | number numeral => [.number numeral]
  | string text => [.string text]
  | array list => .beginArray :: (itemTokens list ++ [.endArray])
  | object list => .beginObject :: (memberTokens list ++ [.endObject])

/-- The tokens of items, with commas between them. -/
def itemTokens : List Json → List JsonToken
  | [] => []
  | [item] => tokens item
  | item :: rest => tokens item ++ .comma :: itemTokens rest

/-- The tokens of members, with commas between them. -/
def memberTokens : List (Option String × Json) → List JsonToken
  | [] => []
  | [(key, value)] => .string key :: .colon :: tokens value
  | (key, value) :: rest => .string key :: .colon :: (tokens value ++ .comma :: memberTokens rest)

end

theorem itemTokens_cons_cons (item next : Json) (rest : List Json) :
    itemTokens (item :: next :: rest) = tokens item ++ .comma :: itemTokens (next :: rest) := by
  rw [itemTokens]
  nofun

theorem memberTokens_cons_cons (key : Option String) (value : Json) (next : Option String × Json)
    (rest : List (Option String × Json)) : memberTokens ((key, value) :: next :: rest) =
      .string key :: .colon :: (tokens value ++ .comma :: memberTokens (next :: rest)) := by
  rw [memberTokens]
  nofun

/-- Values that have a text of their own. -/
def WellFormed (j : Json) : Prop := ∀ t ∈ j.tokens, t.WellFormed

section WellFormed

theorem wellFormed_itemTokens : ∀ list : List Json,
    (∀ t ∈ itemTokens list, t.WellFormed) ↔ ∀ j ∈ list, j.WellFormed
  | [] => by simp [itemTokens]
  | [item] => by simp [itemTokens, WellFormed]
  | item :: next :: rest => by
    have hrest := wellFormed_itemTokens (next :: rest)
    rw [itemTokens_cons_cons, List.forall_mem_append, List.forall_mem_cons, hrest,
      @List.forall_mem_cons _ _ item]
    exact and_congr_right fun _ => and_iff_right trivial

theorem wellFormed_memberTokens : ∀ list : List (Option String × Json),
    (∀ t ∈ memberTokens list, t.WellFormed) ↔ ∀ m ∈ list, m.1.isSome ∧ m.2.WellFormed
  | [] => by simp [memberTokens]
  | [(key, value)] => by simp [memberTokens, WellFormed, JsonToken.WellFormed]
  | (key, value) :: next :: rest => by
    have hrest := wellFormed_memberTokens (next :: rest)
    rw [memberTokens_cons_cons, List.forall_mem_cons, List.forall_mem_cons, List.forall_mem_append,
      List.forall_mem_cons, hrest, @List.forall_mem_cons _ _ (key, value), and_assoc]
    refine and_congr_right fun _ => (and_iff_right trivial).trans ?_
    exact and_congr_right fun _ => and_iff_right trivial

theorem wellFormed_array (list : List Json) :
    (array list).WellFormed ↔ ∀ j ∈ list, j.WellFormed := by
  rw [WellFormed, tokens, List.forall_mem_cons, List.forall_mem_append, wellFormed_itemTokens]
  simp [JsonToken.WellFormed]

theorem wellFormed_object (list : List (Option String × Json)) :
    (object list).WellFormed ↔ ∀ m ∈ list, m.1.isSome ∧ m.2.WellFormed := by
  rw [WellFormed, tokens, List.forall_mem_cons, List.forall_mem_append, wellFormed_memberTokens]
  simp [JsonToken.WellFormed]

/-- A record of values that have a text has one too. -/
theorem wellFormed_ofFields {fields : List (String × Json)} (h : ∀ f ∈ fields, f.2.WellFormed) :
    (ofFields fields).WellFormed := by
  rw [ofFields, wellFormed_object, List.forall_mem_map]
  exact fun f hf => ⟨rfl, h f hf⟩

theorem wellFormed_number {numeral : Numeral} (h : numeral.WellFormed) :
    (number numeral).WellFormed :=
  List.forall_mem_singleton.mpr h

theorem wellFormed_ofText (text : String) : (ofText text).WellFormed :=
  List.forall_mem_singleton.mpr rfl

theorem wellFormed_ofNat (n : ℕ) : (ofNat n).WellFormed := wellFormed_number (Numeral.wellFormed_ofNat n)

theorem wellFormed_null : null.WellFormed := List.forall_mem_singleton.mpr trivial

end WellFormed

/-! ### Writing -/

mutual

/-- **A value on one line is the spelling of its tokens.** -/
theorem compact_eq_spellings : ∀ j : Json, j.compact = j.tokens.flatMap spelling
  | null => rfl
  | bool true => rfl
  | bool false => rfl
  | number numeral => by simp [compact, tokens, spelling]
  | string text => by simp [compact, tokens, spelling]
  | array list => by
    simp [compact, tokens, spelling, compactItems_eq_spellings list]
  | object list => by
    simp [compact, tokens, spelling, compactMembers_eq_spellings list]

theorem compactItems_eq_spellings :
    ∀ list : List Json, compactItems list = (itemTokens list).flatMap spelling
  | [] => rfl
  | [item] => compact_eq_spellings item
  | item :: next :: rest => by
    rw [compactItems, itemTokens_cons_cons, List.flatMap_append, List.flatMap_cons,
      compact_eq_spellings item, compactItems_eq_spellings (next :: rest)]
    · rfl
    · nofun

theorem compactMembers_eq_spellings :
    ∀ list : List (Option String × Json), compactMembers list = (memberTokens list).flatMap spelling
  | [] => rfl
  | [(key, value)] => by
    rw [compactMembers, memberTokens, compact_eq_spellings value]
    rfl
  | (key, value) :: next :: rest => by
    rw [compactMembers, memberTokens_cons_cons, compact_eq_spellings value,
      compactMembers_eq_spellings (next :: rest)]
    · simp [spelling]
    · nofun

end

/-- No number directly follows a number. -/
abbrev Apart (ts : List JsonToken) : Prop :=
  ts.IsChain fun t u => t.isNumber → u.isNumber = false

/-- A token that is no number keeps what stands around it apart. -/
theorem Apart.glue {ts us : List JsonToken} {t : JsonToken} (hts : Apart ts) (hus : Apart us)
    (ht : t.isNumber = false) : Apart (ts ++ t :: us) := by
  have htail : Apart (t :: us) := hus.cons fun _ _ hnumber => by simp [ht] at hnumber
  exact hts.append htail fun _ _ _ hu _ => Option.some.inj hu ▸ ht

mutual

theorem apart_tokens : ∀ j : Json, Apart j.tokens
  | null | bool _ | number _ | string _ => .singleton _
  | array list => by
    have hinside := (apart_itemTokens list).glue (t := .endArray) .nil rfl
    exact Apart.glue .nil hinside rfl
  | object list => by
    have hinside := (apart_memberTokens list).glue (t := .endObject) .nil rfl
    exact Apart.glue .nil hinside rfl

theorem apart_itemTokens : ∀ list : List Json, Apart (itemTokens list)
  | [] => .nil
  | [item] => apart_tokens item
  | item :: next :: rest => by
    rw [itemTokens_cons_cons]
    exact (apart_tokens item).glue (apart_itemTokens (next :: rest)) rfl

theorem apart_memberTokens : ∀ list : List (Option String × Json), Apart (memberTokens list)
  | [] => .nil
  | [(key, value)] => by
    have hvalue := Apart.glue (t := .colon) .nil (apart_tokens value) rfl
    exact Apart.glue .nil hvalue rfl
  | (key, value) :: next :: rest => by
    have hrest := (apart_tokens value).glue (t := .comma) (apart_memberTokens (next :: rest)) rfl
    rw [memberTokens_cons_cons]
    exact Apart.glue .nil (Apart.glue .nil hrest rfl) rfl

end

/-! ### Reading -/

section Reading

variable {fuel : ℕ} {ts rest : List JsonToken}

/-- A value starts with a token that closes nothing. -/
theorem tokens_head (j : Json) : ∃ t us, j.tokens = t :: us ∧ t ≠ .endArray := by
  cases j <;> exact ⟨_, _, rfl, nofun⟩

theorem itemTokens_head (first : Json) (list : List Json) :
    ∃ t us, itemTokens (first :: list) = t :: us ∧ t ≠ .endArray := by
  obtain ⟨t, us, htokens, ht⟩ := tokens_head first
  cases list with
  | nil => exact ⟨t, us, htokens, ht⟩
  | cons next list =>
    exact ⟨t, _, by rw [itemTokens_cons_cons, htokens, List.cons_append], ht⟩

theorem memberTokens_head (key : Option String) (first : Json) (list : List (Option String × Json)) :
    ∃ us, memberTokens ((key, first) :: list) = .string key :: us := by
  cases list with
  | nil => exact ⟨_, rfl⟩
  | cons next list => exact ⟨_, memberTokens_cons_cons key first next list⟩

/-- The step of `value` at an array that is not empty. -/
theorem value_array {t : JsonToken} (ht : t ≠ .endArray) :
    value (fuel + 1) (.beginArray :: t :: ts) =
      (items fuel (t :: ts)).map fun (list, rest) => (.array list, rest) := by
  cases t <;> first | exact absurd rfl ht | rfl

mutual

/-- **The tokens of a value are read as that value**, and nothing after them is touched. -/
theorem value_tokens : ∀ (j : Json) (fuel : ℕ) (rest : List JsonToken),
    2 * j.tokens.length ≤ fuel + 1 → value fuel (j.tokens ++ rest) = some (j, rest)
  | null, fuel + 1, _, _ | bool _, fuel + 1, _, _ | number _, fuel + 1, _, _
  | string _, fuel + 1, _, _ => rfl
  | array [], fuel + 1, _, _ => rfl
  | array (first :: list), fuel + 1, rest, hfuel => by
    obtain ⟨t, us, htokens, ht⟩ := itemTokens_head first list
    have hitems := items_tokens first list fuel rest (by
      simp only [tokens, List.length_cons, List.length_append] at hfuel
      omega)
    rw [htokens] at hitems
    rw [tokens, htokens]
    simp only [List.cons_append, List.append_assoc, List.nil_append] at hitems ⊢
    rw [value_array ht, hitems]
    rfl
  | object [], fuel + 1, _, _ => rfl
  | object ((key, first) :: list), fuel + 1, rest, hfuel => by
    have hmembers := members_tokens key first list fuel rest (by
      simp only [tokens, List.length_cons, List.length_append] at hfuel
      omega)
    obtain ⟨us, htokens⟩ := memberTokens_head key first list
    rw [htokens] at hmembers
    rw [tokens, htokens]
    simp only [List.cons_append, List.append_assoc, List.nil_append] at hmembers ⊢
    rw [value]
    · rw [hmembers]
      rfl
    · nofun
  | j, 0, _, hfuel => by
    obtain ⟨t, us, htokens, -⟩ := tokens_head j
    rw [htokens, List.length_cons] at hfuel
    omega

theorem items_tokens : ∀ (first : Json) (list : List Json) (fuel : ℕ) (rest : List JsonToken),
    2 * (itemTokens (first :: list)).length ≤ fuel →
      items fuel (itemTokens (first :: list) ++ .endArray :: rest) = some (first :: list, rest)
  | first, [], fuel + 1, rest, hfuel => by
    have hfirst := value_tokens first fuel (.endArray :: rest) (by
      rw [itemTokens] at hfuel
      omega)
    rw [itemTokens, items, hfirst]
    rfl
  | first, next :: list, fuel + 1, rest, hfuel => by
    rw [itemTokens_cons_cons] at hfuel ⊢
    rw [List.length_append, List.length_cons] at hfuel
    have hfirst := value_tokens first fuel
      (.comma :: (itemTokens (next :: list) ++ .endArray :: rest)) (by omega)
    have hlist := items_tokens next list fuel rest (by omega)
    rw [List.append_assoc, List.cons_append, items, hfirst]
    simp only [Option.bind_eq_bind, Option.bind_some, hlist]
  | first, list, 0, rest, hfuel => by
    obtain ⟨t, us, htokens, -⟩ := itemTokens_head first list
    rw [htokens, List.length_cons] at hfuel
    omega

theorem members_tokens : ∀ (key : Option String) (first : Json) (list : List (Option String × Json))
    (fuel : ℕ) (rest : List JsonToken), 2 * (memberTokens ((key, first) :: list)).length ≤ fuel →
      members fuel (memberTokens ((key, first) :: list) ++ .endObject :: rest) =
        some ((key, first) :: list, rest)
  | key, first, [], fuel + 1, rest, hfuel => by
    rw [memberTokens, List.length_cons, List.length_cons] at hfuel
    have hfirst := value_tokens first fuel (.endObject :: rest) (by omega)
    rw [memberTokens, List.cons_append, List.cons_append, members, hfirst]
    rfl
  | key, first, (nextKey, next) :: list, fuel + 1, rest, hfuel => by
    rw [memberTokens_cons_cons] at hfuel ⊢
    rw [List.length_cons, List.length_cons, List.length_append, List.length_cons] at hfuel
    have hfirst := value_tokens first fuel
      (.comma :: (memberTokens ((nextKey, next) :: list) ++ .endObject :: rest)) (by omega)
    have hlist := members_tokens nextKey next list fuel rest (by omega)
    rw [List.cons_append, List.cons_append, List.append_assoc, List.cons_append, members, hfirst]
    simp only [Option.bind_eq_bind, Option.bind_some, hlist]
  | key, first, list, 0, rest, hfuel => by
    obtain ⟨us, htokens⟩ := memberTokens_head key first list
    rw [htokens, List.length_cons] at hfuel
    omega

end

end Reading

/-- **A value is parsed from its text as it was.** -/
theorem parse_compact {j : Json} (hj : j.WellFormed) : parse (String.ofList j.compact) = some j := by
  have hvalue := value_tokens j (2 * j.tokens.length) [] (by omega)
  rw [List.append_nil] at hvalue
  rw [parse, String.toList_ofList, compact_eq_spellings,
    JsonToken.lex_spellings hj (apart_tokens j)]
  simp only [Option.bind_eq_bind, Option.bind_some, hvalue, List.isEmpty_nil, if_true]

end Json
end GateCircuit
