/-
# Tokens and their spelling

Every token has one spelling, and scanning the spelling returns the token and what follows it. Escapes
are read back one character at a time. A number needs a text after it that does not read on: no digit,
point or exponent letter. So spelled tokens are cut apart as they were, if no number stands next to a
number.

Key definitions: `JsonToken.spelling`, `JsonToken.WellFormed`, `JsonToken.EndsNumber`.
Key theorems: `JsonToken.scanUnits_escaped`, `JsonToken.joinUnits_toNat`, `JsonToken.scan_spelling`,
`JsonToken.lex_spellings`.
-/
import Mathlib
import GateCircuit.Json.Token
import GateCircuit.Json.Writer
import GateCircuit.Proofs.Numerals

namespace GateCircuit
namespace JsonToken

/-- A token as text. -/
def spelling : JsonToken → List Char
  | beginArray => ['[']
  | endArray => [']']
  | beginObject => ['\x7b']
  | endObject => ['\x7d']
  | comma => [',']
  | colon => [':']
  | null => ['n', 'u', 'l', 'l']
  | bool true => ['t', 'r', 'u', 'e']
  | bool false => ['f', 'a', 'l', 's', 'e']
  | number numeral => numeral.text
  | string text => Json.quoted text

/-- Whether a token is a number. -/
def isNumber : JsonToken → Bool
  | number _ => true
  | _ => false

/-- A token that has a spelling of its own: a string that is text, a numeral with its digits. -/
def WellFormed : JsonToken → Prop
  | number numeral => numeral.WellFormed
  | string text => text.isSome
  | _ => True

/-! ### Strings -/

theorem hexNumber?_control :
    ∀ n < 32, hexNumber? ['0', '0', Nat.digitChar (n / 16), Nat.digitChar (n % 16)] = some n := by
  decide

theorem scanUnits_escape {e c : Char} (he : e ≠ 'u') (hc : simpleEscape? e = some c)
    (cs : List Char) : scanUnits ('\\' :: e :: cs) =
      (scanUnits cs).map fun (units, rest) => (c.toNat :: units, rest) := by
  rw [scanUnits]
  · rw [hc]
    cases scanUnits cs <;> rfl
  · exact fun _ _ _ _ _ h _ => he h

/-- An escaped character is read back. -/
theorem scanUnits_escaped (c : Char) (cs : List Char) :
    scanUnits (Json.escaped c ++ cs) =
      (scanUnits cs).map fun (units, rest) => (c.toNat :: units, rest) := by
  unfold Json.escaped
  split
  case h_8 _ hquote hslash _ _ _ _ _ =>
    split
    · rename_i hcontrol
      have hunit := hexNumber?_control c.toNat hcontrol
      simp only [List.cons_append, List.nil_append, scanUnits, hunit]
      cases scanUnits cs <;> rfl
    · rename_i hplain
      rw [List.singleton_append, scanUnits]
      · rw [if_neg hplain]
        cases scanUnits cs <;> rfl
      · exact fun h => hquote h
      · exact fun _ _ _ _ _ h _ => hslash h
      · exact fun _ _ h _ => hslash h
  all_goals exact scanUnits_escape (by decide) rfl cs

/-- The code units of a quoted string. -/
theorem scanUnits_quoted (cs rest : List Char) :
    scanUnits (cs.flatMap Json.escaped ++ '"' :: rest) = some (cs.map Char.toNat, rest) := by
  induction cs with
  | nil => rfl
  | cons c cs ih =>
    rw [List.flatMap_cons, List.append_assoc, scanUnits_escaped, ih]
    rfl

/-- Characters are no surrogates, so each is a code unit of its own. -/
theorem joinUnits_toNat (cs : List Char) : joinUnits (cs.map Char.toNat) = some cs := by
  induction cs with
  | nil => rfl
  | cons c cs ih =>
    have hvalid : c.toNat < 0xD800 ∨ 0xDFFF < c.toNat := by
      have := c.valid
      simp only [UInt32.isValidChar, Nat.isValidChar] at this
      exact this.imp_right And.left
    rw [List.map_cons, joinUnits.eq_def]
    dsimp only
    rw [if_neg (by omega), if_neg (by omega), ih, Option.map_some, Char.ofNat_toNat]

/-! ### Numbers -/

/-- A text that does not read on a number before it. -/
def EndsNumber (cs : List Char) : Prop :=
  ∀ c ∈ cs.head?, c.isDigit = false ∧ c ≠ '.' ∧ c ≠ 'e' ∧ c ≠ 'E'

/-- A run of digits ends where the digits end. -/
theorem span_digits {run rest : List Char} (hrun : ∀ c ∈ run, c.isDigit)
    (hrest : ∀ c ∈ rest.head?, c.isDigit = false) :
    (run ++ rest).takeWhile Decimal.isDigit = run ∧ (run ++ rest).dropWhile Decimal.isDigit = rest := by
  have hdigits : ∀ c ∈ run, Decimal.isDigit c := fun c hc => by
    rw [Decimal.isDigit_eq, hrun c hc]
  have hstop : rest.takeWhile Decimal.isDigit = [] ∧ rest.dropWhile Decimal.isDigit = rest := by
    cases rest with
    | nil => exact ⟨rfl, rfl⟩
    | cons c rest =>
      have hc : Decimal.isDigit c = false := by rw [Decimal.isDigit_eq, hrest c rfl]
      simp [hc]
  rw [List.takeWhile_append_of_pos hdigits, List.dropWhile_append_of_pos hdigits, hstop.1, hstop.2,
    List.append_nil]
  exact ⟨rfl, rfl⟩

variable {rest : List Char}

theorem scanExponent_text (k : ℤ) (hrest : EndsNumber rest) :
    Decimal.scanExponent ((if k < 0 then ['-'] else []) ++ Nat.toDigits 10 k.natAbs ++ rest) =
      some (k, rest) := by
  obtain ⟨htake, hdrop⟩ := span_digits (Decimal.isDigit_toDigits k.natAbs) fun c hc => (hrest c hc).1
  have hsome : (Nat.toDigits 10 k.natAbs).isEmpty = false :=
    List.isEmpty_eq_false_iff.mpr Nat.toDigits_ne_nil
  split
  · rename_i hneg
    simp only [Decimal.scanExponent, List.cons_append, List.nil_append, htake, hdrop, hsome,
      Decimal.natural_toDigits, Bool.false_eq_true, if_false, if_true]
    congr 2
    omega
  · rename_i hpos
    obtain ⟨d, ds, hds⟩ := List.exists_cons_of_ne_nil (Nat.toDigits_ne_nil (b := 10) (n := k.natAbs))
    have hd : d.isDigit := Decimal.isDigit_toDigits k.natAbs d (hds ▸ List.mem_cons_self)
    have hhead : ∀ (c : Char) (cs : List Char), c.isDigit = false →
        Nat.toDigits 10 k.natAbs ++ rest ≠ c :: cs := by
      rintro c cs hc h
      rw [hds, List.cons_append] at h
      rw [(List.cons.inj h).1, hc] at hd
      cases hd
    rw [List.nil_append, Decimal.scanExponent]
    · simp only [htake, hdrop, hsome, Decimal.natural_toDigits, Bool.false_eq_true, if_false]
      congr 2
      omega
    · exact fun cs => hhead '-' cs rfl
    · exact fun cs => hhead '+' cs rfl

theorem scanPower_text (power : Option ℤ) (hrest : EndsNumber rest) :
    Decimal.scanPower (power.elim [] Numeral.powerText ++ rest) = some (power, rest) := by
  cases power with
  | none =>
    cases rest with
    | nil => rfl
    | cons c rest =>
      obtain ⟨-, -, he, hE⟩ := hrest c rfl
      rw [Option.elim_none, List.nil_append, Decimal.scanPower]
      · exact fun _ h => he (List.cons.inj h).1
      · exact fun _ h => hE (List.cons.inj h).1
  | some k =>
    rw [Option.elim_some, Numeral.powerText, List.cons_append, Decimal.scanPower,
      scanExponent_text k hrest]
    rfl

/-- What follows the digits in front of a numeral's point. -/
theorem scanFraction_text {fraction tail : List Char} (hdigits : ∀ c ∈ fraction, c.isDigit)
    (htail : ∀ c ∈ tail.head?, c.isDigit = false ∧ c ≠ '.') :
    Decimal.scanFraction ((if fraction.isEmpty then [] else '.' :: fraction) ++ tail) =
      (if fraction.isEmpty then none else some fraction, tail) := by
  split
  · cases tail with
    | nil => rfl
    | cons c tail =>
      rw [List.nil_append, Decimal.scanFraction]
      exact fun _ h => (htail c rfl).2 (List.cons.inj h).1
  · obtain ⟨htake, hdrop⟩ := span_digits hdigits fun c hc => (htail c hc).1
    rw [List.cons_append, Decimal.scanFraction, htake, hdrop]

theorem scanMagnitude_text {n : Numeral} (hn : n.WellFormed) (hrest : EndsNumber rest) :
    scanMagnitude n.negative (n.whole ++ ((if n.fraction.isEmpty then [] else '.' :: n.fraction) ++
      (n.power.elim [] Numeral.powerText ++ rest))) = some (number n, rest) := by
  have hpower : ∀ c ∈ (n.power.elim [] Numeral.powerText ++ rest).head?,
      c.isDigit = false ∧ c ≠ '.' := by
    cases n.power with
    | none => exact fun c hc => ⟨(hrest c hc).1, (hrest c hc).2.1⟩
    | some k =>
      intro c hc
      obtain rfl := Option.some.inj hc
      decide
  have hfraction := scanFraction_text hn.fraction_digits hpower
  have hpoint : ∀ c ∈ ((if n.fraction.isEmpty then [] else '.' :: n.fraction) ++
      (n.power.elim [] Numeral.powerText ++ rest)).head?, c.isDigit = false := by
    split
    · exact fun c hc => (hpower c hc).1
    · intro c hc
      obtain rfl := Option.some.inj hc
      rfl
  obtain ⟨htake, hdrop⟩ := span_digits hn.whole_digits hpoint
  have hwhole : n.whole.isEmpty = false := List.isEmpty_eq_false_iff.mpr hn.whole_ne_nil
  have hzero : (n.whole.head? == some '0' && n.whole.length != 1) = false := by
    rw [Bool.and_eq_false_iff]
    by_cases hhead : n.whole.head? = some '0'
    · exact .inr (by simp [hn.whole_zero hhead])
    · exact .inl (beq_eq_false_iff_ne.mpr hhead)
  have hsome : ((if n.fraction.isEmpty then none else some n.fraction) == some []) = false := by
    split
    · rfl
    · rename_i hfull
      refine beq_eq_false_iff_ne.mpr fun h => hfull ?_
      rw [Option.some.inj h, List.isEmpty_nil]
  have hdigits : (if n.fraction.isEmpty then none else some n.fraction).getD [] = n.fraction := by
    split
    · rename_i hempty
      exact (List.isEmpty_iff.mp hempty).symm
    · rfl
  rw [scanMagnitude]
  simp only [htake, hdrop, hfraction, hwhole, hzero, hsome, Bool.or_false, Bool.false_eq_true,
    if_false, scanPower_text n.power hrest, hdigits]
  rfl

/-- A numeral starts with a sign or a digit. -/
theorem scan_numeral {n : Numeral} (hn : n.WellFormed) (hrest : EndsNumber rest) :
    scan (n.text ++ rest) = some (number n, rest) := by
  have hmagnitude := scanMagnitude_text hn hrest
  obtain ⟨d, ds, hds⟩ := List.exists_cons_of_ne_nil hn.whole_ne_nil
  have hd : d.isDigit := hn.whole_digits d (hds ▸ List.mem_cons_self)
  have hdigit : ∀ cs, scan (d :: cs) = scanMagnitude false (d :: cs) := fun cs => by
    have hscan : scan (d :: cs) = scanNumber (d :: cs) := by
      rw [scan]
      all_goals
        intros
        simp_all
    have hnumber : scanNumber (d :: cs) = scanMagnitude false (d :: cs) := by
      rw [scanNumber]
      rintro cs h
      simp_all
    rw [hscan, hnumber]
  simp only [Numeral.text, List.append_assoc]
  cases hsign : n.negative with
  | true =>
    rw [hsign] at hmagnitude
    exact hmagnitude
  | false =>
    rw [hsign, hds] at hmagnitude
    rw [hds]
    exact (hdigit _).trans hmagnitude

/-! ### Tokens -/

/-- **A token is scanned as it is spelled**, and nothing after it is touched. -/
theorem scan_spelling {t : JsonToken} (ht : t.WellFormed) (hrest : t.isNumber → EndsNumber rest) :
    scan (t.spelling ++ rest) = some (t, rest) := by
  match t, ht, hrest with
  | number n, ht, hrest => exact scan_numeral ht (hrest rfl)
  | string (some text), _, _ =>
    have hquoted : spelling (string (some text)) ++ rest =
        '"' :: (text.toList.flatMap Json.escaped ++ '"' :: rest) := by
      simp [spelling, Json.quoted]
    rw [hquoted, scan, scanUnits_quoted, Option.map_some]
    dsimp only
    rw [joinUnits_toNat, Option.map_some, String.ofList_toList]
  | bool true, _, _ => rfl
  | bool false, _, _ => rfl
  | beginArray, _, _ => rfl
  | endArray, _, _ => rfl
  | beginObject, _, _ => rfl
  | endObject, _, _ => rfl
  | comma, _, _ => rfl
  | colon, _, _ => rfl
  | null, _, _ => rfl

/-- A token starts with a character that is no white space; unless it is a number, that character
ends a number. -/
theorem spelling_head {t : JsonToken} (ht : t.WellFormed) :
    ∃ c cs, t.spelling = c :: cs ∧ isSpace c = false ∧
      (t.isNumber = false → ∀ rest, EndsNumber (c :: rest)) := by
  have hends : ∀ c : Char, c.isDigit = false ∧ c ≠ '.' ∧ c ≠ 'e' ∧ c ≠ 'E' →
      ∀ rest, EndsNumber (c :: rest) := fun c h _ _ hc => Option.some.inj hc ▸ h
  cases t with
  | number n =>
    obtain ⟨d, ds, hds⟩ := List.exists_cons_of_ne_nil ht.whole_ne_nil
    have hd : d.isDigit := ht.whole_digits d (hds ▸ List.mem_cons_self)
    have hspace : isSpace d = false := by
      by_contra hspace
      simp only [isSpace, Bool.not_eq_false, Bool.or_eq_true, beq_iff_eq] at hspace
      rcases hspace with ((rfl | rfl) | rfl) | rfl <;> cases hd
    cases hsign : n.negative with
    | true => exact ⟨'-', _, by simp only [spelling, Numeral.text, hsign]; rfl, rfl, nofun⟩
    | false => exact ⟨d, _, by simp only [spelling, Numeral.text, hsign, hds]; rfl, hspace, nofun⟩
  | bool b => cases b <;> exact ⟨_, _, rfl, rfl, fun _ => hends _ (by decide)⟩
  | _ => exact ⟨_, _, rfl, rfl, fun _ => hends _ (by decide)⟩

/-- Spelled tokens of which no two numbers are neighbours are cut apart again. -/
theorem lexAll_spellings {ts : List JsonToken} {fuel : ℕ} (hfuel : ts.length ≤ fuel)
    (hts : ∀ t ∈ ts, t.WellFormed) (hapart : ts.IsChain fun t u => t.isNumber → u.isNumber = false) :
    lexAll fuel (ts.flatMap spelling) = some ts := by
  induction ts generalizing fuel with
  | nil => cases fuel <;> rfl
  | cons t ts ih =>
    obtain ⟨fuel, rfl⟩ := Nat.exists_eq_succ_of_ne_zero (Nat.ne_zero_of_lt hfuel)
    obtain ⟨ht, hts⟩ := List.forall_mem_cons.mp hts
    have hrest : t.isNumber → EndsNumber (ts.flatMap spelling) := fun hnumber => by
      cases ts with
      | nil => exact nofun
      | cons u ts =>
        obtain ⟨c, cs, hspelling, -, hends⟩ := spelling_head (List.forall_mem_cons.mp hts).1
        rw [List.flatMap_cons, hspelling]
        exact hends ((List.isChain_cons_cons.mp hapart).1 hnumber) _
    have hscan := scan_spelling ht hrest
    obtain ⟨c, cs, hspelling, hspace, -⟩ := spelling_head ht
    have hdrop : ((t :: ts).flatMap spelling).dropWhile isSpace =
        t.spelling ++ ts.flatMap spelling := by
      rw [List.flatMap_cons, hspelling, List.cons_append, List.dropWhile_cons, hspace]
      rfl
    rw [lexAll.eq_def]
    dsimp only
    rw [hdrop]
    rw [hspelling, List.cons_append] at hscan ⊢
    dsimp only
    rw [hscan]
    simp only [Option.bind_eq_bind, Option.bind_some, ih (Nat.le_of_succ_le_succ hfuel) hts hapart.tail]

/-- **The tokens of spelled tokens are those tokens.** -/
theorem lex_spellings {ts : List JsonToken} (hts : ∀ t ∈ ts, t.WellFormed)
    (hapart : ts.IsChain fun t u => t.isNumber → u.isNumber = false) :
    lex (ts.flatMap spelling) = some ts := by
  refine lexAll_spellings ?_ hts hapart
  have hsome : ∀ k ∈ ts.map fun t => t.spelling.length, 1 ≤ k := by
    intro k hk
    obtain ⟨t, ht, rfl⟩ := List.mem_map.mp hk
    obtain ⟨c, cs, hspelling, -⟩ := spelling_head (hts t ht)
    rw [hspelling, List.length_cons]
    omega
  have := List.card_nsmul_le_sum _ 1 hsome
  rwa [List.length_map, smul_eq_mul, mul_one, ← List.length_flatMap] at this

end JsonToken
end GateCircuit
