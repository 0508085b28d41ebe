/-
# The text of a term

A text is cut at white space into words, in one way only. It is the text of a term exactly if the number of
its words is even, every first word of a pair is the letter of an operator and every second one a count: a
plus sign or none, and decimal digits that write a number below `2 ^ 32`. The term then lists the pairs in
order, repetitions included. Of several faults the parity is found first, then the first pair with a fault,
and in a pair the operator before the index. Letters and decimal digits, with any white space between them,
are read back as what they were written for.

Key definitions: `Spaced`, `Pauli.WrittenAs`, `IsCount`, `WritesPairs`, `PairFault`, `PauliTerm.spelling`,
`Gaps`, `spaceOut`.
Key theorems: `words_eq_iff`, `readCount_eq_some`, `readPairs_eq_ok`, `readPairs_eq_error`,
`term_text_grammar`.
-/
import Mathlib
import GateCircuit.Hamiltonian.Term
import GateCircuit.Proofs.Numerals
import GateCircuit.Proofs.Outcome

namespace GateCircuit

open Outcome

/-! ### Words -/

/-- Characters without white space, and at least one of them. -/
structure IsWord (w : List Char) : Prop where
  ne_nil : w ≠ []
  solid : ∀ c ∈ w, isBlank c = false

/-- A text with these words: white space stands behind every word but the last one, and anywhere between. -/
inductive Spaced : List (List Char) → List Char → Prop
  | nil : Spaced [] []
  | blank {ws : List (List Char)} {c : Char} {cs : List Char} (hc : isBlank c = true)
      (h : Spaced ws cs) : Spaced ws (c :: cs)
  | last {w : List Char} (hw : IsWord w) : Spaced [w] w
  | word {w : List Char} {ws : List (List Char)} {c : Char} {cs : List Char} (hw : IsWord w)
      (hc : isBlank c = true) (h : Spaced ws cs) : Spaced (w :: ws) (w ++ c :: cs)

theorem wordsAfter_append {w : List Char} (hw : ∀ c ∈ w, isBlank c = false) :
    ∀ begun cs : List Char, wordsAfter begun (w ++ cs) = wordsAfter (w.reverse ++ begun) cs := by
  induction w with
  | nil => exact fun _ _ => rfl
  | cons c w ih =>
    intro begun cs
    obtain ⟨hc, hw⟩ := List.forall_mem_cons.mp hw
    rw [List.cons_append, wordsAfter, if_neg (by simp [hc]), ih hw, List.reverse_cons, List.append_assoc,
      List.singleton_append]

/-- A word in front of the end of the text, or of white space, is the first word. -/
theorem wordsAfter_of_ne_nil {begun : List Char} (h : begun ≠ []) :
    wordsAfter begun [] = [begun.reverse] ∧ ∀ c cs, isBlank c = true →
      wordsAfter begun (c :: cs) = begun.reverse :: words cs := by
  have hempty : begun.isEmpty = false := by simpa using h
  refine ⟨by simp [wordsAfter, hempty], fun c cs hc => ?_⟩
  simp [wordsAfter, words, hempty, hc]

/-- What is found after the letters of a word that has begun are words of these letters and the text. -/
theorem spaced_wordsAfter (cs : List Char) : ∀ begun : List Char,
    (∀ c ∈ begun, isBlank c = false) → Spaced (wordsAfter begun cs) (begun.reverse ++ cs) := by
  have hword : ∀ begun : List Char, (∀ c ∈ begun, isBlank c = false) → begun ≠ [] →
      IsWord begun.reverse := fun begun hsolid hne =>
    ⟨by simpa using hne, fun c hc => hsolid c (List.mem_reverse.mp hc)⟩
  induction cs with
  | nil =>
    intro begun hsolid
    by_cases hbegun : begun = []
    · subst hbegun
      exact .nil
    · rw [(wordsAfter_of_ne_nil hbegun).1, List.append_nil]
      exact .last (hword begun hsolid hbegun)
  | cons c cs ih =>
    intro begun hsolid
    by_cases hc : isBlank c = true
    · have hrest : Spaced (words cs) cs := ih [] (by simp)
      by_cases hbegun : begun = []
      · subst hbegun
        rw [wordsAfter, if_pos hc]
        exact .blank hc hrest
      · rw [(wordsAfter_of_ne_nil hbegun).2 c cs hc]
        exact .word (hword begun hsolid hbegun) hc hrest
    · rw [wordsAfter, if_neg hc]
      have hlonger := ih (c :: begun) (List.forall_mem_cons.mpr ⟨Bool.not_eq_true _ ▸ hc, hsolid⟩)
      rwa [List.reverse_cons, List.append_assoc] at hlonger

/-- **The words of a text** are the only ones that it has. -/
theorem words_eq_iff {cs : List Char} {ws : List (List Char)} : words cs = ws ↔ Spaced ws cs := by
  constructor
  · rintro rfl
    exact spaced_wordsAfter cs [] (by simp)
  · intro h
    induction h with
    | nil => rfl
    | @blank ws c cs hc h ih => rw [words, wordsAfter, if_pos hc, ← ih]; rfl
    | @last w hw =>
      have hread := wordsAfter_append hw.solid [] []
      rw [List.append_nil, List.append_nil] at hread
      rw [words, hread, (wordsAfter_of_ne_nil (by simpa using hw.ne_nil)).1, List.reverse_reverse]
    | @word w ws c cs hw hc h ih =>
      rw [words, wordsAfter_append hw.solid, List.append_nil,
        (wordsAfter_of_ne_nil (by simpa using hw.ne_nil)).2 c cs hc, List.reverse_reverse, ih]

/-! ### Operators and counts -/

/-- The word is the letter of the operator, in upper or lower case. -/
def Pauli.WrittenAs (p : Pauli) (w : List Char) : Prop := w = [p.letter] ∨ w = [p.letter.toLower]

theorem ofLetter?_eq_some {c : Char} {p : Pauli} :
    Pauli.ofLetter? c = some p ↔ c = p.letter ∨ c = p.letter.toLower := by
  constructor
  · intro h
    unfold Pauli.ofLetter? at h
    split at h
    all_goals cases h
    all_goals decide
  · rintro (rfl | rfl) <;> cases p <;> rfl

theorem pauli_read_eq_ok {w : List Char} {p : Pauli} :
    Pauli.read (String.ofList w) = .ok p ↔ p.WrittenAs w := by
  unfold Pauli.read Pauli.WrittenAs
  rw [String.toList_ofList]
  match w with
  | [] => simp
  | [c] =>
    rw [List.singleton_inj, List.singleton_inj, ← ofLetter?_eq_some]
    cases h : Pauli.ofLetter? c <;> simp [h]
  | _ :: _ :: _ => simp

theorem pauli_read_eq_error {w : List Char} {e : PauliError} :
    Pauli.read (String.ofList w) = .error e ↔
      (∀ p : Pauli, ¬ p.WrittenAs w) ∧ e = .unknownName (String.ofList w) := by
  simp only [← pauli_read_eq_ok]
  unfold Pauli.read
  rw [String.toList_ofList]
  match w with
  | [] => simp [eq_comm]
  | [c] => cases h : Pauli.ofLetter? c <;> simp [h, eq_comm]
  | _ :: _ :: _ => simp [eq_comm]

/-- The word is a plus sign or none, and decimal digits that write a number below `2 ^ 32`. -/
def IsCount (w : List Char) (n : ℕ) : Prop :=
  ∃ digits : List Char, (w = digits ∨ w = '+' :: digits) ∧ digits ≠ [] ∧ (∀ c ∈ digits, c.isDigit) ∧
    n = Nat.ofDigitChars 10 digits 0 ∧ n < 2 ^ 32

theorem readNatural_eq_some {w : List Char} {n : ℕ} :
    readNatural w = some n ↔ w ≠ [] ∧ (∀ c ∈ w, c.isDigit) ∧ n = Nat.ofDigitChars 10 w 0 := by
  have hcheck : (!w.isEmpty && w.all Decimal.isDigit) = true ↔ w ≠ [] ∧ ∀ c ∈ w, c.isDigit := by
    simp only [Bool.and_eq_true, Bool.not_eq_true', List.isEmpty_eq_false_iff, List.all_eq_true,
      Decimal.isDigit_eq]
  unfold readNatural
  by_cases hw : w ≠ [] ∧ ∀ c ∈ w, c.isDigit
  · rw [if_pos (hcheck.mpr hw), Decimal.natural_eq_ofDigitChars hw.2, Option.some_inj, eq_comm]
    exact ⟨fun h => ⟨hw.1, hw.2, h⟩, fun h => h.2.2⟩
  · rw [if_neg fun h => hw (hcheck.mp h)]
    exact ⟨nofun, fun h => absurd ⟨h.1, h.2.1⟩ hw⟩

theorem readCount_eq_some {w : List Char} {n : ℕ} : readCount w = some n ↔ IsCount w n := by
  -- a sign is no digit, so nothing is cut off a word of digits
  have hsign : ∀ digits : List Char, (∀ c ∈ digits, c.isDigit) → digits.head? ≠ some '+' := by
    intro digits hdigits hhead
    exact absurd (hdigits '+' (List.mem_of_mem_head? hhead)) (by decide)
  unfold readCount IsCount
  rw [Option.filter_eq_some_iff, decide_eq_true_iff, readNatural_eq_some]
  have hbound : n ≤ maxCount ↔ n < 2 ^ 32 := by
    unfold maxCount
    omega
  rw [hbound]
  constructor
  · rintro ⟨⟨hne, hdigits, hvalue⟩, hn⟩
    refine ⟨_, ?_, hne, hdigits, hvalue, hn⟩
    split
    · next hhead => exact .inr (List.cons_head?_tail hhead).symm
    · exact .inl rfl
  · rintro ⟨digits, rfl | rfl, hne, hdigits, hvalue, hn⟩
    · rw [if_neg (hsign w hdigits)]
      exact ⟨⟨hne, hdigits, hvalue⟩, hn⟩
    · exact ⟨⟨hne, hdigits, hvalue⟩, hn⟩

/-! ### Pairs of words -/

/-- The words in turns are the names of the operators and the counts of the qubits. -/
inductive WritesPairs : List (List Char) → List (Qubit × Pauli) → Prop
  | nil : WritesPairs [] []
  | pair {name index : List Char} {rest : List (List Char)} {q : Qubit} {p : Pauli}
      {ops : List (Qubit × Pauli)} (hp : p.WrittenAs name) (hq : IsCount index q)
      (hrest : WritesPairs rest ops) : WritesPairs (name :: index :: rest) ((q, p) :: ops)

/-- What is wrong with two words that should be an operator and a qubit; the operator is looked at first. -/
inductive PairFault (name index : List Char) : PauliError → Prop
  | operator (h : ∀ p : Pauli, ¬ p.WrittenAs name) :
      PairFault name index (.unknownName (String.ofList name))
  | qubit {p : Pauli} (hp : p.WrittenAs name) (h : ∀ q, ¬ IsCount index q) :
      PairFault name index (.invalidIndex (String.ofList index))

theorem readPairs_cons_eq_ok {name index : List Char} {rest : List (List Char)}
    {ops : List (Qubit × Pauli)} :
    PauliTerm.readPairs (name :: index :: rest) = .ok ops ↔
      ∃ p q ops', p.WrittenAs name ∧ IsCount index q ∧ PauliTerm.readPairs rest = .ok ops' ∧
        ops = (q, p) :: ops' := by
  rw [PauliTerm.readPairs, bind_eq_ok]
  simp only [pauli_read_eq_ok, ← readCount_eq_some]
  constructor
  · rintro ⟨p, hp, h⟩
    cases hq : readCount index with
    | none => rw [hq] at h; cases h
    | some q =>
      rw [hq] at h
      obtain ⟨ops', hops', h⟩ := bind_eq_ok.mp h
      exact ⟨p, q, ops', hp, rfl, hops', (pure_eq_ok.mp h).symm⟩
  · rintro ⟨p, q, ops', hp, hq, hrest, rfl⟩
    refine ⟨p, hp, ?_⟩
    rw [hq]
    exact bind_eq_ok.mpr ⟨ops', hrest, rfl⟩

theorem readPairs_cons_eq_error {name index : List Char} {rest : List (List Char)} {e : PauliError} :
    PauliTerm.readPairs (name :: index :: rest) = .error e ↔
      PairFault name index e ∨
        ∃ p q, Pauli.WrittenAs p name ∧ IsCount index q ∧ PauliTerm.readPairs rest = .error e := by
  rw [PauliTerm.readPairs, bind_eq_error, pauli_read_eq_error]
  simp only [pauli_read_eq_ok]
  constructor
  · rintro (⟨hname, rfl⟩ | ⟨p, hp, h⟩)
    · exact .inl (.operator hname)
    · cases hq : readCount index with
      | none =>
        rw [hq] at h
        cases h
        refine .inl (.qubit hp fun q hcount => ?_)
        rw [readCount_eq_some.mpr hcount] at hq
        cases hq
      | some q =>
        rw [hq] at h
        rcases bind_eq_error.mp h with h | ⟨ops, -, h⟩
        · exact .inr ⟨p, q, hp, readCount_eq_some.mp hq, h⟩
        · exact absurd h pure_ne_error
  · rintro (h | ⟨p, q, hp, hq, h⟩)
    · cases h with
      | operator h => exact .inl ⟨h, rfl⟩
      | @qubit p hp h =>
        refine .inr ⟨p, hp, ?_⟩
        cases hq : readCount index with
        | none => rfl
        | some q => exact absurd (readCount_eq_some.mp hq) (h q)
    · refine .inr ⟨p, hp, ?_⟩
      rw [readCount_eq_some.mpr hq]
      exact bind_eq_error.mpr (.inl h)

theorem WritesPairs.length_eq {ws : List (List Char)} {ops : List (Qubit × Pauli)}
    (h : WritesPairs ws ops) : ws.length = 2 * ops.length := by
  induction h with
  | nil => rfl
  | pair hp hq hrest ih =>
    simp only [List.length_cons]
    omega

/-- **Pairs that are read** are the pairs that the words write. -/
theorem readPairs_eq_ok : ∀ {ws : List (List Char)} {ops : List (Qubit × Pauli)}, ws.length % 2 = 0 →
    (PauliTerm.readPairs ws = .ok ops ↔ WritesPairs ws ops)
  | [], ops, _ => by
    have hread : PauliTerm.readPairs [] = .ok [] := rfl
    rw [hread, Except.ok.injEq]
    constructor
    · rintro rfl
      exact .nil
    · rintro ⟨⟩
      rfl
  | [_], _, heven => by simp at heven
  | name :: index :: rest, ops, heven => by
    have hrest : rest.length % 2 = 0 := by
      rwa [List.length_cons, List.length_cons, Nat.add_assoc, Nat.add_mod_right] at heven
    rw [readPairs_cons_eq_ok]
    constructor
    · rintro ⟨p, q, ops', hp, hq, h, rfl⟩
      exact .pair hp hq ((readPairs_eq_ok hrest).mp h)
    · rintro (_ | ⟨hp, hq, h⟩)
      exact ⟨_, _, _, hp, hq, (readPairs_eq_ok hrest).mpr h, rfl⟩

/-- Words write pairs if there is an even number of them, each one right for its place. -/
theorem exists_writesPairs_iff : ∀ ws : List (List Char), (∃ ops, WritesPairs ws ops) ↔
    ws.length % 2 = 0 ∧ ∀ i w, ws[i]? = some w →
      if i % 2 = 0 then ∃ p : Pauli, p.WrittenAs w else ∃ q, IsCount w q
  | [] => by simpa using ⟨[], WritesPairs.nil⟩
  | [_] => by
    constructor
    · rintro ⟨ops, hops⟩
      have := hops.length_eq
      rw [List.length_singleton] at this
      omega
    · exact fun h => absurd h.1 Nat.one_ne_zero
  | name :: index :: rest => by
    have hrest := exists_writesPairs_iff rest
    constructor
    · rintro ⟨_, _ | ⟨hp, hq, h⟩⟩
      obtain ⟨heven, hplaces⟩ := hrest.mp ⟨_, h⟩
      refine ⟨by simp only [List.length_cons]; omega, fun i w hw => ?_⟩
      -- what stands in the rest stands two places further on
      match i with
      | 0 => exact ⟨_, Option.some.inj hw ▸ hp⟩
      | 1 => exact ⟨_, Option.some.inj hw ▸ hq⟩
      | i + 2 =>
        rw [Nat.add_mod_right]
        exact hplaces i w hw
    · rintro ⟨heven, hplaces⟩
      obtain ⟨p, hp⟩ := hplaces 0 name rfl
      obtain ⟨q, hq⟩ := hplaces 1 index rfl
      obtain ⟨ops, hops⟩ := hrest.mpr ⟨by simp only [List.length_cons] at heven; omega, fun i w hw => by
        have := hplaces (i + 2) w hw
        rwa [Nat.add_mod_right] at this⟩
      exact ⟨_, .pair hp hq hops⟩

/-- **The error of a reader of pairs** is that of the first pair with a fault. -/
theorem readPairs_eq_error {e : PauliError} : ∀ ws : List (List Char),
    PauliTerm.readPairs ws = .error e ↔
      ∃ before ops name index after, ws = before ++ name :: index :: after ∧ WritesPairs before ops ∧
        PairFault name index e
  | [] => by simp [PauliTerm.readPairs, pure_ne_error]
  | [_] => by
    simp only [PauliTerm.readPairs, pure_ne_error, false_iff]
    rintro ⟨before, ops, name, index, after, h, -, -⟩
    have := congrArg List.length h
    simp only [List.length_append, List.length_cons, List.length_nil] at this
    omega
  | name :: index :: rest => by
    rw [readPairs_cons_eq_error, readPairs_eq_error rest]
    constructor
    · rintro (h | ⟨p, q, hp, hq, before, ops, name', index', after, rfl, hbefore, h⟩)
      · exact ⟨[], [], name, index, rest, rfl, .nil, h⟩
      · exact ⟨_, _, name', index', after, rfl, .pair hp hq hbefore, h⟩
    · rintro ⟨before, ops, name', index', after, hws, hbefore, h⟩
      cases hbefore with
      | nil =>
        cases hws
        exact .inl h
      | pair hp hq hrest =>
        cases hws
        exact .inr ⟨_, _, hp, hq, _, _, _, _, _, rfl, hrest, h⟩

/-! ### Spelled terms -/

/-- The letter of every operator, and the decimal digits of its qubit after it. -/
def PauliTerm.spelling (ops : List (Qubit × Pauli)) : List (List Char) :=
  ops.flatMap fun op => [[op.2.letter], Nat.toDigits 10 op.1]

/-- White space around words: a part in front, and a part after each word, empty only after the last one. -/
structure Gaps (ws : List (List Char)) (front : List Char) (gaps : List (List Char)) : Prop where
  length_eq : gaps.length = ws.length
  blank : ∀ gap ∈ front :: gaps, ∀ c ∈ gap, isBlank c = true
  apart : ∀ gap ∈ gaps.dropLast, gap ≠ []

/-- The words with white space in front and after each of them. -/
def spaceOut (ws : List (List Char)) (front : List Char) (gaps : List (List Char)) : List Char :=
  front ++ (List.zipWith (· ++ ·) ws gaps).flatten

theorem Spaced.append_front {ws : List (List Char)} {cs front : List Char} (h : Spaced ws cs)
    (hfront : ∀ c ∈ front, isBlank c = true) : Spaced ws (front ++ cs) := by
  induction front with
  | nil => exact h
  | cons c front ih =>
    obtain ⟨hc, hfront⟩ := List.forall_mem_cons.mp hfront
    exact .blank hc (ih hfront)

theorem isBlank_of_isDigit {c : Char} (h : c.isDigit) : isBlank c = false := by
  have hrange : '0'.toNat ≤ c.toNat ∧ c.toNat ≤ '9'.toNat := by
    rw [Char.isDigit, Bool.and_eq_true_iff, decide_eq_true_iff, decide_eq_true_iff] at h
    exact h
  obtain ⟨hlow, hhigh⟩ : 48 ≤ c.toNat ∧ c.toNat ≤ 57 := hrange
  simp only [isBlank, Bool.or_eq_false_iff, Bool.and_eq_false_iff, decide_eq_false_iff_not,
    beq_eq_false_iff_ne]
  omega

theorem writesPairs_spelling {ops : List (Qubit × Pauli)} (hops : ∀ op ∈ ops, op.1 < 2 ^ 32) :
    WritesPairs (PauliTerm.spelling ops) ops := by
  induction ops with
  | nil => exact .nil
  | cons op ops ih =>
    obtain ⟨hop, hops⟩ := List.forall_mem_cons.mp hops
    have hcount : IsCount (Nat.toDigits 10 op.1) op.1 :=
      ⟨_, .inl rfl, Nat.toDigits_ne_nil, Decimal.isDigit_toDigits op.1,
        (Nat.ofDigitChars_ten_toDigits).symm, hop⟩
    exact .pair (.inl rfl) hcount (ih hops)

theorem isWord_of_mem_spelling {ops : List (Qubit × Pauli)} :
    ∀ w ∈ PauliTerm.spelling ops, IsWord w := by
  intro w hw
  obtain ⟨⟨q, p⟩, -, hw⟩ := List.mem_flatMap.mp hw
  rcases List.mem_pair.mp hw with rfl | rfl
  · refine ⟨List.cons_ne_nil _ _, fun c hc => ?_⟩
    rw [List.mem_singleton.mp hc]
    cases p <;> rfl
  · exact ⟨Nat.toDigits_ne_nil, fun c hc => isBlank_of_isDigit (Decimal.isDigit_toDigits q c hc)⟩

theorem spaced_spaceOut {ws : List (List Char)} (hws : ∀ w ∈ ws, IsWord w) :
    ∀ {front : List Char} {gaps : List (List Char)}, Gaps ws front gaps →
      Spaced ws (spaceOut ws front gaps) := by
  induction ws with
  | nil =>
    intro front gaps h
    rw [spaceOut, List.zipWith_nil_left]
    exact Spaced.nil.append_front (h.blank front List.mem_cons_self)
  | cons w ws ih =>
    intro front gaps h
    obtain ⟨hw, hws⟩ := List.forall_mem_cons.mp hws
    obtain ⟨gap, gaps, rfl⟩ := List.exists_cons_of_length_eq_add_one h.length_eq
    obtain ⟨hfront, hblank⟩ := List.forall_mem_cons.mp h.blank
    refine Spaced.append_front ?_ hfront
    have hlen : gaps.length = ws.length := by simpa using h.length_eq
    rw [List.zipWith_cons_cons, List.flatten_cons, List.append_assoc]
    cases gap with
    | cons c gap =>
      -- white space stands after the word, so the rest of the gap stands in front of the next one
      obtain ⟨hc, hgap⟩ := List.forall_mem_cons.mp (hblank _ List.mem_cons_self)
      refine .word hw hc (ih hws ⟨hlen, ?_, fun gap' hgap' => ?_⟩)
      · exact List.forall_mem_cons.mpr ⟨hgap, fun gap' h' => hblank gap' (List.mem_cons_of_mem _ h')⟩
      · refine h.apart gap' ?_
        rw [List.dropLast_cons_of_ne_nil (List.ne_nil_of_mem (List.mem_of_mem_dropLast hgap'))]
        exact List.mem_cons_of_mem _ hgap'
    | nil =>
      have hgaps : gaps = [] := by
        by_contra hne
        exact h.apart [] (by rw [List.dropLast_cons_of_ne_nil hne]; exact List.mem_cons_self) rfl
      obtain rfl : ws = [] := by simpa [hgaps] using hlen.symm
      rw [List.zipWith_nil_left, List.flatten_nil, List.append_nil, List.append_nil]
      exact .last hw

/-! ### Reading a term -/

section Reading

variable {R : Type} (coef : Amplitude R)

theorem PauliTerm.read_eq_ok {text : String} {ws : List (List Char)} (hws : Spaced ws text.toList)
    {t : PauliTerm R} :
    PauliTerm.read coef text = .ok t ↔ ∃ ops, WritesPairs ws ops ∧ t = .ofOps coef ops := by
  rw [PauliTerm.read, words_eq_iff.mpr hws]
  by_cases hodd : ws.length % 2 = 1
  · rw [if_pos hodd]
    refine ⟨nofun, ?_⟩
    rintro ⟨ops, hops, -⟩
    have := hops.length_eq
    omega
  · rw [if_neg hodd, map_eq_ok]
    simp only [readPairs_eq_ok (show ws.length % 2 = 0 by omega), eq_comm (a := t)]

theorem PauliTerm.read_eq_error {text : String} {ws : List (List Char)} (hws : Spaced ws text.toList)
    {e : PauliError} :
    PauliTerm.read coef text = .error e ↔
      (ws.length % 2 = 1 ∧ e = .unpaired text) ∨
        ws.length % 2 = 0 ∧ ∃ before ops name index after, ws = before ++ name :: index :: after ∧
          WritesPairs before ops ∧ PairFault name index e := by
  rw [PauliTerm.read, words_eq_iff.mpr hws, ← readPairs_eq_error]
  by_cases hodd : ws.length % 2 = 1
  · simp [hodd, eq_comm]
  · have hmap : ∀ x : Except PauliError (List (Qubit × Pauli)),
        x.map (PauliTerm.ofOps coef) = .error e ↔ x = .error e := fun x => map_eq_error
    rw [if_neg hodd, hmap]
    simp [show ws.length % 2 = 0 by omega]

/-- **The grammar of a term.** A text has its words in one way. It is read if their number is even, each word
at an even place is the letter of an operator, and each one at an odd place a count; the term then has the
pairs that the words write. If it is not read, the words are odd in number or, if they are not, the first pair
with a fault is at fault. What pairs of qubits and operators are written as, with any white space between words
and at the ends, is read as the term with these pairs. -/
theorem term_text_grammar (text : String) : ∃ ws : List (List Char),
    (∀ ws', Spaced ws' text.toList ↔ ws' = ws) ∧
    ((∃ t, PauliTerm.read coef text = .ok t) ↔ ws.length % 2 = 0 ∧ ∀ i w, ws[i]? = some w →
      if i % 2 = 0 then ∃ p : Pauli, p.WrittenAs w else ∃ q, IsCount w q) ∧
    (∀ t, PauliTerm.read coef text = .ok t ↔ ∃ ops, WritesPairs ws ops ∧ t = .ofOps coef ops) ∧
    (∀ e, PauliTerm.read coef text = .error e ↔
      (ws.length % 2 = 1 ∧ e = .unpaired text) ∨
        ws.length % 2 = 0 ∧ ∃ before ops name index after, ws = before ++ name :: index :: after ∧
          WritesPairs before ops ∧ PairFault name index e) ∧
    ∀ ops front gaps, (∀ op ∈ ops, op.1 < 2 ^ 32) → Gaps (PauliTerm.spelling ops) front gaps →
      text.toList = spaceOut (PauliTerm.spelling ops) front gaps →
      PauliTerm.read coef text = .ok (.ofOps coef ops) := by
  have hwords : Spaced (words text.toList) text.toList := words_eq_iff.mp rfl
  refine ⟨words text.toList, fun ws' => ?_, ?_, fun t => PauliTerm.read_eq_ok coef hwords,
    fun e => PauliTerm.read_eq_error coef hwords, fun ops front gaps hops hgaps htext => ?_⟩
  · rw [← words_eq_iff, eq_comm]
  · rw [← exists_writesPairs_iff]
    constructor
    · rintro ⟨t, ht⟩
      obtain ⟨ops, hops, -⟩ := (PauliTerm.read_eq_ok coef hwords).mp ht
      exact ⟨ops, hops⟩
    · rintro ⟨ops, hops⟩
      exact ⟨_, (PauliTerm.read_eq_ok coef hwords).mpr ⟨ops, hops, rfl⟩⟩
  · have hspaced : Spaced (PauliTerm.spelling ops) text.toList :=
      htext ▸ spaced_spaceOut isWord_of_mem_spelling hgaps
    exact (PauliTerm.read_eq_ok coef hspaced).mpr ⟨ops, writesPairs_spelling hops, rfl⟩

end Reading

/-- The last qubit of the index type twice, and white space beyond the ASCII characters. -/
theorem spaced_text_read :
    let ops : List (Qubit × Pauli) := [(4294967295, .X), (0, .I), (4294967295, .X)]
    PauliTerm.read (⟨0.5, 0⟩ : Amplitude Float) "\tX\u00a04294967295\u3000 I\n0\r\nX 4294967295" =
      .ok (.ofOps ⟨0.5, 0⟩ ops) := by
  intro ops
  obtain ⟨ws, -, -, -, -, h⟩ := term_text_grammar (⟨0.5, 0⟩ : Amplitude Float)
    "\tX\u00a04294967295\u3000 I\n0\r\nX 4294967295"
  refine h ops ['\t'] [['\u00a0'], ['\u3000', ' '], ['\n'], ['\r', '\n'], [' '], []] (by decide) ?_ ?_
  · exact ⟨rfl, by simp [isBlank], by simp⟩
  · decide +kernel

end GateCircuit
