/-
# Hamiltonians survive their documents

A Hamiltonian is read from the text it is written as, whatever its terms: lists of different lengths,
qubits twice or beyond the register. Only its weights decide, in any lawful format of doubles. If all their
parts are finite, the same Hamiltonian is read, down to the sign of a zero; if one is not, it was written as
null, and nothing is read. And a document may write its records in other ways: what is read of it stays the
same in every format, for a document that is refused too.

Key definitions: `Hamiltonian.CountsFit`, `Hamiltonian.IsFinite`, `PauliTerm.Respelt`,
`Hamiltonian.Respelt`, `Hamiltonian.listed`.
Key theorems: `Hamiltonian.respelt_listed`, `Hamiltonian.parse_render`, `Hamiltonian.parse_render_eq_none`,
`Hamiltonian.ofJson?_respelt`, `hamiltonian_round_trip`.
-/
import Mathlib
import GateCircuit.Document.Hamiltonian
import GateCircuit.Proofs.JsonText
import GateCircuit.Proofs.Outcome
import GateCircuit.Proofs.RecordDocuments
import GateCircuit.Proofs.ShortestDecimal

namespace GateCircuit

section Lists

variable {α β : Type}

theorem mapM_map_eq_some {f : α → Option β} {g : β → α} {bs : List β}
    (h : ∀ b ∈ bs, f (g b) = some b) : (bs.map g).mapM f = some bs := by
  have hbs : bs.mapM (f ∘ g) = some (bs.map id) := Outcome.mapM_eq_some_map h
  rwa [List.map_id, ← List.mapM_map] at hbs

theorem list_beq_self [BEq α] {as : List α} (h : ∀ a ∈ as, (a == a) = true) : (as == as) = true := by
  induction as with
  | nil => rfl
  | cons a as ih =>
    obtain ⟨ha, has⟩ := List.forall_mem_cons.mp h
    rw [List.cons_beq_cons, ha, ih has]
    rfl

end Lists

namespace Json

theorem count?_ofNat {n : ℕ} (h : n ≤ maxCount) : DataNode.count? (ofNat n) = some n := by
  change ((Numeral.ofNat n).natural?).filter (· ≤ maxCount) = some n
  rw [Numeral.natural?_ofNat, Option.filter_some, if_pos (decide_eq_true h)]

end Json

variable {format : DoubleFormat}

/-! ### Weights and operators -/

namespace DoubleFormat

theorem Lawful.double?_write (hformat : format.Lawful) {x : Float} (h : x.isFinite = true) :
    format.double? (format.write x) = some x := by
  obtain ⟨numeral, -, hwrite, hread⟩ := hformat.finite x h
  rw [hwrite, double?, hread]

theorem Lawful.double?_write_eq_none (hformat : format.Lawful) {x : Float} (h : x.isFinite = false) :
    format.double? (format.write x) = none := by
  rw [hformat.other x h]
  rfl

theorem Lawful.wellFormed_write (hformat : format.Lawful) (x : Float) : (format.write x).WellFormed := by
  cases h : x.isFinite with
  | true =>
    obtain ⟨numeral, hnumeral, hwrite, -⟩ := hformat.finite x h
    exact hwrite ▸ Json.wellFormed_number hnumeral
  | false => exact hformat.other x h ▸ Json.wellFormed_null

end DoubleFormat

namespace Amplitude

/-- Both parts of a weight are finite. -/
def IsFinite (a : Amplitude Float) : Prop := a.re.isFinite ∧ a.im.isFinite

theorem ofJson?_toJson (hformat : format.Lawful) {a : Amplitude Float} (h : a.IsFinite) :
    ofJson? (a.toJson format) format = some a := by
  simp only [ofJson?, toJson, hformat.double?_write h.1, hformat.double?_write h.2]
  rfl

theorem ofJson?_toJson_eq_none (hformat : format.Lawful) {a : Amplitude Float} (h : ¬a.IsFinite) :
    ofJson? (a.toJson format) format = none := by
  have hparts : a.re.isFinite = false ∨ a.im.isFinite = false := by
    rw [IsFinite, not_and_or, Bool.not_eq_true, Bool.not_eq_true] at h
    exact h
  rcases hparts with hpart | hpart
  · simp only [ofJson?, toJson, hformat.double?_write_eq_none hpart]
    rfl
  · simp only [ofJson?, toJson, hformat.double?_write_eq_none hpart]
    cases format.double? (format.write a.re) <;> rfl

theorem beq_self {a : Amplitude Float} (h : a.IsFinite) : (a == a) = true :=
  Bool.and_eq_true_iff.mpr ⟨Double.beq_self h.1, Double.beq_self h.2⟩

theorem wellFormed_toJson (hformat : format.Lawful) (a : Amplitude Float) :
    (a.toJson format).WellFormed := by
  rw [toJson, Json.wellFormed_array]
  simp [hformat.wellFormed_write]

end Amplitude

theorem Pauli.ofJson?_toJson (p : Pauli) : ofJson? p.toJson = some p := by
  cases p <;> decide

/-! ### Terms -/

namespace PauliTerm

theorem nodup_fieldNames : fieldNames.Nodup := by decide

/-- Other ways to write a term, and other ways to write those. -/
def Respelt : Json → Json → Prop := Relation.EqvGen (Json.SameRecord fieldNames)

variable {t : PauliTerm Float}

/-- A term is read from its record if its weight is. -/
theorem ofJson?_toJson_eq_map (h : ∀ q ∈ t.qubits, q ≤ maxCount) :
    ofJson? (t.toJson format) format =
      (Amplitude.ofJson? (t.coef.toJson format) format).map fun coef => { t with coef } := by
  have hqubits : (t.qubits.map Json.ofNat).mapM DataNode.count? = some t.qubits :=
    mapM_map_eq_some fun q hq => Json.count?_ofNat (h q hq)
  have hpaulis : (t.paulis.map Pauli.toJson).mapM Pauli.ofJson? = some t.paulis :=
    mapM_map_eq_some fun p _ => p.ofJson?_toJson
  rw [ofJson?, toJson, Json.readRecord_ofFields nodup_fieldNames rfl]
  change (do
    let qubits ← (t.qubits.map Json.ofNat).mapM DataNode.count?
    let paulis ← (t.paulis.map Pauli.toJson).mapM Pauli.ofJson?
    let coef ← Amplitude.ofJson? (t.coef.toJson format) format
    some ({ qubits, paulis, coef } : PauliTerm Float)) = _
  rw [hqubits, hpaulis]
  cases Amplitude.ofJson? (t.coef.toJson format) format <;> rfl

theorem beq_self (h : t.coef.IsFinite) : (t == t) = true := by
  change (t.qubits == t.qubits && (t.paulis == t.paulis && t.coef == t.coef)) = true
  rw [beq_self_eq_true, beq_self_eq_true, Amplitude.beq_self h]
  rfl

theorem wellFormed_toJson (hformat : format.Lawful) (t : PauliTerm Float) :
    (t.toJson format).WellFormed := by
  refine Json.wellFormed_ofFields ?_
  simp [fieldNames, Json.wellFormed_array, Json.wellFormed_ofNat, Amplitude.wellFormed_toJson hformat,
    Pauli.toJson, Json.wellFormed_ofText]

/-- A term as the list of its fields. -/
def listed (t : PauliTerm Float) (format : DoubleFormat) : Json :=
  .array [.array (t.qubits.map Json.ofNat), .array (t.paulis.map Pauli.toJson), t.coef.toJson format]

theorem respelt_listed (t : PauliTerm Float) : Respelt (t.toJson format) (t.listed format) :=
  .rel _ _ (.listed rfl)

theorem ofJson?_sameRecord {j j' : Json} (h : Json.SameRecord fieldNames j j') :
    ofJson? j format = ofJson? j' format := by
  rw [ofJson?, ofJson?, Json.readRecord_sameRecord nodup_fieldNames h]

theorem ofJson?_respelt {j j' : Json} (h : Respelt j j') : ofJson? j format = ofJson? j' format :=
  congrArg (Quot.lift (ofJson? · format) fun _ _ => ofJson?_sameRecord) (Quot.eqvGen_sound h)

end PauliTerm

/-! ### Hamiltonians -/

namespace Hamiltonian

theorem nodup_fieldNames : fieldNames.Nodup := by decide

/-- One change in how a Hamiltonian is written. -/
inductive Rewritten : Json → Json → Prop
  /-- the record is written in another way -/
  | record {j j' : Json} (h : Json.SameRecord fieldNames j j') : Rewritten j j'
  /-- terms are written in other ways -/
  | terms {items items' : List Json} (members : List (Option String × Json))
    (h : List.Forall₂ PauliTerm.Respelt items items') :
    Rewritten (.object ((some "terms", .array items) :: members))
      (.object ((some "terms", .array items') :: members))

/-- Other ways to write a Hamiltonian, and other ways to write those. -/
def Respelt : Json → Json → Prop := Relation.EqvGen Rewritten

/-- A Hamiltonian with all its records as lists of their fields. -/
def listed (h : Hamiltonian Float) (format : DoubleFormat) : Json :=
  .array [.ofNat h.qubitCount, .array (h.terms.map fun t => t.listed format)]

/-- All records of a document may be lists at once. -/
theorem respelt_listed (h : Hamiltonian Float) : Respelt (h.toJson format) (h.listed format) := by
  have hterms : List.Forall₂ PauliTerm.Respelt (h.terms.map fun t => t.toJson format)
      (h.terms.map fun t => t.listed format) := by
    rw [List.forall₂_map_left_iff, List.forall₂_map_right_iff, List.forall₂_same]
    exact fun t _ => t.respelt_listed
  have hswap : ∀ items : List Json, Respelt
      (.object [(some "qubit_count", .ofNat h.qubitCount), (some "terms", .array items)])
      (.object [(some "terms", .array items), (some "qubit_count", .ofNat h.qubitCount)]) :=
    fun _ => .rel _ _ (.record (.reordered (.swap ..)))
  have hlist : Json.SameRecord fieldNames (.ofFields (fieldNames.zip
      [.ofNat h.qubitCount, .array (h.terms.map fun t => t.listed format)])) (h.listed format) :=
    .listed rfl
  -- the terms are changed where they stand first, and moved back before the record becomes a list
  refine .trans _ _ _ (hswap _) (.trans _ _ _ (.rel _ _ (.terms _ hterms)) ?_)
  exact .trans _ _ _ (.symm _ _ (hswap _)) (.rel _ _ (.record hlist))

/-- The counts of a Hamiltonian are counts of the format. -/
def CountsFit (h : Hamiltonian Float) : Prop :=
  h.qubitCount ≤ maxCount ∧ ∀ t ∈ h.terms, ∀ q ∈ t.qubits, q ≤ maxCount

/-- All weights are finite. -/
def IsFinite (h : Hamiltonian Float) : Prop := ∀ t ∈ h.terms, t.coef.IsFinite

variable {h : Hamiltonian Float}

/-- What is read of a record with `count` qubits and the given terms. -/
theorem ofJson?_of_readRecord {j count terms : Json}
    (hrecord : readRecord fieldNames true j = some [some count, some terms]) :
    ofJson? j format = (DataNode.count? count).bind fun qubitCount =>
      ((DataNode.items? terms).bind (List.mapM (PauliTerm.ofJson? · format))).map fun terms =>
        { qubitCount, terms } := by
  rw [ofJson?, hrecord]
  cases hcount : DataNode.count? count with
  | none => simp [hcount]
  | some qubitCount =>
    cases hitems : DataNode.items? terms with
    | none => simp [hcount, hitems]
    | some items =>
      cases hterms : items.mapM (PauliTerm.ofJson? · format) <;> simp [hcount, hitems, hterms]

/-- A Hamiltonian is read from its record if its terms are. -/
theorem ofJson?_toJson_eq_map (hcounts : h.CountsFit) :
    ofJson? (h.toJson format) format =
      ((h.terms.map fun t => t.toJson format).mapM (PauliTerm.ofJson? · format)).map fun terms =>
        { h with terms } := by
  rw [ofJson?_of_readRecord (Json.readRecord_ofFields nodup_fieldNames rfl),
    Json.count?_ofNat hcounts.1]
  rfl

theorem wellFormed_toJson (hformat : format.Lawful) (h : Hamiltonian Float) :
    (h.toJson format).WellFormed := by
  refine Json.wellFormed_ofFields ?_
  simp [fieldNames, Json.wellFormed_array, Json.wellFormed_ofNat, PauliTerm.wellFormed_toJson hformat]

theorem wellFormed_listed (hformat : format.Lawful) (h : Hamiltonian Float) :
    (h.listed format).WellFormed := by
  simp [listed, PauliTerm.listed, Json.wellFormed_array, Json.wellFormed_ofNat,
    Amplitude.wellFormed_toJson hformat, Pauli.toJson, Json.wellFormed_ofText]

/-- The text of a Hamiltonian is the text of its record. -/
theorem parse_render_eq (hformat : format.Lawful) (h : Hamiltonian Float) :
    parse (h.render format) format = ofJson? (h.toJson format) format := by
  rw [parse, render, Json.parse_compact (h.wellFormed_toJson hformat)]
  rfl

/-- **A Hamiltonian with finite weights is read from its text as it was.** -/
theorem parse_render (hformat : format.Lawful) (hcounts : h.CountsFit) (hfinite : h.IsFinite) :
    parse (h.render format) format = some h := by
  have hterms : (h.terms.map fun t => t.toJson format).mapM (PauliTerm.ofJson? · format) =
      some h.terms :=
    mapM_map_eq_some fun t ht => by
      rw [PauliTerm.ofJson?_toJson_eq_map (hcounts.2 t ht),
        Amplitude.ofJson?_toJson hformat (hfinite t ht)]
      rfl
  rw [parse_render_eq hformat, ofJson?_toJson_eq_map hcounts, hterms]
  rfl

/-- **A Hamiltonian with a weight that is not finite is not read from its text.** -/
theorem parse_render_eq_none (hformat : format.Lawful) (hcounts : h.CountsFit)
    (hfinite : ¬h.IsFinite) : parse (h.render format) format = none := by
  rw [IsFinite] at hfinite
  push Not at hfinite
  obtain ⟨t, ht, hweight⟩ := hfinite
  have hterm : PauliTerm.ofJson? (t.toJson format) format = none := by
    rw [PauliTerm.ofJson?_toJson_eq_map (hcounts.2 t ht),
      Amplitude.ofJson?_toJson_eq_none hformat hweight]
    rfl
  rw [parse_render_eq hformat, ofJson?_toJson_eq_map hcounts,
    Outcome.mapM_eq_none (List.mem_map_of_mem ht) hterm]
  rfl

theorem ofJson?_rewritten {j j' : Json} (h : Rewritten j j') :
    ofJson? j format = ofJson? j' format := by
  cases h with
  | record h => rw [ofJson?, ofJson?, Json.readRecord_sameRecord nodup_fieldNames h]
  | @terms items items' members h =>
    -- the terms are one field of the record, and are read one by one
    obtain ⟨ok, others, hcollect⟩ := collect_cons fieldNames "terms" members
    have hrecord : ∀ list : List Json,
        readRecord fieldNames true (Json.object ((some "terms", .array list) :: members)) =
          if ok then some [others "qubit_count", some (.array list)] else none := fun list =>
      hcollect (.array list)
    have hitems : items.mapM (PauliTerm.ofJson? · format) =
        items'.mapM (PauliTerm.ofJson? · format) :=
      Outcome.mapM_congr (h.imp fun _ _ => PauliTerm.ofJson?_respelt)
    cases ok with
    | false => rw [ofJson?, ofJson?, hrecord, hrecord]; rfl
    | true =>
      cases hcount : others "qubit_count" with
      | none =>
        rw [ofJson?, ofJson?, hrecord, hrecord, hcount]
        rfl
      | some count =>
        rw [ofJson?_of_readRecord (hcount ▸ hrecord items),
          ofJson?_of_readRecord (hcount ▸ hrecord items')]
        exact congrArg (fun terms => (DataNode.count? count).bind fun qubitCount =>
          terms.map fun terms => ({ qubitCount, terms } : Hamiltonian Float)) hitems

/-- **How a document writes its records does not change what is read.** -/
theorem ofJson?_respelt {j j' : Json} (h : Respelt j j') : ofJson? j format = ofJson? j' format :=
  congrArg (Quot.lift (ofJson? · format) fun _ _ => ofJson?_rewritten) (Quot.eqvGen_sound h)

/-- A Hamiltonian with finite weights is equal to itself as doubles are compared. -/
theorem beq_self (hfinite : h.IsFinite) : (h == h) = true := by
  change (h.qubitCount == h.qubitCount && h.terms == h.terms) = true
  rw [beq_self_eq_true, list_beq_self fun t ht => PauliTerm.beq_self (hfinite t ht)]
  rfl

end Hamiltonian

/-! ### The round trip -/

/-- **Documents and Hamiltonians.** In a lawful format of doubles, a Hamiltonian whose counts fit is read from
its text exactly if all its weights are finite, and then as it was. Documents that differ in the order of their
members, in members under other keys, or in writing records as lists are read alike, in whatever format; this
includes every text of such a variant of the Hamiltonian's own document. -/
theorem hamiltonian_round_trip {format : DoubleFormat} (hformat : format.Lawful) {h : Hamiltonian Float}
    (hcounts : h.CountsFit) :
    (h.IsFinite → Hamiltonian.parse (h.render format) format = some h ∧ (h == h) = true) ∧
      (¬h.IsFinite → Hamiltonian.parse (h.render format) format = none) ∧
      (∀ (other : DoubleFormat) (text text' : String) (j j' : Json), Json.parse text = some j →
        Json.parse text' = some j' → Hamiltonian.Respelt j j' →
          Hamiltonian.parse text' other = Hamiltonian.parse text other) ∧
      ∀ j : Json, j.WellFormed → Hamiltonian.Respelt (h.toJson format) j →
        Hamiltonian.parse (String.ofList j.compact) format =
          Hamiltonian.parse (h.render format) format := by
  have halike : ∀ (other : DoubleFormat) (text text' : String) (j j' : Json),
      Json.parse text = some j → Json.parse text' = some j' → Hamiltonian.Respelt j j' →
        Hamiltonian.parse text' other = Hamiltonian.parse text other := by
    intro other text text' j j' hj hj' hrespelt
    rw [Hamiltonian.parse, Hamiltonian.parse, hj, hj']
    exact (Hamiltonian.ofJson?_respelt hrespelt).symm
  refine ⟨fun hfinite => ⟨Hamiltonian.parse_render hformat hcounts hfinite, h.beq_self hfinite⟩,
    Hamiltonian.parse_render_eq_none hformat hcounts, halike, fun j hj hrespelt => ?_⟩
  exact halike _ _ _ _ _ (Json.parse_compact (h.wellFormed_toJson hformat)) (Json.parse_compact hj)
    hrespelt

/-- Terms with lists of different lengths, a qubit twice and one beyond the register, and weights that
are small, negative zero or not exactly a decimal. -/
def malformedHamiltonian : Hamiltonian Float where
  qubitCount := 2
  terms := [⟨[0, 7, 0], [.X], ⟨0.1, -0.0⟩⟩, ⟨[], [.Y, .Z], ⟨1e-7, -2.5⟩⟩]

/-- Malformed terms are read back too, with their weights, also from lists of fields. The weights are read
in steps as they are with a single rounding. -/
theorem hamiltonian_round_trip_malformed :
    DoubleFormat.nearest.Lawful ∧ malformedHamiltonian.CountsFit ∧ malformedHamiltonian.IsFinite ∧
      (malformedHamiltonian.listed .nearest).WellFormed ∧
      Hamiltonian.Respelt (malformedHamiltonian.toJson .nearest) (malformedHamiltonian.listed .nearest) ∧
      Hamiltonian.parse (malformedHamiltonian.render .nearest) .nearest = some malformedHamiltonian ∧
      Hamiltonian.parse (String.ofList (malformedHamiltonian.listed .nearest).compact) .nearest =
        some malformedHamiltonian ∧
      ∀ t ∈ malformedHamiltonian.terms,
        Amplitude.ofJson? (t.coef.toJson .inSteps) .inSteps = some t.coef := by
  have hformat := DoubleFormat.nearest_lawful
  have hcounts : malformedHamiltonian.CountsFit := by
    unfold Hamiltonian.CountsFit
    decide
  have hfinite : malformedHamiltonian.IsFinite := by
    simp only [Hamiltonian.IsFinite, malformedHamiltonian, List.forall_mem_cons, Amplitude.IsFinite]
    decide +kernel
  have hlisted := malformedHamiltonian.wellFormed_listed hformat
  have hrespelt : Hamiltonian.Respelt (malformedHamiltonian.toJson .nearest)
      (malformedHamiltonian.listed .nearest) := malformedHamiltonian.respelt_listed
  obtain ⟨hread, -, -, hvariants⟩ := hamiltonian_round_trip hformat hcounts
  refine ⟨hformat, hcounts, hfinite, hlisted, hrespelt, (hread hfinite).1,
    (hvariants _ hlisted hrespelt).trans (hread hfinite).1, ?_⟩
  decide +kernel

end GateCircuit
