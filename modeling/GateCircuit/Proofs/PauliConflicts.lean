/-
# Conflicts between Pauli strings

Two strings conflict on a qubit that both act on with different operators, neither of them the
identity. The sign that two strings gain when they change places is found on the masks of the whole
strings; taken qubit by qubit it is minus one for each conflict. So two strings commute if the number of
their conflicts is even, and a register to which both are applied tells by that sign alone which one came
first.

Key definitions: `Pauli.Conflicts`, `conflicts`.
Key theorems: `conflicts_eq_ncard`, `bitSign_masks`, `stringOperator_exchange`,
`stringOperator_commute`, `applied_strings_exchange`.
-/
import Mathlib
import GateCircuit.Proofs.PauliAlgebra

namespace GateCircuit

/-! ### Conflicts -/

/-- Two different operators, neither of which is the identity. -/
def Pauli.Conflicts (p p' : Pauli) : Prop := p ≠ .I ∧ p' ≠ .I ∧ p ≠ p'

instance (p p' : Pauli) : Decidable (p.Conflicts p') :=
  inferInstanceAs (Decidable (p ≠ .I ∧ p' ≠ .I ∧ p ≠ p'))

/-- The number of qubits on which two strings carry different operators other than the identity. -/
def conflicts (string string' : List (Qubit × Pauli)) : ℕ :=
  string.countP fun a => string'.any fun a' => a.1 = a'.1 ∧ a.2.Conflicts a'.2

/-- Operators conflict if just one of them flips where the other one signs. -/
theorem bits_eq_conflicts (p p' : Pauli) :
    ((p.flips && p'.signs) ^^ (p.signs && p'.flips)) = decide (p.Conflicts p') := by
  cases p <;> cases p' <;> decide

section Strings

variable {string string' : List (Qubit × Pauli)}

theorem conflicts_cons (q : Qubit) (p : Pauli) (rest : List (Qubit × Pauli)) :
    conflicts ((q, p) :: rest) string' =
      conflicts rest string' +
        if string'.any fun a' => q = a'.1 ∧ p.Conflicts a'.2 then 1 else 0 := by
  rw [conflicts, conflicts, List.countP_cons]

/-- If its qubits are distinct then each conflict is a qubit of both strings. -/
theorem conflicts_eq_ncard (hnd : (string.map Prod.fst).Nodup) :
    conflicts string string' =
      {q | ∃ p p', (q, p) ∈ string ∧ (q, p') ∈ string' ∧ p.Conflicts p'}.ncard := by
  set conflicting := string.filter fun a => string'.any fun a' => a.1 = a'.1 ∧ a.2.Conflicts a'.2
    with hconflicting
  have hdistinct : (conflicting.map Prod.fst).Nodup := (List.filter_sublist.map Prod.fst).nodup hnd
  have hqubits : {q | ∃ p p', (q, p) ∈ string ∧ (q, p') ∈ string' ∧ p.Conflicts p'} =
      ((conflicting.map Prod.fst).toFinset : Set Qubit) := by
    ext q
    simp only [hconflicting, Set.mem_ofPred_eq, List.coe_toFinset, List.mem_map, List.mem_filter,
      List.any_eq_true, decide_eq_true_eq]
    constructor
    · rintro ⟨p, p', hmem, hmem', hconflict⟩
      exact ⟨(q, p), ⟨hmem, (q, p'), hmem', rfl, hconflict⟩, rfl⟩
    · rintro ⟨⟨_, p⟩, ⟨hmem, ⟨_, p'⟩, hmem', rfl, hconflict⟩, rfl⟩
      exact ⟨p, p', hmem, hmem', hconflict⟩
  rw [hqubits, Set.ncard_coe_finset, List.toFinset_card_of_nodup hdistinct, List.length_map, conflicts,
    List.countP_eq_length_filter]

/-! ### Signs, qubit by qubit -/

/-- One more bit of a mask gives one more sign. -/
theorem bitSign_and_or {q : Qubit} {mask : ℕ} (hq : mask.testBit q = false) (b : ℕ) :
    bitSign (b &&& (q.mask ||| mask)) = (if b.testBit q then -1 else 1) * bitSign (b &&& mask) := by
  rw [bitSign, bitSign, oddBits_and_or hq]
  cases b.testBit q <;> cases oddBits (b &&& mask) <;> simp

/-- An operator and a string that has distinct qubits: the bits of the masks tell whether they
conflict. -/
theorem maskBits_eq_any (hnd : (string'.map Prod.fst).Nodup) (q : Qubit) (p : Pauli) :
    ((p.flips && (signMask string').testBit q) ^^ (p.signs && (flipMask string').testBit q)) =
      string'.any fun a' => q = a'.1 ∧ p.Conflicts a'.2 := by
  by_cases hmem : q ∈ string'.map Prod.fst
  · obtain ⟨a', ha', rfl⟩ := List.mem_map.mp hmem
    have hany : (string'.any fun b => a'.1 = b.1 ∧ p.Conflicts b.2) = decide (p.Conflicts a'.2) := by
      rw [Bool.eq_iff_iff, List.any_eq_true, decide_eq_true_eq]
      constructor
      · rintro ⟨b, hb, hconflict⟩
        obtain ⟨hqubit, hconflict⟩ := of_decide_eq_true hconflict
        -- the qubits are distinct, so there is no other operator on this one
        have hb : b = a' := List.inj_on_of_nodup_map hnd hb ha' hqubit.symm
        exact hb ▸ hconflict
      · exact fun hconflict => ⟨a', ha', decide_eq_true ⟨rfl, hconflict⟩⟩
    rw [hany, testBit_signMask_of_mem hnd a' ha', testBit_flipMask_of_mem hnd a' ha',
      bits_eq_conflicts]
  · have hne : ∀ a' ∈ string', a'.1 ≠ q := fun a' ha' h => hmem (List.mem_map.mpr ⟨a', ha', h⟩)
    have hany : (string'.any fun b => q = b.1 ∧ p.Conflicts b.2) = false := by
      rw [List.any_eq_false]
      intro b hb hconflict
      exact hne b hb (of_decide_eq_true hconflict).1.symm
    rw [hany, testBit_signMask_of_notMem hne, testBit_flipMask_of_notMem hne, Bool.and_false,
      Bool.and_false]
    rfl

/-- **The sign of an exchange**, found on the masks of whole strings, is minus one for each
conflict. -/
theorem bitSign_masks (hnd' : (string'.map Prod.fst).Nodup) : ∀ {string : List (Qubit × Pauli)},
    (string.map Prod.fst).Nodup →
      bitSign (flipMask string &&& signMask string') * bitSign (flipMask string' &&& signMask string) =
        (-1) ^ conflicts string string'
  | [], _ => by simp [flipMask, signMask, maskOf, conflicts]
  | (q, p) :: rest, hnd => by
    rw [List.map_cons, List.nodup_cons] at hnd
    have hne : ∀ a ∈ rest, a.1 ≠ q := fun a ha h => hnd.1 (List.mem_map.mpr ⟨a, ha, h⟩)
    have hflips := testBit_flipMask_of_notMem hne
    have hsigns := testBit_signMask_of_notMem hne
    have hflipSign : bitSign (flipMask ((q, p) :: rest) &&& signMask string') =
        (if p.flips && (signMask string').testBit q then -1 else 1) *
          bitSign (flipMask rest &&& signMask string') := by
      rw [flipMask_cons, Nat.land_comm, Nat.land_comm (flipMask rest)]
      cases p.flips
      · simp
      · simp [bitSign_and_or hflips]
    have hsignSign : bitSign (flipMask string' &&& signMask ((q, p) :: rest)) =
        (if p.signs && (flipMask string').testBit q then -1 else 1) *
          bitSign (flipMask string' &&& signMask rest) := by
      rw [signMask_cons]
      cases p.signs
      · simp
      · simp [bitSign_and_or hsigns]
    have ih := bitSign_masks hnd' hnd.2
    rw [hflipSign, hsignSign, mul_mul_mul_comm, ih, conflicts_cons, ← maskBits_eq_any hnd' q p, pow_add,
      mul_comm]
    cases p.flips && (signMask string').testBit q <;>
      cases p.signs && (flipMask string').testBit q <;> simp

/-! ### Exchanges -/

/-- **Two strings change places** up to a sign, minus one for each conflict. -/
theorem stringOperator_exchange (hnd : (string.map Prod.fst).Nodup)
    (hnd' : (string'.map Prod.fst).Nodup) :
    stringOperator string * stringOperator string' =
      ((-1) ^ conflicts string string' : ℂ) • (stringOperator string' * stringOperator string) := by
  rw [stringOperator_eq_mask hnd, stringOperator_eq_mask hnd', smul_mul_smul_comm, smul_mul_smul_comm,
    Module.End.mul_eq_comp, maskOperator_comm, bitSign_masks hnd' hnd, ← Module.End.mul_eq_comp,
    smul_comm]
  congr 2
  ring

/-- **Strings commute** if the number of their conflicts is even. -/
theorem stringOperator_commute (hnd : (string.map Prod.fst).Nodup)
    (hnd' : (string'.map Prod.fst).Nodup) (heven : Even (conflicts string string')) :
    Commute (stringOperator string) (stringOperator string') := by
  have hexchange := stringOperator_exchange hnd hnd'
  rw [heven.neg_one_pow, one_smul] at hexchange
  exact hexchange

end Strings

/-! ### Registers -/

namespace StateVector

variable {s : StateVector ℝ} {ts ts' : List Qubit} {ps ps' : List Pauli}

/-- Two strings are applied one after the other. -/
theorem applyPauli_twice (hs : s.WellFormed) (hfit : FitOperands s.qubitCount ts)
    (hfit' : FitOperands s.qubitCount ts') (hlen : ts.length = ps.length)
    (hlen' : ts'.length = ps'.length) :
    ∃ u, (s.applyPauli ts [] ps >>= fun t => t.applyPauli ts' [] ps') = .ok u ∧
      s.Becomes (stringOperator (ts'.zip ps') * stringOperator (ts.zip ps)) u := by
  obtain ⟨t, ht, htwill⟩ := applyPauli_becomes hs hfit hlen
  obtain ⟨u, hu, huwill⟩ :=
    applyPauli_becomes htwill.wellFormed (htwill.qubitCount ▸ hfit') hlen'
  refine ⟨u, ?_, htwill.trans huwill⟩
  rw [ht]
  exact hu

end StateVector

/-- **Strings that change places** leave a register up to a sign, minus one for each conflict. The
operands of each string fit the register; the two strings may overlap, and list their qubits in any
order. -/
theorem applied_strings_exchange {s : StateVector ℝ} (hs : s.WellFormed) {ts ts' : List Qubit}
    {ps ps' : List Pauli} (hfit : FitOperands s.qubitCount ts)
    (hfit' : FitOperands s.qubitCount ts') (hlen : ts.length = ps.length)
    (hlen' : ts'.length = ps'.length) :
    ∃ u u', (s.applyPauli ts [] ps >>= fun t => t.applyPauli ts' [] ps') = .ok u ∧
      (s.applyPauli ts' [] ps' >>= fun t => t.applyPauli ts [] ps) = .ok u' ∧
      u.WellFormed ∧ u'.WellFormed ∧
      u.qubitCount = s.qubitCount ∧ u'.qubitCount = s.qubitCount ∧
      ∀ b, u.amp b = (-1) ^ conflicts (ts.zip ps) (ts'.zip ps') * u'.amp b := by
  have hnd : ((ts.zip ps).map Prod.fst).Nodup := by
    rw [List.map_fst_zip hlen.le]
    exact hfit.distinct
  have hnd' : ((ts'.zip ps').map Prod.fst).Nodup := by
    rw [List.map_fst_zip hlen'.le]
    exact hfit'.distinct
  obtain ⟨u, hu, huwill⟩ := StateVector.applyPauli_twice hs hfit hfit' hlen hlen'
  obtain ⟨u', hu', huwill'⟩ := StateVector.applyPauli_twice hs hfit' hfit hlen' hlen
  refine ⟨u, u', hu, hu', huwill.wellFormed, huwill'.wellFormed, huwill.qubitCount,
    huwill'.qubitCount, fun b => ?_⟩
  have hsquare : ((-1) ^ conflicts (ts.zip ps) (ts'.zip ps') : ℂ) *
      (-1) ^ conflicts (ts.zip ps) (ts'.zip ps') = 1 := by
    rw [← mul_pow, neg_one_mul, neg_neg, one_pow]
  rw [huwill.amp, huwill'.amp, stringOperator_exchange hnd hnd', LinearMap.smul_apply, Pi.smul_apply,
    smul_eq_mul, ← mul_assoc, hsquare, one_mul]

/-- Two strings that share three qubits, listed in different orders, and conflict on one of them. -/
theorem applied_strings_exchange_odd :
    (basisState 4 5 : StateVector ℝ).WellFormed ∧ FitOperands 4 [2, 0, 3] ∧ FitOperands 4 [0, 3, 1, 2] ∧
      conflicts ([2, 0, 3].zip [.X, .Y, .Z]) ([0, 3, 1, 2].zip [.Z, .I, .Y, .X]) = 1 ∧
      ∃ u u', ((basisState 4 5 : StateVector ℝ).applyPauli [2, 0, 3] [] [.X, .Y, .Z] >>= fun t =>
          t.applyPauli [0, 3, 1, 2] [] [.Z, .I, .Y, .X]) = .ok u ∧
        ((basisState 4 5 : StateVector ℝ).applyPauli [0, 3, 1, 2] [] [.Z, .I, .Y, .X] >>= fun t =>
          t.applyPauli [2, 0, 3] [] [.X, .Y, .Z]) = .ok u' ∧
        ∀ b, u.amp b = -u'.amp b := by
  have hs := StateVector.wellFormed_basisState (R := ℝ) 4 5
  have hfit : FitOperands 4 [2, 0, 3] := ⟨by decide, by decide⟩
  have hfit' : FitOperands 4 [0, 3, 1, 2] := ⟨by decide, by decide⟩
  have hodd : conflicts ([2, 0, 3].zip [.X, .Y, .Z]) ([0, 3, 1, 2].zip [.Z, .I, .Y, .X]) = 1 := by
    decide
  have hlen : [2, 0, 3].length = [Pauli.X, .Y, .Z].length := rfl
  have hlen' : [0, 3, 1, 2].length = [Pauli.Z, .I, .Y, .X].length := rfl
  obtain ⟨u, u', hu, hu', -, -, -, -, hamp⟩ := applied_strings_exchange hs hfit hfit' hlen hlen'
  rw [hodd, pow_one] at hamp
  exact ⟨hs, hfit, hfit', hodd, u, u', hu, hu', fun b => (hamp b).trans (neg_one_mul _)⟩

end GateCircuit
