/-
# Which operands a kernel accepts

A kernel reads its targets and controls into masks. The reading succeeds exactly if all operands lie
inside the register and none occurs twice, and the masks then hold the listed qubits and no others.
Otherwise it fails on the first operand that is out of range or repeats an earlier one, the targets being
read before the controls.

Key definitions: `FitOperands`, `FirstFault`, `OperandFault`.
Key theorems: `operandMask_eq_ok`, `operandMask_eq_error`, `StateVector.operands_eq_ok`,
`StateVector.operands_eq_error`.
-/
import Mathlib
import GateCircuit.Proofs.Bits
import GateCircuit.Proofs.Outcome

namespace GateCircuit

open Outcome

/-- The qubits lie inside a register of `n` qubits, and none is listed twice. -/
structure FitOperands (n : ℕ) (qs : List Qubit) : Prop where
  inside : ∀ q ∈ qs, q < n
  distinct : qs.Nodup

theorem FitOperands.mono {n m : ℕ} {qs : List Qubit} (h : FitOperands n qs) (hnm : n ≤ m) :
    FitOperands m qs :=
  ⟨fun q hq => (h.inside q hq).trans_le hnm, h.distinct⟩

/-- No more qubits fit a register than it has. -/
theorem FitOperands.length_le {n : ℕ} {qs : List Qubit} (h : FitOperands n qs) : qs.length ≤ n := by
  have hrange : ∀ q ∈ qs, q ∈ List.range n := fun q hq => List.mem_range.mpr (h.inside q hq)
  have hlength := (h.distinct.subperm hrange).length_le
  rwa [List.length_range] at hlength

variable {R : Type}

theorem operandMask_eq_ok {n : ℕ} {qs : List Qubit} {mask full : ℕ} :
    operandMask (R := R) n mask qs = .ok full ↔
      FitOperands n qs ∧ (∀ q ∈ qs, mask.testBit q = false) ∧ full = mask ||| maskOf qs := by
  induction qs generalizing mask with
  | nil =>
    have h : FitOperands n [] := ⟨by simp, List.nodup_nil⟩
    rw [operandMask, Except.ok.injEq, show maskOf [] = 0 from rfl, Nat.or_zero, eq_comm]
    simp [h]
  | cons q qs ih =>
    rw [operandMask]
    by_cases hq : n ≤ q
    · have : ¬ FitOperands n (q :: qs) := fun h =>
        absurd (h.inside q List.mem_cons_self) (Nat.not_lt.mpr hq)
      simp [hq, this]
    rw [if_neg hq]
    by_cases hm : mask.testBit q = true
    · simp [hm]
    rw [if_neg hm, ih]
    have hm' : mask.testBit q = false := by simpa using hm
    constructor
    · rintro ⟨hfit, hnew, rfl⟩
      have hq' : q ∉ qs := fun h => by simpa using hnew q h
      refine ⟨⟨?_, List.nodup_cons.mpr ⟨hq', hfit.distinct⟩⟩, ?_, ?_⟩
      · exact List.forall_mem_cons.mpr ⟨Nat.lt_of_not_le hq, hfit.inside⟩
      · refine List.forall_mem_cons.mpr ⟨hm', fun p hp => ?_⟩
        have := hnew p hp
        rw [Nat.testBit_or, Bool.or_eq_false_iff] at this
        exact this.1
      · rw [maskOf_cons, Nat.or_assoc]
    · rintro ⟨hfit, hnew, rfl⟩
      have hd := List.nodup_cons.mp hfit.distinct
      refine ⟨⟨fun p hp => hfit.inside p (List.mem_cons_of_mem _ hp), hd.2⟩, fun p hp => ?_, ?_⟩
      · have hne : q ≠ p := fun h => hd.1 (h ▸ hp)
        rw [Nat.testBit_or, hnew p (List.mem_cons_of_mem _ hp), testBit_mask]
        simp [hne]
      · rw [maskOf_cons, Nat.or_assoc]

/-- Two lists are read one after the other. -/
theorem operandMask_append {n mask : ℕ} (qs qs' : List Qubit) :
    operandMask (R := R) n mask (qs ++ qs') =
      (operandMask n mask qs >>= fun full => operandMask n full qs') := by
  induction qs generalizing mask with
  | nil => rfl
  | cons q qs ih =>
    rw [List.cons_append, operandMask, operandMask]
    split
    · rfl
    · split
      · rfl
      · exact ih

/-- What is wrong with the first operand that does not fit: it lies beyond the register, or else it
repeats an earlier one. -/
def FirstFault (n : ℕ) (qs : List Qubit) (e : CircuitError R) : Prop :=
  ∃ before q after, qs = before ++ q :: after ∧ FitOperands n before ∧
    ((n ≤ q ∧ e = .qubitOutOfRange q n none) ∨ (q < n ∧ q ∈ before ∧ e = .duplicateQubit q none))

theorem FirstFault.append {n : ℕ} {qs : List Qubit} {e : CircuitError R} (h : FirstFault n qs e)
    (qs' : List Qubit) : FirstFault n (qs ++ qs') e := by
  obtain ⟨before, q, after, rfl, hfault⟩ := h
  exact ⟨before, q, after ++ qs', by rw [List.append_assoc, List.cons_append], hfault⟩

/-- **Reading operands fails on the first one that does not fit.** -/
theorem operandMask_eq_error {n : ℕ} {qs : List Qubit} {e : CircuitError R} :
    operandMask n 0 qs = .error e ↔ FirstFault n qs e := by
  constructor
  · intro h
    induction qs using List.reverseRecOn with
    | nil => cases h
    | append_singleton qs q ih =>
      rw [operandMask_append, bind_eq_error] at h
      rcases h with h | ⟨full, hfull, h⟩
      · exact (ih h).append [q]
      · -- the operands before fit, so the last one is the first that does not
        obtain ⟨hfit, -, rfl⟩ := operandMask_eq_ok.mp hfull
        refine ⟨qs, q, [], rfl, hfit, ?_⟩
        unfold operandMask at h
        split at h
        · rename_i hout
          exact .inl ⟨hout, (Except.error.inj h).symm⟩
        · rename_i hin
          split at h
          · rename_i hbit
            rw [Nat.zero_or, testBit_maskOf, decide_eq_true_eq] at hbit
            exact .inr ⟨Nat.lt_of_not_le hin, hbit, (Except.error.inj h).symm⟩
          · cases h
  · rintro ⟨before, q, after, rfl, hfit, hfault⟩
    have hbefore : operandMask (R := R) n 0 before = .ok (0 ||| maskOf before) :=
      operandMask_eq_ok.mpr ⟨hfit, by simp, rfl⟩
    rw [operandMask_append, hbefore]
    show operandMask n (0 ||| maskOf before) (q :: after) = _
    unfold operandMask
    rcases hfault with ⟨hout, rfl⟩ | ⟨hin, hmem, rfl⟩
    · rw [if_pos hout]
    · rw [if_neg (Nat.not_le.mpr hin), if_pos (by simp [hmem])]

/-- What is wrong with one of the operands: it lies beyond the register, or it is listed twice. -/
def OperandFault (n : ℕ) (qs : List Qubit) (e : CircuitError R) : Prop :=
  ∃ q ∈ qs, (n ≤ q ∧ e = .qubitOutOfRange q n none) ∨
    (q < n ∧ List.Duplicate q qs ∧ e = .duplicateQubit q none)

theorem FirstFault.operandFault {n : ℕ} {qs : List Qubit} {e : CircuitError R}
    (h : FirstFault n qs e) : OperandFault n qs e := by
  obtain ⟨before, q, after, rfl, -, hfault⟩ := h
  refine ⟨q, List.mem_append_right _ List.mem_cons_self, hfault.imp_right ?_⟩
  rintro ⟨hin, hmem, he⟩
  have hcount : 1 ≤ before.count q := List.count_pos_iff.mpr hmem
  refine ⟨hin, ?_, he⟩
  rw [List.duplicate_iff_two_le_count, List.count_append, List.count_cons_self]
  omega

/-- The bits of the controls are what the full mask adds to that of the targets. -/
theorem maskOf_or_xor {ts cs : List Qubit} (h : ∀ q ∈ cs, q ∉ ts) :
    (maskOf ts ||| maskOf cs) ^^^ maskOf ts = maskOf cs := by
  apply Nat.eq_of_testBit_eq
  intro i
  have := h i
  by_cases ht : i ∈ ts <;> by_cases hc : i ∈ cs <;> simp_all

/-- The masks of listed operands are active where all controls are set. -/
theorem isActive_iff (ts cs : List Qubit) (b : ℕ) :
    (⟨maskOf ts, maskOf cs⟩ : Operands).isActive b = true ↔ AllSet cs b := by
  rw [Operands.isActive, beq_iff_eq, and_maskOf_eq_iff]

namespace StateVector

theorem operands_eq_ok {s : StateVector R} {ts cs : List Qubit} {o : Operands} :
    s.operands ts cs = .ok o ↔ FitOperands s.qubitCount (ts ++ cs) ∧ o = ⟨maskOf ts, maskOf cs⟩ := by
  simp only [operands, bind_eq_ok, pure_eq_ok, operandMask_eq_ok, Nat.zero_or]
  constructor
  · rintro ⟨_, ⟨hts, -, rfl⟩, _, ⟨hcs, hnew, rfl⟩, rfl⟩
    have hdis : ∀ q ∈ cs, q ∉ ts := fun q hq => by simpa using hnew q hq
    refine ⟨⟨fun q hq => ?_, ?_⟩, ?_⟩
    · exact (List.mem_append.mp hq).elim (hts.inside q) (hcs.inside q)
    · exact List.nodup_append.mpr ⟨hts.distinct, hcs.distinct, fun a ha b hb hab => hdis b hb (hab ▸ ha)⟩
    · rw [maskOf_or_xor hdis]
  · rintro ⟨hfit, rfl⟩
    obtain ⟨hts, hcs, hdis⟩ := List.nodup_append.mp hfit.distinct
    refine ⟨_, ⟨⟨fun q hq => hfit.inside q (by simp [hq]), hts⟩, by simp, rfl⟩, _,
      ⟨⟨fun q hq => hfit.inside q (by simp [hq]), hcs⟩, fun q hq => ?_, rfl⟩, ?_⟩
    · rw [testBit_maskOf, decide_eq_false_iff_not]
      exact fun h => hdis q h q hq rfl
    · rw [maskOf_or_xor fun q hq h => hdis q h q hq rfl]

theorem operands_eq_error {s : StateVector R} {ts cs : List Qubit} {e : CircuitError R} :
    s.operands ts cs = .error e ↔ FirstFault s.qubitCount (ts ++ cs) e := by
  rw [← operandMask_eq_error, operandMask_append]
  simp only [operands, bind_eq_error, pure_ne_error, and_false, exists_false, or_false]

end StateVector
end GateCircuit
