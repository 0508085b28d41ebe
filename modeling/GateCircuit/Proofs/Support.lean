/-
# Operators that act on some qubits only

An operator acts on a list of qubits if it makes an amplitude of those amplitudes whose indices differ
on the listed qubits only, with coefficients that depend on the listed bits only. A kernel acts on its
targets and controls. Operators that act on disjoint lists do not see what the other changes: neither do
the coefficients of one change with the bits of the other, nor does it matter which bits are flipped
first. So they commute. For the same reason controls that an operator does not touch can be taken out of
a product.

Key definitions: `submasks`, `ActsOn`.
Key theorems: `ActsOn.comp_comm`, `controlled_comp`, `actsOn_stringOperator`, `actsOn_blockOperator`,
`KernelCall.Fits.actsOn`.
-/
import Mathlib
import GateCircuit.Proofs.MatrixKernel
import GateCircuit.Proofs.PauliKernel

namespace GateCircuit

/-! ### Words on a list of qubits -/

/-- The words whose set bits are all on the list. -/
def submasks (qs : List Qubit) : Finset ℕ :=
  (Finset.range (maskOf qs + 1)).filter fun m => m &&& maskOf qs = m

theorem mem_submasks {qs : List Qubit} {m : ℕ} :
    m ∈ submasks qs ↔ ∀ i, i ∉ qs → m.testBit i = false := by
  rw [submasks, Finset.mem_filter, Finset.mem_range, Nat.lt_succ_iff]
  constructor
  · rintro ⟨-, hand⟩ i hi
    rw [← hand, Nat.testBit_and, testBit_maskOf]
    simp [hi]
  · intro h
    have hon : ∀ i, m.testBit i = true → i ∈ qs := by
      intro i hi
      by_contra hnot
      rw [h i hnot] at hi
      cases hi
    refine ⟨Nat.le_of_testBit fun i hi => ?_, Nat.eq_of_testBit_eq fun i => ?_⟩
    · rw [testBit_maskOf]
      exact decide_eq_true (hon i hi)
    · rw [Nat.testBit_and, testBit_maskOf]
      cases hbit : m.testBit i with
      | false => rfl
      | true => simp [hon i hbit]

theorem zero_mem_submasks (qs : List Qubit) : 0 ∈ submasks qs :=
  mem_submasks.mpr fun i _ => Nat.zero_testBit i

theorem submasks_subset {qs qs' : List Qubit} (h : qs ⊆ qs') : submasks qs ⊆ submasks qs' :=
  fun _ hm => mem_submasks.mpr fun i hi => mem_submasks.mp hm i fun hmem => hi (h hmem)

/-- Flips on one list leave the bits on a disjoint one alone. -/
theorem testBit_xor_submask {qs qs' : List Qubit} (hdisjoint : qs.Disjoint qs') {m : ℕ}
    (hm : m ∈ submasks qs) (b : ℕ) {q : Qubit} (hq : q ∈ qs') :
    (b ^^^ m).testBit q = b.testBit q := by
  have hnot : q ∉ qs := fun h => hdisjoint h hq
  rw [Nat.testBit_xor, mem_submasks.mp hm q hnot, Bool.xor_false]

/-! ### Operators on a list of qubits -/

/-- The operator mixes amplitudes whose indices differ on the listed qubits only, with coefficients that
depend on the bits there only. -/
def ActsOn (qs : List Qubit) (A : Operator) : Prop :=
  ∃ coeff : ℕ → ℕ → ℂ,
    (∀ b b', (∀ q ∈ qs, b.testBit q = b'.testBit q) → coeff b = coeff b') ∧
      ∀ ψ b, A ψ b = ∑ m ∈ submasks qs, coeff b m * ψ (b ^^^ m)

namespace ActsOn

variable {qs qs' : List Qubit} {A B : Operator}

theorem mono (hA : ActsOn qs A) (h : qs ⊆ qs') : ActsOn qs' A := by
  obtain ⟨coeff, hcoeff, hsum⟩ := hA
  refine ⟨fun b m => if m ∈ submasks qs then coeff b m else 0, ?_, ?_⟩
  · intro b b' hbits
    have heq : coeff b = coeff b' := hcoeff b b' fun q hq => hbits q (h hq)
    simp only [heq]
  · intro ψ b
    rw [hsum]
    refine Finset.sum_subset_zero_on_sdiff (submasks_subset h) ?_ ?_
    · intro m hm
      simp only [if_neg (Finset.mem_sdiff.mp hm).2, zero_mul]
    · intro m hm
      simp only [if_pos hm]

/-- One word flipped, with a factor that depends on the listed bits. -/
theorem of_flip {mask : ℕ} (hmask : mask ∈ submasks qs) (factor : ℕ → ℂ)
    (hfactor : ∀ b b', (∀ q ∈ qs, b.testBit q = b'.testBit q) → factor b = factor b')
    (hA : ∀ ψ b, A ψ b = factor b * ψ (b ^^^ mask)) : ActsOn qs A := by
  refine ⟨fun b m => if m = mask then factor b else 0, ?_, ?_⟩
  · intro b b' hbits
    simp only [hfactor b b' hbits]
  · intro ψ b
    rw [hA, Finset.sum_eq_single mask]
    · simp only [if_pos]
    · intro m _ hne
      simp only [if_neg hne, zero_mul]
    · intro hnot
      exact absurd hmask hnot

theorem id (qs : List Qubit) : ActsOn qs LinearMap.id := by
  refine of_flip (zero_mem_submasks qs) (fun _ => 1) (fun _ _ _ => rfl) ?_
  intro ψ b
  rw [one_mul, Nat.xor_zero]
  rfl

theorem add (hA : ActsOn qs A) (hB : ActsOn qs B) : ActsOn qs (A + B) := by
  obtain ⟨coeff, hcoeff, hsum⟩ := hA
  obtain ⟨coeff', hcoeff', hsum'⟩ := hB
  refine ⟨fun b m => coeff b m + coeff' b m, ?_, ?_⟩
  · intro b b' hbits
    simp only [hcoeff b b' hbits, hcoeff' b b' hbits]
  · intro ψ b
    rw [LinearMap.add_apply, Pi.add_apply, hsum, hsum', ← Finset.sum_add_distrib]
    exact Finset.sum_congr rfl fun m _ => (add_mul _ _ _).symm

theorem smul (a : ℂ) (hA : ActsOn qs A) : ActsOn qs (a • A) := by
  obtain ⟨coeff, hcoeff, hsum⟩ := hA
  refine ⟨fun b m => a * coeff b m, ?_, ?_⟩
  · intro b b' hbits
    simp only [hcoeff b b' hbits]
  · intro ψ b
    rw [LinearMap.smul_apply, Pi.smul_apply, smul_eq_mul, hsum, Finset.mul_sum]
    exact Finset.sum_congr rfl fun m _ => (mul_assoc _ _ _).symm

/-- **Operators on disjoint qubits commute.** -/
theorem comp_comm (hA : ActsOn qs A) (hB : ActsOn qs' B) (hdisjoint : qs.Disjoint qs') :
    A ∘ₗ B = B ∘ₗ A := by
  obtain ⟨coeff, hcoeff, hsum⟩ := hA
  obtain ⟨coeff', hcoeff', hsum'⟩ := hB
  refine LinearMap.ext fun ψ => funext fun b => ?_
  have hleft : ∀ m ∈ submasks qs, coeff' (b ^^^ m) = coeff' b := fun m hm =>
    hcoeff' _ _ fun q hq => testBit_xor_submask hdisjoint hm b hq
  have hright : ∀ m' ∈ submasks qs', coeff (b ^^^ m') = coeff b := fun m' hm' =>
    hcoeff _ _ fun q hq => testBit_xor_submask hdisjoint.symm hm' b hq
  calc (A ∘ₗ B) ψ b
      = ∑ m ∈ submasks qs, ∑ m' ∈ submasks qs',
          coeff b m * (coeff' (b ^^^ m) m' * ψ (b ^^^ m ^^^ m')) := by
        simp only [LinearMap.comp_apply, hsum, hsum', Finset.mul_sum]
    _ = ∑ m ∈ submasks qs, ∑ m' ∈ submasks qs',
          coeff' b m' * (coeff (b ^^^ m') m * ψ (b ^^^ m' ^^^ m)) := by
        refine Finset.sum_congr rfl fun m hm => Finset.sum_congr rfl fun m' hm' => ?_
        rw [hleft m hm, hright m' hm', Nat.xor_right_comm, mul_left_comm]
    _ = (B ∘ₗ A) ψ b := by
        rw [Finset.sum_comm]
        simp only [LinearMap.comp_apply, hsum, hsum', Finset.mul_sum]

end ActsOn

/-! ### Controls -/

section Controls

variable {ts cs : List Qubit} {A : Operator}

theorem allSet_congr {b b' : ℕ} (h : ∀ q ∈ cs, b.testBit q = b'.testBit q) :
    AllSet cs b ↔ AllSet cs b' := by
  refine forall₂_congr fun q hq => ?_
  rw [h q hq]

theorem ActsOn.controlled (hA : ActsOn ts A) : ActsOn (ts ++ cs) (controlled cs A) := by
  obtain ⟨coeff, hcoeff, hsum⟩ := hA.mono (List.subset_append_left ts cs)
  obtain ⟨one, hone, hid⟩ := ActsOn.id (ts ++ cs)
  refine ⟨fun b => if AllSet cs b then coeff b else one b, ?_, ?_⟩
  · intro b b' hbits
    have hset := allSet_congr fun q hq => hbits q (List.mem_append_right ts hq)
    simp only [hset, hcoeff b b' hbits, hone b b' hbits]
  · intro ψ b
    rw [controlled_apply]
    by_cases hset : AllSet cs b
    · simp only [if_pos hset]
      exact hsum ψ b
    · simp only [if_neg hset]
      exact hid ψ b

/-- Controls that the first factor does not touch can be taken out of a product. -/
theorem controlled_comp (hA : ActsOn ts A) (hdisjoint : ts.Disjoint cs) (B : Operator) :
    controlled cs A ∘ₗ controlled cs B = controlled cs (A ∘ₗ B) := by
  obtain ⟨coeff, -, hsum⟩ := hA
  refine LinearMap.ext fun ψ => funext fun b => ?_
  rw [LinearMap.comp_apply]
  by_cases hset : AllSet cs b
  · rw [controlled_apply, if_pos hset, controlled_apply, if_pos hset, LinearMap.comp_apply, hsum, hsum]
    refine Finset.sum_congr rfl fun m hm => ?_
    have hset' : AllSet cs (b ^^^ m) :=
      (allSet_congr fun q hq => testBit_xor_submask hdisjoint hm b hq).mpr hset
    rw [controlled_apply, if_pos hset']
  · rw [controlled_apply, if_neg hset, controlled_apply, if_neg hset, controlled_apply, if_neg hset]

theorem controlled_id (cs : List Qubit) : controlled cs LinearMap.id = LinearMap.id := by
  refine LinearMap.ext fun ψ => funext fun b => ?_
  rw [controlled_apply]
  split <;> rfl

end Controls

/-! ### Kernels -/

theorem actsOn_stringOperator (string : List (Qubit × Pauli)) :
    ActsOn (string.map Prod.fst) (stringOperator string) := by
  have hmask : flipMask string ∈ submasks (string.map Prod.fst) := by
    refine mem_submasks.mpr fun i hi => testBit_flipMask_of_notMem fun a ha heq => ?_
    exact hi (List.mem_map.mpr ⟨a, ha, heq⟩)
  refine ActsOn.of_flip hmask (fun b => stringFactor string (b ^^^ flipMask string)) ?_
    (stringOperator_apply string)
  intro b b' hbits
  refine stringFactor_congr string fun a ha => ?_
  rw [Nat.testBit_xor, Nat.testBit_xor, hbits a.1 (List.mem_map_of_mem ha)]

theorem actsOn_mixOperator (string : List (Qubit × Pauli)) (stay flip : ℂ) :
    ActsOn (string.map Prod.fst) (mixOperator string stay flip) :=
  ((ActsOn.id _).smul stay).add ((actsOn_stringOperator string).smul flip)

theorem fst_zip_subset (ts : List Qubit) (ps : List Pauli) : (ts.zip ps).map Prod.fst ⊆ ts := by
  intro q hq
  obtain ⟨a, ha, rfl⟩ := List.mem_map.mp hq
  exact (List.of_mem_zip ha).1

theorem actsOn_zip_string (ts : List Qubit) (ps : List Pauli) :
    ActsOn ts (stringOperator (ts.zip ps)) :=
  (actsOn_stringOperator _).mono (fst_zip_subset ts ps)

theorem actsOn_zip_mix (ts : List Qubit) (ps : List Pauli) (stay flip : ℂ) :
    ActsOn ts (mixOperator (ts.zip ps) stay flip) :=
  (actsOn_mixOperator _ stay flip).mono (fst_zip_subset ts ps)

/-- New bits on the targets are flips on the targets. -/
theorem sum_replaced {ts : List Qubit} (hts : ts.Nodup) {dim : ℕ} (hdim : dim ≤ 2 ^ ts.length)
    (b : ℕ) (f : ℕ → ℕ → ℂ) :
    ∑ m ∈ Finset.range dim, f m (replaced ts b m) =
      ∑ m ∈ (submasks ts).filter (fun m => gather ts (b ^^^ m) < dim),
        f (gather ts (b ^^^ m)) (b ^^^ m) := by
  have hback : ∀ m ∈ Finset.range dim, gather ts (replaced ts b m) = m := fun m hm =>
    gather_replaced b hts ((Finset.mem_range.mp hm).trans_le hdim)
  refine Finset.sum_nbij' (fun m => b ^^^ replaced ts b m) (fun m => gather ts (b ^^^ m)) ?_ ?_ ?_ ?_ ?_
  · intro m hm
    rw [Finset.mem_filter, Nat.xor_xor_cancel_left, hback m hm]
    refine ⟨mem_submasks.mpr fun i hi => ?_, Finset.mem_range.mp hm⟩
    rw [Nat.testBit_xor, testBit_replaced_of_notMem b m hi, Bool.xor_self]
  · intro m hm
    exact Finset.mem_range.mpr (Finset.mem_filter.mp hm).2
  · intro m hm
    rw [Nat.xor_xor_cancel_left, hback m hm]
  · intro m hm
    have hbits : ∀ i, i ∉ ts → (b ^^^ m).testBit i = b.testBit i := by
      intro i hi
      rw [Nat.testBit_xor, mem_submasks.mp (Finset.mem_filter.mp hm).1 i hi, Bool.xor_false]
    rw [← eq_replaced hts hbits, Nat.xor_xor_cancel_left]
  · intro m hm
    rw [Nat.xor_xor_cancel_left, hback m hm]

theorem actsOn_blockOperator {ts : List Qubit} (hts : ts.Nodup) {dim : ℕ}
    (hdim : dim ≤ 2 ^ ts.length) (entry : ℕ → ℕ → ℂ) : ActsOn ts (blockOperator ts dim entry) := by
  obtain ⟨one, hone, hid⟩ := ActsOn.id ts
  refine ⟨fun b m => if gather ts b < dim then
      if gather ts (b ^^^ m) < dim then entry (gather ts b) (gather ts (b ^^^ m)) else 0
    else one b m, ?_, ?_⟩
  · intro b b' hbits
    funext m
    have hsame : gather ts b = gather ts b' := gather_congr ts hbits
    have hflipped : gather ts (b ^^^ m) = gather ts (b' ^^^ m) :=
      gather_congr ts fun q hq => by rw [Nat.testBit_xor, Nat.testBit_xor, hbits q hq]
    simp only [hsame, hflipped, hone b b' hbits]
  · intro ψ b
    rw [blockOperator_apply]
    by_cases hrow : gather ts b < dim
    · simp only [if_pos hrow, ite_mul, zero_mul]
      rw [sum_replaced hts hdim b fun m c => entry (gather ts b) m * ψ c, Finset.sum_filter]
    · simp only [if_neg hrow]
      exact hid ψ b

/-- **A kernel acts on its targets and controls.** -/
theorem KernelCall.Fits.actsOn {n : ℕ} {call : KernelCall ℝ} (h : call.Fits n) :
    ActsOn (call.targets ++ call.controls) call.operator := by
  cases call with
  | matrix ts cs entries =>
    have hts : ts.Nodup := (List.nodup_append.mp h.operands.distinct).1
    exact (actsOn_blockOperator hts (blockSize_le _) _).controlled
  | pauli ts cs ps => exact (actsOn_zip_string ts ps).controlled
  | rotation ts cs ps angle => exact (actsOn_zip_mix ts ps _ _).controlled

end GateCircuit
