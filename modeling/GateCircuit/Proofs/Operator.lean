/-
# The operators that kernels stand for

The amplitudes of a register are a function from basis indices to complex numbers, zero beyond the
register. A kernel call stands for a linear operator on such functions, whatever the width of the
register: a matrix mixes the indices that differ on its targets, a Pauli string sends every index to
one other, and controls restrict an operator to the indices on which they are set.

An operator is local to the first `n` qubits if it acts alike on the blocks of `2 ^ n` amplitudes
whose upper bits agree, and on each block by itself. Operators on operands below `n` are local, and
so are their products.

Key definitions: `blockOperator`, `stringOperator`, `controlled`, `KernelCall.operator`,
`KernelCall.Fits`, `Local`.
Key theorems: `Local.comp`, `Local.vanishes`, `KernelCall.Fits.isLocal`.
-/
import Mathlib
import GateCircuit.Kernel
import GateCircuit.Proofs.Exact
import GateCircuit.Proofs.Operands

namespace GateCircuit

/-- A linear operator on the amplitudes of registers of any width. -/
abbrev Operator : Type := (ℕ → ℂ) →ₗ[ℂ] (ℕ → ℂ)

/-! What multiples and products of operators need is found at once, with one proof for all modules. -/

instance smulCommClass_amplitudes : SMulCommClass ℂ ℂ (ℕ → ℂ) := inferInstance

instance ringHomCompTriple_id :
    RingHomCompTriple (RingHom.id ℂ) (RingHom.id ℂ) (RingHom.id ℂ) := inferInstance

/-! ### Pauli strings -/

/-- The factor with which a Pauli operator sends a basis state of its qubit on. -/
noncomputable def Pauli.factor : Pauli → Bool → ℂ
  | I, _ => 1
  | X, _ => 1
  | Y, bit => if bit then -Complex.I else Complex.I
  | Z, bit => if bit then -1 else 1

/-- The qubits that a Pauli string flips, as a mask. -/
def flipMask (string : List (Qubit × Pauli)) : ℕ :=
  maskOf ((string.filter fun a => a.2.flips).map Prod.fst)

/-- The factor with which a Pauli string sends the basis state `b` on. -/
noncomputable def stringFactor : List (Qubit × Pauli) → ℕ → ℂ
  | [], _ => 1
  | (q, p) :: rest, b => p.factor (b.testBit q) * stringFactor rest b

/-- The operator of a Pauli string: what arrives at `b` comes from `b` with the flips undone. -/
noncomputable def stringOperator (string : List (Qubit × Pauli)) : Operator :=
  LinearMap.pi fun b =>
    stringFactor string (b ^^^ flipMask string) • LinearMap.proj (b ^^^ flipMask string)

@[simp] theorem stringOperator_apply (string : List (Qubit × Pauli)) (ψ : ℕ → ℂ) (b : ℕ) :
    stringOperator string ψ b =
      stringFactor string (b ^^^ flipMask string) * ψ (b ^^^ flipMask string) := rfl

/-- The combination `stay + flip * P` of the identity and a Pauli string. -/
noncomputable def mixOperator (string : List (Qubit × Pauli)) (stay flip : ℂ) : Operator :=
  stay • LinearMap.id + flip • stringOperator string

/-! ### Matrices and controls -/

/-- The operator of a matrix with `dim` rows on the targets. Rows and columns are the numbers that
the targets spell; indices where they spell a larger one are left alone. -/
noncomputable def blockOperator (ts : List Qubit) (dim : ℕ) (entry : ℕ → ℕ → ℂ) : Operator :=
  LinearMap.pi fun b =>
    if gather ts b < dim then
      ∑ m ∈ Finset.range dim, entry (gather ts b) m • LinearMap.proj (replaced ts b m)
    else LinearMap.proj b

theorem blockOperator_apply (ts : List Qubit) (dim : ℕ) (entry : ℕ → ℕ → ℂ) (ψ : ℕ → ℂ) (b : ℕ) :
    blockOperator ts dim entry ψ b =
      if gather ts b < dim then
        ∑ m ∈ Finset.range dim, entry (gather ts b) m * ψ (replaced ts b m)
      else ψ b := by
  rw [blockOperator, LinearMap.pi_apply]
  split
  · simp [LinearMap.sum_apply]
  · rfl

/-- An operator where all controls are set, and the identity elsewhere. -/
noncomputable def controlled (cs : List Qubit) (A : Operator) : Operator where
  toFun ψ b := if AllSet cs b then A ψ b else ψ b
  map_add' φ ψ := by
    funext b
    rw [map_add, Pi.add_apply, Pi.add_apply, Pi.add_apply]
    split <;> rfl
  map_smul' a ψ := by
    funext b
    rw [map_smul, RingHom.id_apply, Pi.smul_apply, Pi.smul_apply, Pi.smul_apply]
    split <;> rfl

theorem controlled_apply (cs : List Qubit) (A : Operator) (ψ : ℕ → ℂ) (b : ℕ) :
    controlled cs A ψ b = if AllSet cs b then A ψ b else ψ b := rfl

/-- Without controls an operator always acts. -/
theorem controlled_nil (A : Operator) : controlled [] A = A := by
  refine LinearMap.ext fun ψ => funext fun b => ?_
  have hall : AllSet [] b := fun q hq => absurd hq List.not_mem_nil
  rw [controlled_apply, if_pos hall]

/-! ### Kernel calls -/

namespace KernelCall

/-- The operator that a kernel call stands for. -/
noncomputable def operator : KernelCall ℝ → Operator
  | .matrix ts cs entries =>
    controlled cs (blockOperator ts (blockSize ts.length)
      fun row col => (entries.getD (row * blockSize ts.length + col) 0).toComplex)
  | .pauli ts cs ps => controlled cs (stringOperator (ts.zip ps))
  | .rotation ts cs ps angle =>
    controlled cs (mixOperator (ts.zip ps) (Real.cos (angle / 2))
      (-(Real.sin (angle / 2) * Complex.I)))

/-- The qubits that a kernel call acts on. -/
def targets {R : Type} : KernelCall R → List Qubit
  | .matrix ts _ _ => ts
  | .pauli ts _ _ => ts
  | .rotation ts _ _ _ => ts

/-- The qubits that condition a kernel call. -/
def controls {R : Type} : KernelCall R → List Qubit
  | .matrix _ cs _ => cs
  | .pauli _ cs _ => cs
  | .rotation _ cs _ _ => cs

/-- The matrix or the Pauli string of a kernel call has the size that its targets ask for. -/
def FitSize {R : Type} : KernelCall R → Prop
  | .matrix ts _ entries => entries.size = blockEntries (blockSize ts.length)
  | .pauli ts _ ps => ts.length = ps.length
  | .rotation ts _ ps _ => ts.length = ps.length

/-- A kernel call that a register of `n` qubits can carry out. -/
structure Fits {R : Type} (n : ℕ) (call : KernelCall R) : Prop where
  operands : FitOperands n (call.targets ++ call.controls)
  size : call.FitSize

theorem Fits.mono {R : Type} {n m : ℕ} {call : KernelCall R} (h : call.Fits n) (hnm : n ≤ m) :
    call.Fits m :=
  ⟨h.operands.mono hnm, h.size⟩

end KernelCall

/-! ### Locality -/

/-- The block of amplitudes whose upper bits are `h`, moved to the lowest indices. -/
def block (n h : ℕ) (ψ : ℕ → ℂ) : ℕ → ℂ := fun l => if l < 2 ^ n then ψ (2 ^ n * h + l) else 0

/-- The operator acts alike on all blocks of `2 ^ n` amplitudes, and on each by itself. -/
def Local (n : ℕ) (A : Operator) : Prop :=
  ∀ (ψ : ℕ → ℂ) (h l : ℕ), l < 2 ^ n → A ψ (2 ^ n * h + l) = A (block n h ψ) l

theorem block_of_lt {n l : ℕ} (hl : l < 2 ^ n) (h : ℕ) (ψ : ℕ → ℂ) :
    block n h ψ l = ψ (2 ^ n * h + l) := if_pos hl

namespace Local

variable {n : ℕ} {A B : Operator}

theorem id : Local n LinearMap.id := fun ψ h _ hl => (block_of_lt hl h ψ).symm

theorem add (hA : Local n A) (hB : Local n B) : Local n (A + B) := by
  intro ψ h l hl
  rw [LinearMap.add_apply, LinearMap.add_apply, Pi.add_apply, Pi.add_apply, hA ψ h l hl,
    hB ψ h l hl]

theorem smul (c : ℂ) (hA : Local n A) : Local n (c • A) := by
  intro ψ h l hl
  rw [LinearMap.smul_apply, LinearMap.smul_apply, Pi.smul_apply, Pi.smul_apply, hA ψ h l hl]

/-- A local operator sees only the lowest block of what it makes of the lowest block. -/
theorem apply_block_zero (hA : Local n A) (φ : ℕ → ℂ) {l : ℕ} (hl : l < 2 ^ n) :
    A (block n 0 φ) l = A φ l := by
  have := hA φ 0 l hl
  rw [Nat.mul_zero, Nat.zero_add] at this
  exact this.symm

theorem block_apply (hA : Local n A) (h : ℕ) (ψ : ℕ → ℂ) :
    block n h (A ψ) = block n 0 (A (block n h ψ)) := by
  funext l
  unfold block
  split
  · rename_i hl
    rw [hA ψ h l hl, Nat.mul_zero, Nat.zero_add]
    rfl
  · rfl

theorem comp (hA : Local n A) (hB : Local n B) : Local n (A ∘ₗ B) := by
  intro ψ h l hl
  rw [LinearMap.comp_apply, LinearMap.comp_apply, hA _ h l hl, hB.block_apply,
    hA.apply_block_zero _ hl]

/-- Amplitudes beyond the register stay zero. -/
theorem vanishes (hA : Local n A) {ψ : ℕ → ℂ} (hψ : ∀ b, 2 ^ n ≤ b → ψ b = 0) {b : ℕ}
    (hb : 2 ^ n ≤ b) : A ψ b = 0 := by
  have hpos : 0 < 2 ^ n := by positivity
  have hup : 1 ≤ b / 2 ^ n := (Nat.one_le_div_iff hpos).mpr hb
  have hzero : block n (b / 2 ^ n) ψ = 0 := by
    funext l
    unfold block
    split
    · refine hψ _ ?_
      calc 2 ^ n = 2 ^ n * 1 := (Nat.mul_one _).symm
        _ ≤ 2 ^ n * (b / 2 ^ n) := Nat.mul_le_mul_left _ hup
        _ ≤ _ := Nat.le_add_right _ _
    · rfl
  have := hA ψ (b / 2 ^ n) (b % 2 ^ n) (Nat.mod_lt _ hpos)
  rw [Nat.div_add_mod, hzero, map_zero] at this
  exact this

end Local

/-! ### Operands below the block size -/

section Below

variable {n h l : ℕ}

theorem testBit_block (hl : l < 2 ^ n) {i : ℕ} (hi : i < n) :
    (2 ^ n * h + l).testBit i = l.testBit i := by
  rw [Nat.testBit_two_pow_mul_add h hl, if_pos hi]

theorem allSet_block (hl : l < 2 ^ n) {qs : List Qubit} (hqs : ∀ q ∈ qs, q < n) :
    AllSet qs (2 ^ n * h + l) ↔ AllSet qs l :=
  forall₂_congr fun q hq => by rw [testBit_block hl (hqs q hq)]

theorem gather_block (hl : l < 2 ^ n) {qs : List Qubit} (hqs : ∀ q ∈ qs, q < n) :
    gather qs (2 ^ n * h + l) = gather qs l :=
  gather_congr qs fun q hq => testBit_block hl (hqs q hq)

theorem replaced_lt (hl : l < 2 ^ n) {qs : List Qubit} (hqs : ∀ q ∈ qs, q < n) (m : ℕ) :
    replaced qs l m < 2 ^ n := by
  refine Nat.lt_pow_two_of_testBit _ fun i hi => ?_
  have hni : i ∉ qs := fun hq => absurd (hqs i hq) (Nat.not_lt.mpr hi)
  rw [testBit_replaced_of_notMem l m hni]
  exact testBit_of_lt_two_pow hl hi

theorem replaced_block (hl : l < 2 ^ n) {qs : List Qubit} (hqs : ∀ q ∈ qs, q < n) (m : ℕ) :
    replaced qs (2 ^ n * h + l) m = 2 ^ n * h + replaced qs l m := by
  apply Nat.eq_of_testBit_eq
  intro i
  rw [Nat.testBit_two_pow_mul_add h (replaced_lt hl hqs m)]
  split
  · rename_i hi
    rw [replaced, replaced, Nat.testBit_or, Nat.testBit_or, testBit_cleared, testBit_cleared,
      testBit_block hl hi]
  · rename_i hi
    have hni : i ∉ qs := fun hq => absurd (hqs i hq) hi
    rw [testBit_replaced_of_notMem _ m hni, Nat.testBit_two_pow_mul_add h hl, if_neg hi]

theorem xor_block (hl : l < 2 ^ n) {mask : ℕ} (hmask : mask < 2 ^ n) :
    (2 ^ n * h + l) ^^^ mask = 2 ^ n * h + (l ^^^ mask) := by
  apply Nat.eq_of_testBit_eq
  intro i
  rw [Nat.testBit_xor, Nat.testBit_two_pow_mul_add h hl,
    Nat.testBit_two_pow_mul_add h (Nat.xor_lt_two_pow hl hmask)]
  split
  · rw [Nat.testBit_xor]
  · rename_i hi
    rw [testBit_of_lt_two_pow hmask (Nat.le_of_not_lt hi), Bool.xor_false]

/-- The mask of the qubits whose operators are marked lies below the block size. -/
theorem marked_lt (marked : Pauli → Bool) {string : List (Qubit × Pauli)}
    (hs : ∀ a ∈ string, a.1 < n) :
    maskOf ((string.filter fun a => marked a.2).map Prod.fst) < 2 ^ n := by
  refine maskOf_lt fun q hq => ?_
  obtain ⟨a, ha, rfl⟩ := List.mem_map.mp hq
  exact hs a (List.mem_filter.mp ha).1

theorem flipMask_lt {string : List (Qubit × Pauli)} (hs : ∀ a ∈ string, a.1 < n) :
    flipMask string < 2 ^ n :=
  marked_lt Pauli.flips hs

/-- The factor of a string depends on the bits under the string only. -/
theorem stringFactor_congr {b c : ℕ} : ∀ string : List (Qubit × Pauli),
    (∀ a ∈ string, b.testBit a.1 = c.testBit a.1) → stringFactor string b = stringFactor string c
  | [], _ => rfl
  | (q, p) :: rest, hbc => by
    rw [stringFactor, stringFactor, hbc (q, p) List.mem_cons_self,
      stringFactor_congr rest fun a ha => hbc a (List.mem_cons_of_mem _ ha)]

theorem local_stringOperator {string : List (Qubit × Pauli)} (hs : ∀ a ∈ string, a.1 < n) :
    Local n (stringOperator string) := by
  intro ψ h l hl
  have hmask := flipMask_lt hs
  have hlt := Nat.xor_lt_two_pow hl hmask
  rw [stringOperator_apply, stringOperator_apply, xor_block hl hmask, block_of_lt hlt,
    stringFactor_congr string fun a ha => testBit_block hlt (hs a ha)]

theorem local_mixOperator {string : List (Qubit × Pauli)} (hs : ∀ a ∈ string, a.1 < n)
    (stay flip : ℂ) : Local n (mixOperator string stay flip) :=
  (Local.id.smul stay).add ((local_stringOperator hs).smul flip)

theorem local_blockOperator {ts : List Qubit} (hts : ∀ q ∈ ts, q < n) (dim : ℕ)
    (entry : ℕ → ℕ → ℂ) : Local n (blockOperator ts dim entry) := by
  intro ψ h l hl
  rw [blockOperator_apply, blockOperator_apply, gather_block hl hts]
  split
  · refine Finset.sum_congr rfl fun m _ => ?_
    rw [replaced_block hl hts, block_of_lt (replaced_lt hl hts m)]
  · rw [block_of_lt hl]

theorem local_controlled {cs : List Qubit} (hcs : ∀ q ∈ cs, q < n) {A : Operator}
    (hA : Local n A) : Local n (controlled cs A) := by
  intro ψ h l hl
  simp only [controlled_apply, allSet_block hl hcs]
  split
  · exact hA ψ h l hl
  · rw [block_of_lt hl]

end Below

theorem KernelCall.Fits.isLocal {n : ℕ} {call : KernelCall ℝ} (h : call.Fits n) :
    Local n call.operator := by
  have hin := h.operands.inside
  cases call with
  | matrix ts cs entries =>
    exact local_controlled (fun q hq => hin q (List.mem_append_right _ hq))
      (local_blockOperator (fun q hq => hin q (List.mem_append_left _ hq)) _ _)
  | pauli ts cs ps =>
    exact local_controlled (fun q hq => hin q (List.mem_append_right _ hq))
      (local_stringOperator fun a ha => hin a.1 (List.mem_append_left _ (List.of_mem_zip ha).1))
  | rotation ts cs ps angle =>
    exact local_controlled (fun q hq => hin q (List.mem_append_right _ hq))
      (local_mixOperator (fun a ha => hin a.1 (List.mem_append_left _ (List.of_mem_zip ha).1)) _ _)

end GateCircuit
