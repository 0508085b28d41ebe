/-
# The algebra of Pauli strings

Up to a factor, a Pauli string is two masks: the bits it flips and the bits under which it gives signs.
Products of strings exclusive-or the masks, and two strings commute up to a sign. On distinct qubits a
string sends a basis state on with a factor of length one, and its partner back with the conjugate
factor, so a string is its own inverse and its own adjoint.

Key definitions: `bitSign`, `maskOperator`, `IsPauli`.
Key theorems: `maskOperator_comp`, `maskOperator_comm`, `stringFactor_flipped`, `stringOperator_self`,
`stringOperator_eq_mask`, `IsPauli.comp`, `IsPauli.exists_string`.
-/
import Mathlib
import GateCircuit.Proofs.PauliKernel
import GateCircuit.Proofs.PauliMatrix

namespace GateCircuit

open scoped ComplexConjugate

/-! ### Signs -/

/-- The sign of a word: minus one if an odd number of its bits are set. -/
noncomputable def bitSign (b : ℕ) : ℂ := if oddBits b then -1 else 1

@[simp] theorem bitSign_zero : bitSign 0 = 1 := by simp [bitSign, oddBits_zero]

theorem bitSign_xor (a b : ℕ) : bitSign (a ^^^ b) = bitSign a * bitSign b := by
  simp only [bitSign, oddBits_xor]
  cases oddBits a <;> cases oddBits b <;> simp

theorem bitSign_mul_self (b : ℕ) : bitSign b * bitSign b = 1 := by
  rw [← bitSign_xor, Nat.xor_self, bitSign_zero]

theorem bitSign_xor_and (a b c : ℕ) :
    bitSign ((a ^^^ b) &&& c) = bitSign (a &&& c) * bitSign (b &&& c) := by
  rw [Nat.and_xor_distrib_right, bitSign_xor]

theorem bitSign_and_xor (a b c : ℕ) :
    bitSign (a &&& (b ^^^ c)) = bitSign (a &&& b) * bitSign (a &&& c) := by
  rw [Nat.and_xor_distrib_left, bitSign_xor]

/-! ### Operators of masks -/

/-- The operator that flips the bits of one mask, and gives a sign for each bit of another that is
set afterwards. -/
noncomputable def maskOperator (flips signs : ℕ) : Operator where
  toFun ψ b := bitSign (b &&& signs) * ψ (b ^^^ flips)
  map_add' φ ψ := by
    funext b
    rw [Pi.add_apply, Pi.add_apply, mul_add]
  map_smul' a ψ := by
    funext b
    rw [RingHom.id_apply, Pi.smul_apply, Pi.smul_apply, smul_eq_mul, smul_eq_mul, mul_left_comm]

theorem maskOperator_apply (flips signs : ℕ) (ψ : ℕ → ℂ) (b : ℕ) :
    maskOperator flips signs ψ b = bitSign (b &&& signs) * ψ (b ^^^ flips) := rfl

theorem maskOperator_zero : maskOperator 0 0 = LinearMap.id := by
  refine LinearMap.ext fun ψ => funext fun b => ?_
  rw [maskOperator_apply, Nat.and_zero, bitSign_zero, one_mul, Nat.xor_zero]
  rfl

/-- Products exclusive-or the masks. The sign is that of the bits which the second factor flips
before the first one gives a sign for them. -/
theorem maskOperator_comp (x z x' z' : ℕ) :
    maskOperator x z ∘ₗ maskOperator x' z' =
      bitSign (x &&& z') • maskOperator (x ^^^ x') (z ^^^ z') := by
  refine LinearMap.ext fun ψ => funext fun b => ?_
  rw [LinearMap.comp_apply, LinearMap.smul_apply, Pi.smul_apply, smul_eq_mul, maskOperator_apply,
    maskOperator_apply, maskOperator_apply, bitSign_xor_and, bitSign_and_xor, Nat.xor_assoc]
  ring

/-- Two products of flips and signs commute up to a sign. -/
theorem maskOperator_comm (x z x' z' : ℕ) :
    maskOperator x z ∘ₗ maskOperator x' z' =
      (bitSign (x &&& z') * bitSign (x' &&& z)) • (maskOperator x' z' ∘ₗ maskOperator x z) := by
  rw [maskOperator_comp, maskOperator_comp, smul_smul, mul_assoc, bitSign_mul_self, mul_one,
    Nat.xor_comm x, Nat.xor_comm z]

/-! ### Factors of a string -/

theorem factor_mul_conj (p : Pauli) (bit : Bool) : p.factor bit * conj (p.factor bit) = 1 := by
  cases p <;> cases bit <;> simp [Pauli.factor]

theorem factor_flipped (p : Pauli) (bit : Bool) :
    p.factor (bit ^^ p.flips) = conj (p.factor bit) := by
  cases p <;> cases bit <;> simp [Pauli.factor, Pauli.flips]

theorem stringFactor_mul_conj (b : ℕ) : ∀ string : List (Qubit × Pauli),
    stringFactor string b * conj (stringFactor string b) = 1
  | [] => by simp [stringFactor]
  | (q, p) :: rest => by
    rw [stringFactor, map_mul, mul_mul_mul_comm, factor_mul_conj, stringFactor_mul_conj b rest,
      one_mul]

theorem stringFactor_of_meets {b c : ℕ} : ∀ string : List (Qubit × Pauli), Meets string b c →
    stringFactor string c = conj (stringFactor string b)
  | [], _ => by simp [stringFactor]
  | (q, p) :: rest, h => by
    obtain ⟨hq, hrest⟩ := List.forall_mem_cons.mp h
    rw [stringFactor, stringFactor, map_mul, stringFactor_of_meets rest hrest, hq, factor_flipped]

section Strings

variable {string : List (Qubit × Pauli)}

theorem meets_flipped (hnd : (string.map Prod.fst).Nodup) (b : ℕ) :
    Meets string b (b ^^^ flipMask string) := fun a ha => by
  rw [Nat.testBit_xor, testBit_flipMask_of_mem hnd a ha]

/-- A string sends the partner of a basis state back with the conjugate factor. -/
theorem stringFactor_flipped (hnd : (string.map Prod.fst).Nodup) (b : ℕ) :
    stringFactor string (b ^^^ flipMask string) = conj (stringFactor string b) :=
  stringFactor_of_meets string (meets_flipped hnd b)

/-- **A string undoes itself.** -/
theorem stringOperator_self (hnd : (string.map Prod.fst).Nodup) :
    stringOperator string ∘ₗ stringOperator string = LinearMap.id := by
  refine LinearMap.ext fun ψ => funext fun b => ?_
  rw [LinearMap.comp_apply, stringOperator_apply, stringOperator_apply, Nat.xor_xor_cancel_right,
    stringFactor_flipped hnd, ← mul_assoc, mul_comm (conj _), stringFactor_mul_conj, one_mul]
  rfl

/-- A string is the operator of its masks, up to a factor. -/
theorem stringOperator_eq_mask (hnd : (string.map Prod.fst).Nodup) :
    stringOperator string =
      (Complex.I ^ countY string * bitSign (flipMask string &&& signMask string)) •
        maskOperator (flipMask string) (signMask string) := by
  refine LinearMap.ext fun ψ => funext fun b => ?_
  have hfactor : stringFactor string (b ^^^ flipMask string) =
      bitSign ((b ^^^ flipMask string) &&& signMask string) * Complex.I ^ countY string :=
    stringFactor_eq _ string hnd
  rw [stringOperator_apply, LinearMap.smul_apply, Pi.smul_apply, smul_eq_mul, maskOperator_apply,
    hfactor, bitSign_xor_and]
  ring

end Strings

/-! ### Multiples of strings -/

/-- A multiple of a Pauli string on the first `n` qubits. -/
def IsPauli (n : ℕ) (P : Operator) : Prop :=
  ∃ (a : ℂ) (flips signs : ℕ), flips < 2 ^ n ∧ signs < 2 ^ n ∧ P = a • maskOperator flips signs

section Multiples

variable {n : ℕ} {P Q : Operator}

theorem isPauli_maskOperator {flips signs : ℕ} (hflips : flips < 2 ^ n) (hsigns : signs < 2 ^ n) :
    IsPauli n (maskOperator flips signs) :=
  ⟨1, flips, signs, hflips, hsigns, (one_smul ℂ _).symm⟩

theorem IsPauli.smul (a : ℂ) (hP : IsPauli n P) : IsPauli n (a • P) := by
  obtain ⟨a', x, z, hx, hz, rfl⟩ := hP
  exact ⟨a * a', x, z, hx, hz, smul_smul a a' _⟩

theorem IsPauli.comp (hP : IsPauli n P) (hQ : IsPauli n Q) : IsPauli n (P ∘ₗ Q) := by
  obtain ⟨a, x, z, hx, hz, rfl⟩ := hP
  obtain ⟨a', x', z', hx', hz', rfl⟩ := hQ
  rw [LinearMap.smul_comp, LinearMap.comp_smul, maskOperator_comp]
  exact (((isPauli_maskOperator (Nat.xor_lt_two_pow hx hx') (Nat.xor_lt_two_pow hz hz')).smul _).smul
    a').smul a

theorem signMask_lt {string : List (Qubit × Pauli)} (hin : ∀ a ∈ string, a.1 < n) :
    signMask string < 2 ^ n :=
  marked_lt Pauli.signs hin

theorem isPauli_stringOperator {string : List (Qubit × Pauli)}
    (hnd : (string.map Prod.fst).Nodup) (hin : ∀ a ∈ string, a.1 < n) :
    IsPauli n (stringOperator string) := by
  rw [stringOperator_eq_mask hnd]
  exact (isPauli_maskOperator (flipMask_lt hin) (signMask_lt hin)).smul _

/-- The Pauli operator that flips its bit or not, and signs it or not. -/
def Pauli.ofBits : Bool → Bool → Pauli
  | false, false => .I
  | true, false => .X
  | true, true => .Y
  | false, true => .Z

@[simp] theorem flips_ofBits (flip sign : Bool) : (Pauli.ofBits flip sign).flips = flip := by
  cases flip <;> cases sign <;> rfl

@[simp] theorem signs_ofBits (flip sign : Bool) : (Pauli.ofBits flip sign).signs = sign := by
  cases flip <;> cases sign <;> rfl

/-- The operators on the first `n` qubits that two masks spell. -/
def letters (n flips signs : ℕ) : List Pauli :=
  (List.range n).map fun q => Pauli.ofBits (flips.testBit q) (signs.testBit q)

theorem zip_letters (n flips signs : ℕ) :
    (List.range n).zip (letters n flips signs) =
      (List.range n).map fun q => (q, Pauli.ofBits (flips.testBit q) (signs.testBit q)) := by
  rw [letters, List.zip_eq_zipWith, List.zipWith_map_right, List.zipWith_self]

/-- The bits of a word below `2 ^ n` are its bits on the first `n` qubits. -/
theorem testBit_iff_mem_range {m : ℕ} (h : m < 2 ^ n) (i : ℕ) :
    (i < n ∧ m.testBit i = true) ↔ m.testBit i = true := by
  refine and_iff_right_of_imp fun hbit => ?_
  by_contra hi
  rw [testBit_of_lt_two_pow h (Nat.le_of_not_lt hi)] at hbit
  cases hbit

theorem flipMask_letters {flips : ℕ} (h : flips < 2 ^ n) (signs : ℕ) :
    flipMask ((List.range n).zip (letters n flips signs)) = flips := by
  apply Nat.eq_of_testBit_eq
  intro i
  rw [flipMask, testBit_maskOf, zip_letters, Bool.eq_iff_iff, decide_eq_true_eq,
    ← testBit_iff_mem_range h]
  simp

theorem signMask_letters {signs : ℕ} (h : signs < 2 ^ n) (flips : ℕ) :
    signMask ((List.range n).zip (letters n flips signs)) = signs := by
  apply Nat.eq_of_testBit_eq
  intro i
  rw [signMask, testBit_maskOf, zip_letters, Bool.eq_iff_iff, decide_eq_true_eq,
    ← testBit_iff_mem_range h]
  simp

theorem nodup_fst_zip_range {ps : List Pauli} (hps : ps.length = n) :
    (((List.range n).zip ps).map Prod.fst).Nodup := by
  rw [List.map_fst_zip (by simp [hps])]
  exact List.nodup_range

/-- A multiple of a string can be written with one operator for every qubit. -/
theorem IsPauli.exists_string (hP : IsPauli n P) : ∃ (a : ℂ) (ps : List Pauli), ps.length = n ∧
    P = a • stringOperator ((List.range n).zip ps) := by
  obtain ⟨a, x, z, hx, hz, rfl⟩ := hP
  have hlen : (letters n x z).length = n := by simp [letters]
  have hstring := stringOperator_eq_mask (nodup_fst_zip_range hlen)
  rw [flipMask_letters hx, signMask_letters hz] at hstring
  set c := Complex.I ^ countY ((List.range n).zip (letters n x z)) * bitSign (x &&& z) with hc
  have hne : c ≠ 0 := by
    refine mul_ne_zero (pow_ne_zero _ Complex.I_ne_zero) fun h => ?_
    have := bitSign_mul_self (x &&& z)
    rw [h, zero_mul] at this
    exact zero_ne_one this
  refine ⟨a * c⁻¹, letters n x z, hlen, ?_⟩
  rw [hstring, smul_smul, mul_assoc, inv_mul_cancel₀ hne, mul_one]

end Multiples
end GateCircuit
