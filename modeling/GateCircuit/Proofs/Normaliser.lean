/-
# Operators that normalise the Pauli strings

An operator carries a string if applying it after the string is applying another string after it. What it
carries is closed under products, and every string is a product of flips and signs of single qubits, so
an operator that carries those normalises all strings. A matrix on one qubit commutes with the flips and
signs of the others; a controlled string commutes with a string up to a sign of the control; the exchange
of two qubits renames them.

Key definitions: `Carries`, `Normalises`, `Turns`, `exchanged`.
Key theorems: `mask_induction`, `normalises_of_generators`, `Normalises.comp`, `IsPauli.normalises`,
`normalises_matrix`, `normalises_controlled`, `normalises_exchange`.
-/
import Mathlib
import GateCircuit.Proofs.MatrixOperator
import GateCircuit.Proofs.PauliAlgebra

namespace GateCircuit

/-! ### Carrying a string -/

/-- The operator after the string is another string after the operator. -/
def Carries (n : ℕ) (A P : Operator) : Prop := ∃ P', IsPauli n P' ∧ A ∘ₗ P = P' ∘ₗ A

/-- The operator carries every string on the first `n` qubits. -/
def Normalises (n : ℕ) (A : Operator) : Prop := ∀ P, IsPauli n P → Carries n A P

section Carry

variable {n : ℕ} {A B P Q : Operator}

theorem isPauli_id : IsPauli n LinearMap.id := by
  rw [← maskOperator_zero]
  exact isPauli_maskOperator (by positivity) (by positivity)

theorem Carries.of_comm (hP : IsPauli n P) (h : A ∘ₗ P = P ∘ₗ A) : Carries n A P := ⟨P, hP, h⟩

theorem Carries.id : Carries n A LinearMap.id := .of_comm isPauli_id rfl

theorem Carries.comp (hP : Carries n A P) (hQ : Carries n A Q) : Carries n A (P ∘ₗ Q) := by
  obtain ⟨P', hP', hAP⟩ := hP
  obtain ⟨Q', hQ', hAQ⟩ := hQ
  refine ⟨P' ∘ₗ Q', hP'.comp hQ', ?_⟩
  calc A ∘ₗ (P ∘ₗ Q) = (A ∘ₗ P) ∘ₗ Q := rfl
    _ = P' ∘ₗ (A ∘ₗ Q) := by rw [hAP, LinearMap.comp_assoc]
    _ = (P' ∘ₗ Q') ∘ₗ A := by rw [hAQ, LinearMap.comp_assoc]

theorem Carries.smul (a : ℂ) (hP : Carries n A P) : Carries n A (a • P) := by
  obtain ⟨P', hP', hAP⟩ := hP
  exact ⟨a • P', hP'.smul a, by rw [LinearMap.comp_smul, hAP, LinearMap.smul_comp]⟩

theorem Normalises.id : Normalises n LinearMap.id := fun P hP => ⟨P, hP, rfl⟩

theorem Normalises.comp (hA : Normalises n A) (hB : Normalises n B) : Normalises n (A ∘ₗ B) := by
  intro P hP
  obtain ⟨P', hP', hBP⟩ := hB P hP
  obtain ⟨P'', hP'', hAP⟩ := hA P' hP'
  refine ⟨P'', hP'', ?_⟩
  calc (A ∘ₗ B) ∘ₗ P = A ∘ₗ (B ∘ₗ P) := rfl
    _ = (A ∘ₗ P') ∘ₗ B := by rw [hBP, LinearMap.comp_assoc]
    _ = P'' ∘ₗ (A ∘ₗ B) := by rw [hAP, LinearMap.comp_assoc]

/-- Strings commute up to a sign, so they normalise each other. -/
theorem IsPauli.normalises (hA : IsPauli n A) : Normalises n A := by
  intro P hP
  obtain ⟨a, x, z, -, -, rfl⟩ := hA
  obtain ⟨a', x', z', hx', hz', rfl⟩ := hP
  refine Carries.smul a' ⟨_, (isPauli_maskOperator hx' hz').smul (bitSign (x &&& z') *
    bitSign (x' &&& z)), ?_⟩
  rw [LinearMap.smul_comp, maskOperator_comm, LinearMap.comp_smul, LinearMap.smul_comp, smul_comm]

end Carry

/-! ### Generators -/

/-- A property of words that masks of single bits have, and that exclusive or keeps, holds of all. -/
theorem mask_induction {motive : ℕ → Prop} (zero : motive 0)
    (xor : ∀ a b, motive a → motive b → motive (a ^^^ b)) : ∀ {n : ℕ},
    (∀ q < n, motive (Qubit.mask q)) → ∀ m < 2 ^ n, motive m
  | 0, _, m, hm => by
    obtain rfl : m = 0 := by simpa using hm
    exact zero
  | n + 1, mask, m, hm => by
    have ih := mask_induction zero xor fun q hq => mask q (hq.trans (Nat.lt_succ_self n))
    -- a word whose bit `n` is unset lies below `2 ^ n`
    have hlow : ∀ w < 2 ^ (n + 1), w.testBit n = false → w < 2 ^ n := by
      intro w hw hbit
      refine Nat.lt_pow_two_of_testBit w fun i hi => ?_
      rcases hi.eq_or_lt with rfl | hi
      · exact hbit
      · exact testBit_of_lt_two_pow hw hi
    cases hbit : m.testBit n with
    | false => exact ih m (hlow m hm hbit)
    | true =>
      have hrest : m ^^^ Qubit.mask n < 2 ^ n := by
        refine hlow _ (Nat.xor_lt_two_pow hm (mask_lt (Nat.lt_succ_self n))) ?_
        rw [Nat.testBit_xor, hbit, testBit_mask]
        simp
      rw [← Nat.xor_xor_cancel_right m (Qubit.mask n)]
      exact xor _ _ (ih _ hrest) (mask n (Nat.lt_succ_self n))

section Generators

variable {n : ℕ} {A : Operator}

theorem bitSign_mask (b : ℕ) (q : Qubit) :
    bitSign (b &&& q.mask) = if b.testBit q then -1 else 1 := by
  rw [bitSign, oddBits_and_mask]

/-- **Flips and signs of single qubits generate all strings.** -/
theorem normalises_of_generators (hflip : ∀ q < n, Carries n A (maskOperator (Qubit.mask q) 0))
    (hsign : ∀ q < n, Carries n A (maskOperator 0 (Qubit.mask q))) : Normalises n A := by
  have hzero : Carries n A (maskOperator 0 0) := maskOperator_zero ▸ Carries.id
  have hflips : ∀ x < 2 ^ n, Carries n A (maskOperator x 0) := by
    refine mask_induction hzero (fun a b ha hb => ?_) hflip
    have hprod := maskOperator_comp a 0 b 0
    rw [Nat.and_zero, bitSign_zero, one_smul, Nat.xor_zero] at hprod
    exact hprod ▸ ha.comp hb
  have hsigns : ∀ z < 2 ^ n, Carries n A (maskOperator 0 z) := by
    refine mask_induction hzero (fun a b ha hb => ?_) hsign
    have hprod := maskOperator_comp 0 a 0 b
    rw [Nat.zero_and, bitSign_zero, one_smul, Nat.xor_zero] at hprod
    exact hprod ▸ ha.comp hb
  rintro P ⟨a, x, z, hx, hz, rfl⟩
  have hprod := maskOperator_comp 0 z x 0
  rw [Nat.zero_and, bitSign_zero, one_smul, Nat.zero_xor, Nat.xor_zero] at hprod
  exact Carries.smul a (hprod ▸ (hsigns z hz).comp (hflips x hx))

theorem flipMask_singleton (q : Qubit) (p : Pauli) :
    flipMask [(q, p)] = if p.flips then q.mask else 0 := by
  rw [flipMask_cons]
  cases p.flips <;> simp [flipMask, maskOf]

theorem signMask_singleton (q : Qubit) (p : Pauli) :
    signMask [(q, p)] = if p.signs then q.mask else 0 := by
  rw [signMask_cons]
  cases p.signs <;> simp [signMask, maskOf]

theorem nodup_fst_singleton (q : Qubit) (p : Pauli) : ([(q, p)].map Prod.fst).Nodup :=
  List.nodup_singleton q

theorem maskOperator_flip (q : Qubit) : maskOperator q.mask 0 = stringOperator [(q, .X)] := by
  rw [stringOperator_eq_mask (nodup_fst_singleton q .X), flipMask_singleton, signMask_singleton]
  simp [Pauli.flips, Pauli.signs, countY]

theorem maskOperator_sign (q : Qubit) : maskOperator 0 q.mask = stringOperator [(q, .Z)] := by
  rw [stringOperator_eq_mask (nodup_fst_singleton q .Z), flipMask_singleton, signMask_singleton]
  simp [Pauli.flips, Pauli.signs, countY]

end Generators

/-! ### Matrices on one qubit -/

section Matrices

variable {n : ℕ} {ts : List Qubit} {dim : ℕ} {M : Matrix (Fin dim) (Fin dim) ℂ}

/-- A matrix commutes with flips and signs beside its targets. -/
theorem matrixOperator_comm_mask (hdim : dim = 2 ^ ts.length) {x z : ℕ}
    (hx : ∀ q ∈ ts, x.testBit q = false) (hz : ∀ q ∈ ts, z.testBit q = false) :
    matrixOperator ts M ∘ₗ maskOperator x z = maskOperator x z ∘ₗ matrixOperator ts M := by
  refine LinearMap.ext fun ψ => funext fun b => ?_
  have hrow : rowOf hdim (b ^^^ x) = rowOf hdim b := by
    refine Fin.ext (gather_congr ts fun q hq => ?_)
    rw [Nat.testBit_xor, hx q hq, Bool.xor_false]
  have hcolumn : ∀ m, replaced ts (b ^^^ x) m = replaced ts b m ^^^ x := by
    intro m
    apply Nat.eq_of_testBit_eq
    intro i
    by_cases hi : i ∈ ts
    · rw [replaced, replaced, Nat.testBit_xor, Nat.testBit_or, Nat.testBit_or, testBit_cleared,
        testBit_cleared, hx i hi]
      simp [hi]
    · rw [testBit_replaced_of_notMem _ m hi, Nat.testBit_xor, Nat.testBit_xor,
        testBit_replaced_of_notMem _ m hi]
  have hsign : ∀ m, replaced ts b m &&& z = b &&& z := by
    intro m
    apply Nat.eq_of_testBit_eq
    intro i
    rw [Nat.testBit_and, Nat.testBit_and]
    by_cases hi : i ∈ ts
    · rw [hz i hi, Bool.and_false, Bool.and_false]
    · rw [testBit_replaced_of_notMem _ m hi]
  rw [LinearMap.comp_apply, LinearMap.comp_apply, matrixOperator_apply hdim, maskOperator_apply,
    matrixOperator_apply hdim, Finset.mul_sum]
  refine Finset.sum_congr rfl fun m _ => ?_
  rw [maskOperator_apply, hrow, hcolumn, hsign]
  ring

/-- A matrix of two rows turns a Pauli operator into a multiple of one. -/
def Turns (M : Matrix (Fin 2) (Fin 2) ℂ) (p : Pauli) : Prop :=
  ∃ (a : ℂ) (p' : Pauli), M * p.toMatrix = a • (p'.toMatrix * M)

/-- A matrix on one qubit that turns `X` and `Z` normalises all strings. -/
theorem normalises_matrix {q : Qubit} (hq : q < n) {M : Matrix (Fin 2) (Fin 2) ℂ}
    (hX : Turns M .X) (hZ : Turns M .Z) : Normalises n (matrixOperator [q] M) := by
  have hdim : 2 = 2 ^ [q].length := rfl
  have hself : ∀ p, Turns M p → Carries n (matrixOperator [q] M) (stringOperator [(q, p)]) := by
    rintro p ⟨a, p', h⟩
    have hstring : IsPauli n (stringOperator [(q, p')]) :=
      isPauli_stringOperator (nodup_fst_singleton q p') (by simpa using hq)
    refine ⟨a • stringOperator [(q, p')], hstring.smul a, ?_⟩
    rw [stringOperator_singleton, stringOperator_singleton,
      ← matrixOperator_mul hdim (List.nodup_singleton q), h, matrixOperator_smul hdim,
      matrixOperator_mul hdim (List.nodup_singleton q), LinearMap.smul_comp]
  have hother : ∀ r, r ≠ q → ∀ q' ∈ [q], (Qubit.mask r).testBit q' = false := by
    intro r hr q' hq'
    rw [List.mem_singleton.mp hq', testBit_mask]
    simpa using hr
  have hnone : ∀ q' ∈ [q], (0 : ℕ).testBit q' = false := fun q' _ => Nat.zero_testBit q'
  refine normalises_of_generators (fun r hr => ?_) fun r hr => ?_
  · by_cases hrq : r = q
    · rw [hrq, maskOperator_flip]
      exact hself .X hX
    · exact .of_comm (isPauli_maskOperator (mask_lt hr) (by positivity))
        (matrixOperator_comm_mask hdim (hother r hrq) hnone)
  · by_cases hrq : r = q
    · rw [hrq, maskOperator_sign]
      exact hself .Z hZ
    · exact .of_comm (isPauli_maskOperator (by positivity) (mask_lt hr))
        (matrixOperator_comm_mask hdim hnone (hother r hrq))

end Matrices

/-! ### Controlled strings -/

section Controlled

variable {n : ℕ} {c : Qubit} {string : List (Qubit × Pauli)} {x z : ℕ}

theorem controlled_singleton (c : Qubit) (A : Operator) (ψ : ℕ → ℂ) (b : ℕ) :
    controlled [c] A ψ b = if b.testBit c then A ψ b else ψ b := by
  simp [controlled_apply, AllSet]

/-- A string commutes or anticommutes with every product of flips and signs. -/
theorem stringOperator_comm_mask (hnd : (string.map Prod.fst).Nodup) (x z : ℕ) :
    stringOperator string ∘ₗ maskOperator x z = maskOperator x z ∘ₗ stringOperator string ∨
      stringOperator string ∘ₗ maskOperator x z =
        -(maskOperator x z ∘ₗ stringOperator string) := by
  have hcomm : stringOperator string ∘ₗ maskOperator x z =
      bitSign ((flipMask string &&& z) ^^^ (x &&& signMask string)) •
        (maskOperator x z ∘ₗ stringOperator string) := by
    rw [stringOperator_eq_mask hnd, LinearMap.smul_comp, maskOperator_comm, LinearMap.comp_smul,
      smul_comm, bitSign_xor]
  rw [hcomm, bitSign]
  split
  · exact .inr (neg_one_smul ℂ (maskOperator x z ∘ₗ stringOperator string))
  · exact .inl (by rw [one_smul])

theorem maskOperator_controlled (hc : x.testBit c = false) (A : Operator) (ψ : ℕ → ℂ) (b : ℕ) :
    maskOperator x z (controlled [c] A ψ) b =
      if b.testBit c then maskOperator x z (A ψ) b else maskOperator x z ψ b := by
  rw [maskOperator_apply, controlled_singleton, Nat.testBit_xor, hc, Bool.xor_false]
  split <;> rfl

/-- Strings that commute do so under a control that the second one does not flip. -/
theorem controlled_comm (hc : x.testBit c = false)
    (h : stringOperator string ∘ₗ maskOperator x z = maskOperator x z ∘ₗ stringOperator string) :
    controlled [c] (stringOperator string) ∘ₗ maskOperator x z =
      maskOperator x z ∘ₗ controlled [c] (stringOperator string) := by
  refine LinearMap.ext fun ψ => funext fun b => ?_
  rw [LinearMap.comp_apply, LinearMap.comp_apply, controlled_singleton, maskOperator_controlled hc]
  split
  · exact congrFun (LinearMap.congr_fun h ψ) b
  · rfl

/-- If they anticommute then the control gets a sign. -/
theorem controlled_anticomm (hc : x.testBit c = false)
    (h : stringOperator string ∘ₗ maskOperator x z =
      -(maskOperator x z ∘ₗ stringOperator string)) :
    controlled [c] (stringOperator string) ∘ₗ maskOperator x z =
      (maskOperator 0 c.mask ∘ₗ maskOperator x z) ∘ₗ controlled [c] (stringOperator string) := by
  refine LinearMap.ext fun ψ => funext fun b => ?_
  have hb : stringOperator string (maskOperator x z ψ) b =
      -maskOperator x z (stringOperator string ψ) b := congrFun (LinearMap.congr_fun h ψ) b
  rw [LinearMap.comp_apply, LinearMap.comp_apply, LinearMap.comp_apply, controlled_singleton,
    maskOperator_apply 0, Nat.xor_zero, maskOperator_controlled hc, bitSign_mask]
  split
  · rw [hb, neg_one_mul]
  · rw [one_mul]

/-- Flipping the control first is applying the string and flipping the control afterwards. -/
theorem controlled_flip (hnd : (string.map Prod.fst).Nodup) (hc : ∀ a ∈ string, a.1 ≠ c) :
    controlled [c] (stringOperator string) ∘ₗ maskOperator c.mask 0 =
      (stringOperator string ∘ₗ maskOperator c.mask 0) ∘ₗ
        controlled [c] (stringOperator string) := by
  refine LinearMap.ext fun ψ => funext fun b => ?_
  set f := flipMask string with hf
  have hbit : (b ^^^ f ^^^ c.mask).testBit c = !b.testBit c := by
    rw [Nat.testBit_xor, Nat.testBit_xor, hf, testBit_flipMask_of_notMem hc, testBit_mask]
    simp
  have hflip : ∀ φ : ℕ → ℂ, ∀ i, maskOperator c.mask 0 φ i = φ (i ^^^ c.mask) := by
    intro φ i
    rw [maskOperator_apply, Nat.and_zero, bitSign_zero, one_mul]
  rw [LinearMap.comp_apply, LinearMap.comp_apply, LinearMap.comp_apply, controlled_singleton,
    stringOperator_apply, stringOperator_apply, hflip, hflip, hflip, controlled_singleton, ← hf, hbit]
  cases b.testBit c with
  | true => simp
  | false =>
    -- the string is applied on both sides of the flip, and undoes itself
    have hback : b ^^^ f ^^^ c.mask ^^^ f = b ^^^ c.mask := by
      rw [Nat.xor_right_comm b f c.mask, Nat.xor_xor_cancel_right]
    have hfactor : stringFactor string (b ^^^ c.mask) = stringFactor string b := by
      refine stringFactor_congr string fun a ha => ?_
      rw [Nat.testBit_xor, testBit_mask, decide_eq_false (Ne.symm (hc a ha)), Bool.xor_false]
    have hone := stringFactor_mul_conj b string
    simp only [Bool.false_eq_true, if_false, Bool.not_false, if_true, stringOperator_apply, ← hf,
      hback, hfactor]
    rw [hf, stringFactor_flipped hnd, ← mul_assoc, mul_comm (starRingEnd ℂ _), hone, one_mul]

/-- **A controlled string normalises all strings.** -/
theorem normalises_controlled (hcn : c < n) (hnd : (string.map Prod.fst).Nodup)
    (hin : ∀ a ∈ string, a.1 < n) (hc : ∀ a ∈ string, a.1 ≠ c) :
    Normalises n (controlled [c] (stringOperator string)) := by
  have hcontrol : IsPauli n (maskOperator 0 c.mask) :=
    isPauli_maskOperator (by positivity) (mask_lt hcn)
  have hcarry : ∀ x < 2 ^ n, ∀ z < 2 ^ n, x.testBit c = false →
      Carries n (controlled [c] (stringOperator string)) (maskOperator x z) := by
    intro x hx z hz hxc
    have hmask : IsPauli n (maskOperator x z) := isPauli_maskOperator hx hz
    rcases stringOperator_comm_mask hnd x z with hcomm | hanti
    · exact .of_comm hmask (controlled_comm hxc hcomm)
    · exact ⟨_, hcontrol.comp hmask, controlled_anticomm hxc hanti⟩
  refine normalises_of_generators (fun q hq => ?_) fun q hq => ?_
  · by_cases hqc : q = c
    · subst hqc
      exact ⟨_, (isPauli_stringOperator hnd hin).comp (isPauli_maskOperator (mask_lt hq)
        (by positivity)), controlled_flip hnd hc⟩
    · exact hcarry _ (mask_lt hq) 0 (by positivity) (by simpa using hqc)
  · exact hcarry 0 (by positivity) _ (mask_lt hq) (Nat.zero_testBit c)

end Controlled

/-! ### The exchange of two qubits -/

section Exchange

variable {n : ℕ} {a b : Qubit}

/-- A basis index with the bits of two qubits exchanged. -/
def exchanged (a b : Qubit) (i : ℕ) : ℕ := replaced [a, b] i (gather [b, a] i)

theorem testBit_exchanged (hab : a ≠ b) (i q : ℕ) :
    (exchanged a b i).testBit q = i.testBit (Equiv.swap a b q) := by
  have hnd : [a, b].Nodup := by simpa using hab
  by_cases hqa : q = a
  · rw [hqa, Equiv.swap_apply_left]
    have hbit := testBit_replaced i (gather [b, a] i) hnd (j := 0) (by simp)
    rw [testBit_gather i [b, a] 0 (by simp)] at hbit
    exact hbit
  by_cases hqb : q = b
  · rw [hqb, Equiv.swap_apply_right]
    have hbit := testBit_replaced i (gather [b, a] i) hnd (j := 1) (by simp)
    rw [testBit_gather i [b, a] 1 (by simp)] at hbit
    exact hbit
  · have hq : q ∉ [a, b] := by simp [hqa, hqb]
    rw [Equiv.swap_apply_of_ne_of_ne hqa hqb, exchanged, testBit_replaced_of_notMem i _ hq]

/-- Flipping a bit of the exchanged index is flipping the bit that it comes from. -/
theorem exchanged_xor_mask (hab : a ≠ b) (i : ℕ) (q : Qubit) :
    exchanged a b (i ^^^ Qubit.mask (Equiv.swap a b q)) = exchanged a b i ^^^ q.mask := by
  apply Nat.eq_of_testBit_eq
  intro j
  rw [testBit_exchanged hab, Nat.testBit_xor, Nat.testBit_xor, testBit_exchanged hab, testBit_mask,
    testBit_mask]
  simp

/-- **An operator that reads every amplitude at the exchanged index** normalises all strings. -/
theorem normalises_exchange (hab : a ≠ b) (ha : a < n) (hb : b < n) {A : Operator}
    (hA : ∀ ψ i, A ψ i = ψ (exchanged a b i)) : Normalises n A := by
  have hlt : ∀ q < n, Equiv.swap a b q < n := by
    intro q hq
    rw [Equiv.swap_apply_def]
    split
    · exact hb
    · split
      · exact ha
      · exact hq
  -- what is done to a qubit is then done to its image
  refine normalises_of_generators (fun q hq => ?_) fun q hq => ?_
  · refine ⟨_, isPauli_maskOperator (mask_lt (hlt q hq)) (by positivity), ?_⟩
    refine LinearMap.ext fun ψ => funext fun i => ?_
    rw [LinearMap.comp_apply, LinearMap.comp_apply, hA, maskOperator_apply, maskOperator_apply, hA,
      exchanged_xor_mask hab, Nat.and_zero, Nat.and_zero]
  · refine ⟨_, isPauli_maskOperator (by positivity) (mask_lt (hlt q hq)), ?_⟩
    refine LinearMap.ext fun ψ => funext fun i => ?_
    rw [LinearMap.comp_apply, LinearMap.comp_apply, hA, maskOperator_apply, maskOperator_apply, hA,
      Nat.xor_zero, Nat.xor_zero, bitSign_mask, bitSign_mask, testBit_exchanged hab]

end Exchange

end GateCircuit
