/-
# Basis indices bit by bit

What the masks of the kernels say about single bits. A list of qubits cuts a basis index into the
bits on the list, which `gather` reads off as a number of their own, and the bits beside it, which
`cleared` keeps; `replaced` writes new bits on the list. Parity is taken bit by bit too.

Key definitions: `maskOf`, `AllSet`, `gather`, `cleared`, `replaced`.
Key theorems: `gather_replaced`, `replaced_gather`, `oddBits_xor`, `lowestBit_eq`.
-/
import Mathlib
import GateCircuit.StateVector.Dense
import GateCircuit.StateVector.PauliString

namespace GateCircuit

theorem dimension_eq (k : ℕ) : dimension k = 2 ^ k := Nat.one_shiftLeft k

/-! ### Masks -/

/-- The basis index in which exactly the listed qubits are set. -/
def maskOf (qs : List Qubit) : ℕ := qs.foldr (fun q mask => q.mask ||| mask) 0

/-- All listed qubits are set in the basis index `b`. -/
def AllSet (qs : List Qubit) (b : ℕ) : Prop := ∀ q ∈ qs, b.testBit q = true

instance (qs : List Qubit) (b : ℕ) : Decidable (AllSet qs b) := by unfold AllSet; infer_instance

@[simp] theorem testBit_mask (q : Qubit) (i : ℕ) : q.mask.testBit i = decide (q = i) := by
  rw [Qubit.mask, Nat.one_shiftLeft, Nat.testBit_two_pow]

@[simp] theorem testBit_maskOf (qs : List Qubit) (i : ℕ) :
    (maskOf qs).testBit i = decide (i ∈ qs) := by
  induction qs with
  | nil => simp [maskOf]
  | cons q qs ih =>
    have h : maskOf (q :: qs) = q.mask ||| maskOf qs := rfl
    rw [h, Nat.testBit_or, ih, testBit_mask]
    simp [eq_comm]

theorem maskOf_cons (q : Qubit) (qs : List Qubit) : maskOf (q :: qs) = q.mask ||| maskOf qs := rfl

/-- A word below `2 ^ n` has no bits from `n` upwards. -/
theorem testBit_of_lt_two_pow {m n i : ℕ} (hm : m < 2 ^ n) (hi : n ≤ i) : m.testBit i = false :=
  Nat.testBit_lt_two_pow (hm.trans_le (Nat.pow_le_pow_right (by omega) hi))

theorem mask_lt {n : ℕ} {q : Qubit} (hq : q < n) : q.mask < 2 ^ n := by
  rw [Qubit.mask, Nat.one_shiftLeft]
  exact Nat.pow_lt_pow_right (by omega) hq

theorem maskOf_lt {qs : List Qubit} {n : ℕ} (h : ∀ q ∈ qs, q < n) : maskOf qs < 2 ^ n := by
  refine Nat.lt_pow_two_of_testBit _ fun i hi => ?_
  rw [testBit_maskOf, decide_eq_false_iff_not]
  intro hm
  exact absurd (h i hm) (Nat.not_lt.mpr hi)

theorem and_maskOf_eq_iff (qs : List Qubit) (b : ℕ) : b &&& maskOf qs = maskOf qs ↔ AllSet qs b := by
  constructor
  · intro h q hq
    have := congrArg (Nat.testBit · q) h
    simpa [hq] using this
  · intro h
    apply Nat.eq_of_testBit_eq
    intro i
    rw [Nat.testBit_and, testBit_maskOf]
    by_cases hi : i ∈ qs
    · simp [h i hi]
    · simp [hi]

theorem and_maskOf_eq_zero (qs : List Qubit) (b : ℕ) :
    b &&& maskOf qs = 0 ↔ ∀ q ∈ qs, b.testBit q = false := by
  constructor
  · intro h q hq
    have := congrArg (Nat.testBit · q) h
    simpa [hq] using this
  · intro h
    apply Nat.eq_of_testBit_eq
    intro i
    rw [Nat.testBit_and, testBit_maskOf, Nat.zero_testBit]
    by_cases hi : i ∈ qs
    · simp [h i hi]
    · simp [hi]

/-! ### Spreading and gathering -/

/-- The number whose bit `j` is bit `qs[j]` of the basis index `b`. -/
def gather : List Qubit → ℕ → ℕ
  | [], _ => 0
  | q :: qs, b => (b.testBit q).toNat + 2 * gather qs b

/-- The basis index `b` with the listed qubits unset. -/
def cleared (qs : List Qubit) (b : ℕ) : ℕ := b ^^^ (b &&& maskOf qs)

/-- The basis index `b` with bit `qs[j]` replaced by bit `j` of `m`, for every `j`. -/
def replaced (qs : List Qubit) (b m : ℕ) : ℕ := cleared qs b ||| spread qs m

theorem testBit_spread_of_notMem {i : ℕ} : ∀ (qs : List Qubit) (m : ℕ), i ∉ qs →
    (spread qs m).testBit i = false
  | [], _, _ => by simp [spread]
  | q :: qs, m, h => by
    rw [List.mem_cons, not_or] at h
    rw [spread, Nat.testBit_or, testBit_spread_of_notMem qs _ h.2]
    split
    · simp [Ne.symm h.1]
    · simp

theorem testBit_spread : ∀ (qs : List Qubit) (m : ℕ), qs.Nodup → ∀ (j : ℕ) (h : j < qs.length),
    (spread qs m).testBit qs[j] = m.testBit j
  | [], _, _, _, h => by simp at h
  | q :: qs, m, hnd, 0, _ => by
    rw [List.nodup_cons] at hnd
    rw [spread, Nat.testBit_or, List.getElem_cons_zero, testBit_spread_of_notMem qs _ hnd.1,
      Nat.testBit_zero]
    split <;> simp [*]
  | q :: qs, m, hnd, j + 1, h => by
    rw [List.nodup_cons] at hnd
    have hj : j < qs.length := by simpa using h
    have hne : q ≠ qs[j] := fun he => hnd.1 (he ▸ List.getElem_mem hj)
    rw [spread, Nat.testBit_or, List.getElem_cons_succ, testBit_spread qs _ hnd.2 j hj,
      Nat.testBit_div_two]
    split <;> simp [hne]

theorem gather_lt (b : ℕ) : ∀ qs : List Qubit, gather qs b < 2 ^ qs.length
  | [] => by simp [gather]
  | q :: qs => by
    have ih := gather_lt b qs
    have hb : (b.testBit q).toNat ≤ 1 := Bool.toNat_le _
    rw [gather, List.length_cons, pow_succ]
    omega

theorem testBit_gather (b : ℕ) : ∀ (qs : List Qubit) (j : ℕ) (h : j < qs.length),
    (gather qs b).testBit j = b.testBit qs[j]
  | [], _, h => by simp at h
  | q :: qs, 0, _ => by
    rw [gather, Nat.testBit_zero, List.getElem_cons_zero]
    cases b.testBit q <;> simp
  | q :: qs, j + 1, h => by
    have hj : j < qs.length := by simpa using h
    have hdiv : ((b.testBit q).toNat + 2 * gather qs b) / 2 = gather qs b := by
      have hb : (b.testBit q).toNat ≤ 1 := Bool.toNat_le _
      omega
    rw [gather, Nat.testBit_add_one, hdiv, testBit_gather b qs j hj, List.getElem_cons_succ]

/-- Only the listed bits are gathered. -/
theorem gather_congr {b b' : ℕ} : ∀ qs : List Qubit, (∀ q ∈ qs, b.testBit q = b'.testBit q) →
    gather qs b = gather qs b'
  | [], _ => rfl
  | q :: qs, h => by
    rw [gather, gather, h q List.mem_cons_self,
      gather_congr qs fun p hp => h p (List.mem_cons_of_mem _ hp)]

theorem testBit_cleared (qs : List Qubit) (b i : ℕ) :
    (cleared qs b).testBit i = (b.testBit i && !decide (i ∈ qs)) := by
  rw [cleared, Nat.testBit_xor, Nat.testBit_and, testBit_maskOf]
  cases b.testBit i <;> simp

theorem testBit_replaced_of_notMem {qs : List Qubit} {i : ℕ} (b m : ℕ) (h : i ∉ qs) :
    (replaced qs b m).testBit i = b.testBit i := by
  rw [replaced, Nat.testBit_or, testBit_cleared, testBit_spread_of_notMem qs m h]
  simp [h]

theorem testBit_replaced {qs : List Qubit} (b m : ℕ) (hnd : qs.Nodup) {j : ℕ} (h : j < qs.length) :
    (replaced qs b m).testBit qs[j] = m.testBit j := by
  rw [replaced, Nat.testBit_or, testBit_cleared, testBit_spread qs m hnd j h]
  simp

/-- What has been written on the listed bits is read back from them. -/
theorem gather_replaced {qs : List Qubit} (b : ℕ) {m : ℕ} (hnd : qs.Nodup)
    (hm : m < 2 ^ qs.length) : gather qs (replaced qs b m) = m := by
  apply Nat.eq_of_testBit_eq
  intro j
  by_cases hj : j < qs.length
  · rw [testBit_gather _ _ _ hj, testBit_replaced b m hnd hj]
  · have hle : qs.length ≤ j := Nat.le_of_not_lt hj
    rw [testBit_of_lt_two_pow hm hle, testBit_of_lt_two_pow (gather_lt _ qs) hle]

/-- An index whose bits beside the list are those of `b` is `b` with its own bits on the list. -/
theorem eq_replaced {qs : List Qubit} {b c : ℕ} (hnd : qs.Nodup)
    (h : ∀ i, i ∉ qs → c.testBit i = b.testBit i) : c = replaced qs b (gather qs c) := by
  apply Nat.eq_of_testBit_eq
  intro i
  by_cases hi : i ∈ qs
  · obtain ⟨j, hj, rfl⟩ := List.getElem_of_mem hi
    rw [testBit_replaced b _ hnd hj, testBit_gather _ _ _ hj]
  · rw [testBit_replaced_of_notMem b _ hi, h i hi]

theorem replaced_gather {qs : List Qubit} (b : ℕ) (hnd : qs.Nodup) :
    replaced qs b (gather qs b) = b :=
  (eq_replaced hnd fun _ _ => rfl).symm

theorem cleared_replaced {qs : List Qubit} (b m : ℕ) : cleared qs (replaced qs b m) = cleared qs b := by
  apply Nat.eq_of_testBit_eq
  intro i
  rw [testBit_cleared, testBit_cleared]
  by_cases hi : i ∈ qs
  · simp [hi]
  · rw [testBit_replaced_of_notMem b m hi]

theorem cleared_eq_self {qs : List Qubit} {b : ℕ} (h : b &&& maskOf qs = 0) : cleared qs b = b := by
  rw [cleared, h, Nat.xor_zero]

theorem cleared_and_maskOf (qs : List Qubit) (b : ℕ) : cleared qs b &&& maskOf qs = 0 := by
  rw [and_maskOf_eq_zero]
  intro q hq
  rw [testBit_cleared]
  simp [hq]

theorem cleared_le (qs : List Qubit) (b : ℕ) : cleared qs b ≤ b := by
  refine Nat.le_of_testBit fun i hi => ?_
  rw [testBit_cleared] at hi
  simp_all

/-! ### Parity and the lowest bit -/

theorem oddBits_zero : oddBits 0 = false := by rw [oddBits, if_pos rfl]

theorem oddBits_step (n : ℕ) : oddBits n = ((n % 2 == 1) != oddBits (n / 2)) := by
  by_cases hn : n = 0
  · subst n
    rw [Nat.zero_div, oddBits_zero]
    rfl
  · rw [oddBits, if_neg hn]

theorem oddBits_xor (a : ℕ) : ∀ b : ℕ, oddBits (a ^^^ b) = (oddBits a != oddBits b) := by
  induction a using Nat.strong_induction_on with
  | _ a ih =>
    intro b
    by_cases ha : a = 0
    · subst a
      rw [Nat.zero_xor, oddBits_zero, Bool.false_bne]
    · have hbit : ((a ^^^ b) % 2 == 1) = ((a % 2 == 1) != (b % 2 == 1)) := by
        rw [Nat.xor_mod_two_eq]
        rcases Nat.mod_two_eq_zero_or_one a with h | h <;>
          rcases Nat.mod_two_eq_zero_or_one b with h' | h' <;> simp [Nat.add_mod, h, h']
      rw [oddBits_step (a ^^^ b), Nat.xor_div_two, ih (a / 2) (by omega), hbit, oddBits_step a,
        oddBits_step b]
      cases a % 2 == 1 <;> cases b % 2 == 1 <;> cases oddBits (a / 2) <;> cases oddBits (b / 2) <;> rfl

theorem oddBits_mask (q : Qubit) : oddBits q.mask = true := by
  rw [Qubit.mask, Nat.one_shiftLeft]
  induction q with
  | zero =>
    rw [oddBits_step]
    change (true != oddBits 0) = true
    rw [oddBits_zero]
    rfl
  | succ q ih =>
    rw [oddBits_step, pow_succ, Nat.mul_div_cancel _ (by omega), ih]
    simp

/-- One bit is odd if it is set. -/
theorem oddBits_and_mask (b : ℕ) (q : Qubit) : oddBits (b &&& q.mask) = b.testBit q := by
  have hand : b &&& q.mask = if b.testBit q then q.mask else 0 := by
    rw [Qubit.mask, Nat.one_shiftLeft, Nat.and_two_pow]
    cases b.testBit q <;> simp
  rw [hand]
  cases b.testBit q
  · exact oddBits_zero
  · exact oddBits_mask q

theorem lowestBit_even (m : ℕ) : lowestBit (2 * m) = 2 * lowestBit m := by
  apply Nat.eq_of_testBit_eq
  intro i
  cases i with
  | zero => simp [lowestBit]
  | succ i =>
    have h1 : 2 * m / 2 = m := Nat.mul_div_cancel_left _ (by omega)
    have h2 : (2 * m - 1) / 2 = m - 1 := by omega
    have h3 : 2 * lowestBit m / 2 = lowestBit m := Nat.mul_div_cancel_left _ (by omega)
    rw [Nat.testBit_add_one (2 * lowestBit m), h3, lowestBit, lowestBit, Nat.testBit_and,
      Nat.testBit_xor, Nat.testBit_add_one, Nat.testBit_add_one, h1, h2, Nat.testBit_and,
      Nat.testBit_xor]

theorem lowestBit_odd (m : ℕ) : lowestBit (2 * m + 1) = 1 := by
  apply Nat.eq_of_testBit_eq
  intro i
  cases i with
  | zero => simp [lowestBit]
  | succ i =>
    have h1 : (2 * m + 1) / 2 = m := by omega
    have h2 : 2 * m / 2 = m := Nat.mul_div_cancel_left _ (by omega)
    rw [lowestBit, Nat.add_sub_cancel, Nat.testBit_and, Nat.testBit_xor, Nat.testBit_add_one,
      Nat.testBit_add_one, Nat.testBit_add_one, h1, h2]
    simp

/-- The lowest set bit is a power of two, and it is set. -/
theorem lowestBit_eq (n : ℕ) : n ≠ 0 → ∃ p, lowestBit n = 2 ^ p ∧ n.testBit p = true := by
  induction n using Nat.strong_induction_on with
  | _ n ih =>
    intro hn
    obtain ⟨m, rfl | rfl⟩ := Nat.even_or_odd' n
    · obtain ⟨p, hp, hbit⟩ := ih m (by omega) (by omega)
      refine ⟨p + 1, ?_, ?_⟩
      · rw [lowestBit_even, hp, pow_succ, Nat.mul_comm]
      · rw [Nat.testBit_add_one, Nat.mul_div_cancel_left _ (by omega), hbit]
    · exact ⟨0, lowestBit_odd m, by simp⟩

end GateCircuit
