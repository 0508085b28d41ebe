/-
# The Pauli kernel applies its operator

The masks of a Pauli string hold what the kernel needs to know of it: the flips say where a basis
state goes, the parity of the signs and the number of `Y` operators say with which factor. Without
flips the kernel scales each amplitude by itself. With flips it works on pairs, from the side on which
the lowest flipped bit is unset; the sweep over pairs is local, so each pair is mixed once, as it was
at the start.

Key theorems: `ofString_eq`, `toComplex_phase`, `localSweep_pairStep`,
`StateVector.mixPauli_becomes`.
-/
import Mathlib
import GateCircuit.Proofs.State

namespace GateCircuit

/-! ### Strings as masks -/

/-- The qubits on which a Pauli string gives signs, as a mask. -/
def signMask (string : List (Qubit × Pauli)) : ℕ :=
  maskOf ((string.filter fun a => a.2.signs).map Prod.fst)

/-- The number of `Y` operators of a string. -/
def countY (string : List (Qubit × Pauli)) : ℕ := string.countP fun a => a.2 = .Y

theorem flipMask_cons (q : Qubit) (p : Pauli) (rest : List (Qubit × Pauli)) :
    flipMask ((q, p) :: rest) = if p.flips then q.mask ||| flipMask rest else flipMask rest := by
  cases h : p.flips <;> simp [flipMask, h, maskOf_cons]

theorem signMask_cons (q : Qubit) (p : Pauli) (rest : List (Qubit × Pauli)) :
    signMask ((q, p) :: rest) = if p.signs then q.mask ||| signMask rest else signMask rest := by
  cases h : p.signs <;> simp [signMask, h, maskOf_cons]

theorem countY_cons (q : Qubit) (p : Pauli) (rest : List (Qubit × Pauli)) :
    countY ((q, p) :: rest) = if p = .Y then countY rest + 1 else countY rest := by
  by_cases h : p = .Y <;> simp [countY, h]

section Bits

variable {string : List (Qubit × Pauli)} (marked : Pauli → Bool)

/-- The mask of the qubits whose operators are marked has no bits of other qubits. -/
theorem testBit_marked_of_notMem {i : ℕ} (h : ∀ a ∈ string, a.1 ≠ i) :
    (maskOf ((string.filter fun a => marked a.2).map Prod.fst)).testBit i = false := by
  rw [testBit_maskOf, decide_eq_false_iff_not]
  intro hi
  obtain ⟨a, ha, rfl⟩ := List.mem_map.mp hi
  exact h a (List.mem_filter.mp ha).1 rfl

/-- If the qubits are distinct then the bit of a qubit tells whether its operator is marked. -/
theorem testBit_marked_of_mem (hnd : (string.map Prod.fst).Nodup) {a : Qubit × Pauli}
    (ha : a ∈ string) :
    (maskOf ((string.filter fun a => marked a.2).map Prod.fst)).testBit a.1 = marked a.2 := by
  rw [testBit_maskOf, Bool.eq_iff_iff, decide_eq_true_eq]
  constructor
  · intro hmem
    obtain ⟨a', ha', hqubit⟩ := List.mem_map.mp hmem
    obtain ⟨ha', hmarked⟩ := List.mem_filter.mp ha'
    have hsame : a' = a := List.inj_on_of_nodup_map hnd ha' ha hqubit
    exact hsame ▸ hmarked
  · exact fun hmarked => List.mem_map.mpr ⟨a, List.mem_filter.mpr ⟨ha, hmarked⟩, rfl⟩

/-- A string flips only bits of its qubits. -/
theorem testBit_flipMask_of_notMem {i : ℕ} (h : ∀ a ∈ string, a.1 ≠ i) :
    (flipMask string).testBit i = false :=
  testBit_marked_of_notMem Pauli.flips h

/-- A string gives signs only on bits of its qubits. -/
theorem testBit_signMask_of_notMem {i : ℕ} (h : ∀ a ∈ string, a.1 ≠ i) :
    (signMask string).testBit i = false :=
  testBit_marked_of_notMem Pauli.signs h

/-- Each qubit of a string is flipped as its operator says. -/
theorem testBit_flipMask_of_mem (hnd : (string.map Prod.fst).Nodup) (a : Qubit × Pauli)
    (ha : a ∈ string) : (flipMask string).testBit a.1 = a.2.flips :=
  testBit_marked_of_mem Pauli.flips hnd ha

/-- Each qubit of a string is signed as its operator says. -/
theorem testBit_signMask_of_mem (hnd : (string.map Prod.fst).Nodup) (a : Qubit × Pauli)
    (ha : a ∈ string) : (signMask string).testBit a.1 = a.2.signs :=
  testBit_marked_of_mem Pauli.signs hnd ha

end Bits

/-- Reading a string operator by operator collects its masks. -/
theorem ofString_eq (ts : List Qubit) (ps : List Pauli) :
    PauliMasks.ofString ts ps =
      ⟨flipMask (ts.zip ps), signMask (ts.zip ps), countY (ts.zip ps)⟩ := by
  have key : ∀ (string : List (Qubit × Pauli)) (masks : PauliMasks),
      string.foldl (fun masks a =>
        { flips := if a.2.flips then masks.flips ||| a.1.mask else masks.flips
          signs := if a.2.signs then masks.signs ||| a.1.mask else masks.signs
          yCount := if a.2 = .Y then masks.yCount + 1 else masks.yCount : PauliMasks }) masks =
      ⟨masks.flips ||| flipMask string, masks.signs ||| signMask string,
        masks.yCount + countY string⟩ := by
    intro string
    induction string with
    | nil =>
      intro masks
      simp [flipMask, signMask, countY, maskOf]
    | cons a rest ih =>
      intro masks
      obtain ⟨q, p⟩ := a
      rw [List.foldl_cons, ih, flipMask_cons, signMask_cons, countY_cons]
      cases p <;> simp [Pauli.flips, Pauli.signs, Nat.or_assoc]
      omega
  refine (key (ts.zip ps) ⟨0, 0, 0⟩).trans ?_
  simp

/-! ### Factors -/

theorem toComplex_iPower (n : ℕ) : (PauliMasks.iPower n : Amplitude ℝ).toComplex = Complex.I ^ n := by
  rw [Complex.I_pow_eq_pow_mod n, PauliMasks.iPower]
  have h : n % 4 < 4 := Nat.mod_lt _ (by omega)
  interval_cases n % 4 <;> simp [pow_succ]

theorem toComplex_phase (masks : PauliMasks) (b : ℕ) :
    (masks.phase b : Amplitude ℝ).toComplex =
      (if oddBits (b &&& masks.signs) then -1 else 1) * Complex.I ^ masks.yCount := by
  rw [PauliMasks.phase]
  split <;> simp [toComplex_iPower]

/-- A further sign bit changes the parity if it is set. -/
theorem oddBits_and_or {q : Qubit} {mask : ℕ} (hq : mask.testBit q = false) (b : ℕ) :
    oddBits (b &&& (q.mask ||| mask)) = (b.testBit q != oddBits (b &&& mask)) := by
  have hsplit : b &&& (q.mask ||| mask) = (b &&& q.mask) ^^^ (b &&& mask) := by
    apply Nat.eq_of_testBit_eq
    intro i
    rw [Nat.testBit_and, Nat.testBit_or, Nat.testBit_xor, Nat.testBit_and, Nat.testBit_and,
      testBit_mask]
    by_cases hi : q = i
    · subst hi
      simp [hq]
    · simp [hi]
  rw [hsplit, oddBits_xor, oddBits_and_mask]

/-- One operator's factor: a sign on the upper basis state, and `i` for a `Y`. -/
theorem factor_eq (p : Pauli) (bit : Bool) :
    p.factor bit = (if p.signs && bit then -1 else 1) * if p = .Y then Complex.I else 1 := by
  cases p <;> cases bit <;> simp [Pauli.factor, Pauli.signs]

/-- The factor of a string, from the parity of its signs and the number of its `Y` operators. -/
theorem stringFactor_eq (b : ℕ) : ∀ string : List (Qubit × Pauli), (string.map Prod.fst).Nodup →
    stringFactor string b =
      (if oddBits (b &&& signMask string) then -1 else 1) * Complex.I ^ countY string
  | [], _ => by simp [stringFactor, signMask, countY, maskOf, oddBits_zero]
  | (q, p) :: rest, hnd => by
    rw [List.map_cons, List.nodup_cons] at hnd
    have hq : (signMask rest).testBit q = false :=
      testBit_signMask_of_notMem fun a ha h => hnd.1 (List.mem_map.mpr ⟨a, ha, h⟩)
    rw [stringFactor, stringFactor_eq b rest hnd.2, factor_eq, signMask_cons, countY_cons]
    have hparity : oddBits (b &&& if p.signs then q.mask ||| signMask rest else signMask rest) =
        ((p.signs && b.testBit q) != oddBits (b &&& signMask rest)) := by
      cases p.signs
      · simp
      · simp [oddBits_and_or hq]
    rw [hparity]
    cases p.signs && b.testBit q <;> cases oddBits (b &&& signMask rest) <;>
      by_cases hy : p = .Y <;> simp [hy, pow_succ, mul_comm]

/-! ### The sweep over pairs -/

section Pairs

variable {R : Type} [Scalar R] (masks : PauliMasks) (o : Operands) (stay flip : Amplitude R)

/-- One step of the sweep over pairs whose pivot is bit `p`. -/
def pairStep (p b : ℕ) (amps : Array (Amplitude R)) : Array (Amplitude R) :=
  if b &&& 2 ^ p == 0 && o.isActive b then
    (amps.setIfInBounds b (stay * amps.getD b 0 +
      flip * masks.phase (b ^^^ masks.flips) * amps.getD (b ^^^ masks.flips) 0)).setIfInBounds
      (b ^^^ masks.flips) (stay * amps.getD (b ^^^ masks.flips) 0 +
        flip * masks.phase b * amps.getD b 0)
  else amps

/-- The index of a pair at which the pivot is unset. -/
def pairKey (p b : ℕ) : ℕ := if b.testBit p then b ^^^ masks.flips else b

theorem pairSweep_eq {p : ℕ} (hp : lowestBit masks.flips = 2 ^ p) (amps : Array (Amplitude R)) :
    masks.pairSweep o stay flip amps =
      Nat.fold amps.size (fun b _ amps => pairStep masks o stay flip p b amps) amps := by
  rw [PauliMasks.pairSweep, hp]
  rfl

theorem size_pairStep (p b : ℕ) (amps : Array (Amplitude R)) :
    (pairStep masks o stay flip p b amps).size = amps.size := by
  unfold pairStep
  split <;> simp

theorem and_two_pow_eq_zero (b p : ℕ) : b &&& 2 ^ p = 0 ↔ b.testBit p = false := by
  rw [Nat.and_two_pow]
  cases b.testBit p <;> simp

variable {masks o p}

/-- A step leaves the other pairs alone. -/
theorem getD_pairStep_of_ne {p : ℕ} (hp : masks.flips.testBit p = true) {k b : ℕ}
    (hb : pairKey masks p b ≠ k) (amps : Array (Amplitude R)) :
    (pairStep masks o stay flip p k amps).getD b 0 = amps.getD b 0 := by
  unfold pairStep
  split
  · rename_i hc
    rw [Bool.and_eq_true, beq_iff_eq, and_two_pow_eq_zero] at hc
    have hself : k ≠ b := by
      rintro rfl
      exact hb (by simp [pairKey, hc.1])
    have hpartner : k ^^^ masks.flips ≠ b := by
      rintro rfl
      exact hb (by simp [pairKey, hc.1, hp])
    rw [getD_setIfInBounds, if_neg (by simp [hpartner]), getD_setIfInBounds, if_neg (by simp [hself])]
  · rfl

/-- What a step makes of the two amplitudes of its pair. -/
theorem getD_pairStep {p : ℕ} (hp : masks.flips.testBit p = true)
    (hact : ∀ b, o.isActive (b ^^^ masks.flips) = o.isActive b) {b : ℕ} (amps : Array (Amplitude R))
    (hb : b < amps.size) :
    (pairStep masks o stay flip p (pairKey masks p b) amps).getD b 0 =
      if o.isActive b then
        stay * amps.getD b 0 +
          flip * masks.phase (b ^^^ masks.flips) * amps.getD (b ^^^ masks.flips) 0
      else amps.getD b 0 := by
  have hback : b ^^^ masks.flips ^^^ masks.flips = b := Nat.xor_xor_cancel_right _ _
  have hne : b ^^^ masks.flips ≠ b := by
    intro h
    have := congrArg (Nat.testBit · p) h
    simp [hp] at this
  unfold pairStep pairKey
  by_cases hbit : b.testBit p = true
  · -- `b` is the far end of its pair
    have hz : (b ^^^ masks.flips) &&& 2 ^ p = 0 := by
      rw [and_two_pow_eq_zero, Nat.testBit_xor, hbit, hp]
      rfl
    simp only [hbit, if_true, hback, hz, hact, beq_self_eq_true, Bool.true_and]
    split
    · rw [getD_setIfInBounds, if_pos ⟨rfl, by simpa using hb⟩]
    · rfl
  · have hbit' : b.testBit p = false := by simpa using hbit
    have hz : b &&& 2 ^ p = 0 := (and_two_pow_eq_zero b p).mpr hbit'
    simp only [hbit', Bool.false_eq_true, if_false, hz, beq_self_eq_true, Bool.true_and]
    split
    · rw [getD_setIfInBounds, if_neg (by simp [hne]), getD_setIfInBounds, if_pos ⟨rfl, hb⟩]
    · rfl

theorem localSweep_pairStep {p : ℕ} (hp : masks.flips.testBit p = true)
    (hact : ∀ b, o.isActive (b ^^^ masks.flips) = o.isActive b) :
    LocalSweep (pairKey masks p) 0 (pairStep masks o stay flip p) where
  size := size_pairStep masks o stay flip p
  frame _ a _ hb := getD_pairStep_of_ne stay flip hp hb a
  reads := by
    intro k a a' hsize hsame b hlt hb
    subst hb
    -- the partner of `b` belongs to the same pair
    have hpartner : pairKey masks p (b ^^^ masks.flips) = pairKey masks p b := by
      unfold pairKey
      rw [Nat.testBit_xor, hp]
      cases b.testBit p <;> simp
    rw [getD_pairStep stay flip hp hact a hlt, getD_pairStep stay flip hp hact a' (hsize ▸ hlt),
      hsame b rfl, hsame _ hpartner]

/-- **The sweep over pairs mixes all pairs at once**, each as it was at the start. -/
theorem getD_pairSweep (hflips : masks.flips ≠ 0)
    (hact : ∀ b, o.isActive (b ^^^ masks.flips) = o.isActive b) (amps : Array (Amplitude R)) {b : ℕ}
    (hb : b < amps.size) (hpair : b ^^^ masks.flips < amps.size) :
    (masks.pairSweep o stay flip amps).getD b 0 =
      if o.isActive b then
        stay * amps.getD b 0 +
          flip * masks.phase (b ^^^ masks.flips) * amps.getD (b ^^^ masks.flips) 0
      else amps.getD b 0 := by
  obtain ⟨p, hp, hbit⟩ := lowestBit_eq masks.flips hflips
  have hkey : pairKey masks p b < amps.size := by
    unfold pairKey
    split <;> assumption
  rw [pairSweep_eq masks o stay flip hp,
    (localSweep_pairStep stay flip hbit hact).getD_fold amps amps.size b, if_pos hkey,
    getD_pairStep stay flip hbit hact amps hb]

theorem size_pairSweep (hflips : masks.flips ≠ 0)
    (hact : ∀ b, o.isActive (b ^^^ masks.flips) = o.isActive b) (amps : Array (Amplitude R)) :
    (masks.pairSweep o stay flip amps).size = amps.size := by
  obtain ⟨p, hp, hbit⟩ := lowestBit_eq masks.flips hflips
  rw [pairSweep_eq masks o stay flip hp]
  exact (localSweep_pairStep stay flip hbit hact).size_fold amps amps.size

theorem getD_scaleSweep (amps : Array (Amplitude R)) {b : ℕ} (hb : b < amps.size) :
    (masks.scaleSweep o stay flip amps).getD b 0 =
      if o.isActive b then amps.getD b 0 * (stay + flip * masks.phase b) else amps.getD b 0 := by
  simp [PauliMasks.scaleSweep, hb]

theorem size_scaleSweep (amps : Array (Amplitude R)) :
    (masks.scaleSweep o stay flip amps).size = amps.size := by
  simp [PauliMasks.scaleSweep]

end Pairs

/-! ### Over exact scalars -/

section Exact

variable {ts cs : List Qubit} {ps : List Pauli}

/-- The factor that the kernel reads off the masks is that of the string. -/
theorem toComplex_phase_ofString (hts : ts.Nodup) (hlen : ts.length = ps.length) (b : ℕ) :
    ((PauliMasks.ofString ts ps).phase b : Amplitude ℝ).toComplex = stringFactor (ts.zip ps) b := by
  have hfst : (ts.zip ps).map Prod.fst = ts := List.map_fst_zip hlen.le
  rw [toComplex_phase, ofString_eq, stringFactor_eq b _ (hfst.symm ▸ hts)]

/-- The string flips no control. -/
theorem isActive_xor_flipMask (hnd : (ts ++ cs).Nodup) (b : ℕ) :
    (⟨maskOf ts, maskOf cs⟩ : Operands).isActive (b ^^^ flipMask (ts.zip ps)) =
      (⟨maskOf ts, maskOf cs⟩ : Operands).isActive b := by
  have hdis := (List.nodup_append.mp hnd).2.2
  rw [Bool.eq_iff_iff, isActive_iff, isActive_iff]
  refine forall₂_congr fun q hq => ?_
  have hq' : (flipMask (ts.zip ps)).testBit q = false :=
    testBit_flipMask_of_notMem fun a ha => hdis a.1 (List.of_mem_zip ha).1 q hq
  rw [Nat.testBit_xor, hq', Bool.xor_false]

/-- The sweep that the kernel chooses: without flips the partner of an index is the index. -/
theorem toComplex_sweep {masks : PauliMasks} {o : Operands}
    (hact : ∀ b, o.isActive (b ^^^ masks.flips) = o.isActive b) (stay flip : Amplitude ℝ)
    (amps : Array (Amplitude ℝ)) {b : ℕ} (hb : b < amps.size)
    (hpair : b ^^^ masks.flips < amps.size) :
    (((if masks.flips = 0 then masks.scaleSweep else masks.pairSweep) o stay flip amps).getD b
        0).toComplex =
      if o.isActive b then
        stay.toComplex * (amps.getD b 0).toComplex +
          flip.toComplex * ((masks.phase (b ^^^ masks.flips) : Amplitude ℝ).toComplex *
            (amps.getD (b ^^^ masks.flips) 0).toComplex)
      else (amps.getD b 0).toComplex := by
  by_cases hflips : masks.flips = 0
  · rw [if_pos hflips, getD_scaleSweep stay flip amps hb, hflips, Nat.xor_zero]
    split
    · simp only [Amplitude.toComplex_mul, Amplitude.toComplex_add]
      ring
    · rfl
  · rw [if_neg hflips, getD_pairSweep stay flip hflips hact amps hb hpair]
    split
    · simp only [Amplitude.toComplex_mul, Amplitude.toComplex_add]
      ring
    · rfl

theorem size_sweep {R : Type} [Scalar R] {masks : PauliMasks} {o : Operands}
    (hact : ∀ b, o.isActive (b ^^^ masks.flips) = o.isActive b) (stay flip : Amplitude R)
    (amps : Array (Amplitude R)) :
    ((if masks.flips = 0 then masks.scaleSweep else masks.pairSweep) o stay flip amps).size =
      amps.size := by
  split
  · exact size_scaleSweep stay flip amps
  · rename_i hflips
    exact size_pairSweep stay flip hflips hact amps

end Exact

namespace StateVector

/-- **The Pauli kernel.** On operands that fit it succeeds, and does to the amplitudes what the
combination of the identity and the string does. -/
theorem mixPauli_becomes {s : StateVector ℝ} (hs : s.WellFormed) {ts cs : List Qubit}
    {ps : List Pauli} (hfit : FitOperands s.qubitCount (ts ++ cs)) (hlen : ts.length = ps.length)
    (stay flip : Amplitude ℝ) :
    ∃ t, s.mixPauli ts cs ps stay flip = .ok t ∧
      s.Becomes (controlled cs (mixOperator (ts.zip ps) stay.toComplex flip.toComplex)) t := by
  have hts : ts.Nodup := (List.nodup_append.mp hfit.distinct).1
  have hin : ∀ a ∈ ts.zip ps, a.1 < s.qubitCount := fun a ha =>
    hfit.inside a.1 (List.mem_append_left _ (List.of_mem_zip ha).1)
  set masks := PauliMasks.ofString ts ps with hmasks
  have hflips : masks.flips = flipMask (ts.zip ps) := by rw [hmasks, ofString_eq]
  set o : Operands := ⟨maskOf ts, maskOf cs⟩ with ho
  have hact : ∀ b, o.isActive (b ^^^ masks.flips) = o.isActive b := by
    rw [hflips]
    exact isActive_xor_flipMask hfit.distinct
  have hlocal : Local s.qubitCount
      (controlled cs (mixOperator (ts.zip ps) stay.toComplex flip.toComplex)) :=
    local_controlled (fun q hq => hfit.inside q (List.mem_append_right _ hq))
      (local_mixOperator hin _ _)
  have hswept := size_sweep hact stay flip s.amplitudes
  refine ⟨_, ?_, Becomes.of_amplitudes hs hlocal hswept fun b hb => ?_⟩
  · have hops := operands_eq_ok.mpr ⟨hfit, ho⟩
    rw [mixPauli, if_neg (by simp [hlen]), hops]
    rfl
  · have hsize : s.amplitudes.size = 2 ^ s.qubitCount := hs.trans (dimension_eq _)
    have hpair : b ^^^ masks.flips < s.amplitudes.size := by
      rw [hsize, hflips]
      exact Nat.xor_lt_two_pow hb (flipMask_lt hin)
    have hcs : o.isActive b = true ↔ AllSet cs b := isActive_iff ts cs b
    rw [toComplex_sweep hact stay flip s.amplitudes (by rwa [hsize]) hpair, controlled_apply,
      toComplex_phase_ofString hts hlen, hflips]
    simp only [hcs]
    rfl

end StateVector
end GateCircuit
