/-
# Qubits under other names

A permutation of the qubits of a circuit renames the operands of its gates, and moves the bits of the
basis indices of a register. Masks, offsets and the order of the loops in the kernels depend on where a
bit stands, but what a kernel does, does not: the operator of a renamed call is the operator of the call
between moving the bits back and moving them there. So a renamed circuit makes of a renamed register
what the circuit makes of the register, under the new names. Which gates share qubits is no matter of
names either, and so neither is the depth.

Key definitions: `renamed`, `moveBits`, `StateVector.relabelled`, `Circuit.relabelled`, `moveOperator`.
Key theorems: `testBit_moveBits`, `StateVector.amp_relabelled`, `KernelCall.operator_mapQubits`,
`gatesOperator_mapQubits`, `Circuit.FactoryBuilt.relabelled`, `depth_relabelled`, `relabelled_execution`.
-/
import Mathlib
import GateCircuit.Circuit.Summary
import GateCircuit.Proofs.CircuitOperator
import GateCircuit.Proofs.CriticalPath

namespace GateCircuit

/-! ### Qubits and bits -/

section Bits

variable {n : ℕ} (π : Equiv.Perm (Fin n))

/-- The new name of a qubit. Qubits from `n` upwards keep theirs. -/
def renamed : Equiv.Perm ℕ := π.extendDomain Fin.equivSubtype

theorem renamed_of_lt {q : ℕ} (hq : q < n) : renamed π q = π ⟨q, hq⟩ :=
  Equiv.Perm.extendDomain_apply_subtype π Fin.equivSubtype hq

theorem renamed_of_le {q : ℕ} (hq : n ≤ q) : renamed π q = q :=
  Equiv.Perm.extendDomain_apply_not_subtype π Fin.equivSubtype (Nat.not_lt.mpr hq)

theorem renamed_lt {q : ℕ} (hq : q < n) : renamed π q < n := by
  rw [renamed_of_lt π hq]
  exact (π ⟨q, hq⟩).isLt

theorem renamed_symm : renamed π.symm = (renamed π).symm :=
  (Equiv.Perm.extendDomain_symm π Fin.equivSubtype).symm

/-- The new names of all qubits, in the order of the old ones. -/
def newNames : List Qubit := (List.range n).map (renamed π)

theorem newNames_lt {q : ℕ} (hq : q ∈ newNames π) : q < n := by
  obtain ⟨p, hp, rfl⟩ := List.mem_map.mp hq
  exact renamed_lt π (List.mem_range.mp hp)

theorem nodup_newNames : (newNames π).Nodup :=
  List.Nodup.map (renamed π).injective List.nodup_range

/-- The basis index in which the bits of `b` have moved to the new names of their qubits. -/
def moveBits (b : ℕ) : ℕ := replaced (newNames π) b b

/-- **Bit `q` moves to the new name of qubit `q`.** -/
theorem testBit_moveBits (b q : ℕ) : (moveBits π b).testBit (renamed π q) = b.testBit q := by
  by_cases hq : q < n
  · have hlen : q < (newNames π).length := by
      rw [newNames, List.length_map, List.length_range]
      exact hq
    have hget : (newNames π)[q] = renamed π q := by
      simp [newNames]
    rw [← hget, moveBits, testBit_replaced b b (nodup_newNames π) hlen]
  · have hle : n ≤ q := Nat.le_of_not_lt hq
    have hnot : q ∉ newNames π := fun h => hq (newNames_lt π h)
    rw [renamed_of_le π hle, moveBits, testBit_replaced_of_notMem b b hnot]

/-- Qubits `0` to `2` each go one further, the last one back to the start; bit `3` stays. -/
example : moveBits (finRotate 3) 0b1101 = 0b1011 := by decide

/-- In the index moved back, bit `q` is the one that stood at the new name. -/
theorem testBit_moveBits_symm (b q : ℕ) :
    (moveBits π.symm b).testBit q = b.testBit (renamed π q) := by
  have h := testBit_moveBits π.symm b (renamed π q)
  rwa [renamed_symm, Equiv.symm_apply_apply] at h

theorem moveBits_symm_moveBits (b : ℕ) : moveBits π.symm (moveBits π b) = b := by
  apply Nat.eq_of_testBit_eq
  intro q
  rw [testBit_moveBits_symm, testBit_moveBits]

theorem moveBits_lt {m b : ℕ} (hnm : n ≤ m) (hb : b < 2 ^ m) : moveBits π b < 2 ^ m :=
  replaced_lt hb (fun _ hq => (newNames_lt π hq).trans_le hnm) b

theorem moveBits_lt_iff {m b : ℕ} (hnm : n ≤ m) : moveBits π.symm b < 2 ^ m ↔ b < 2 ^ m := by
  constructor
  · intro h
    have hback := moveBits_lt π hnm h
    rwa [show moveBits π (moveBits π.symm b) = b from moveBits_symm_moveBits π.symm b] at hback
  · exact moveBits_lt π.symm hnm

end Bits

/-! ### Registers -/

section Registers

variable {n : ℕ} (π : Equiv.Perm (Fin n))

/-- The register in which every amplitude has moved with the bits of its index. -/
def StateVector.relabelled {R : Type} [Scalar R] (s : StateVector R) : StateVector R :=
  { s with amplitudes := (Array.range s.amplitudes.size).map fun b =>
      s.amplitudes.getD (moveBits π.symm b) 0 }

variable {s : StateVector ℝ}

theorem StateVector.WellFormed.relabelled (hs : s.WellFormed) : (s.relabelled π).WellFormed := by
  rw [WellFormed, StateVector.relabelled, Array.size_map, Array.size_range]
  exact hs

/-- An amplitude of the new register stood where the bits of its index come from. -/
theorem StateVector.amp_relabelled (hs : s.WellFormed) (hn : n ≤ s.qubitCount) (b : ℕ) :
    (s.relabelled π).amp b = s.amp (moveBits π.symm b) := by
  by_cases hb : b < 2 ^ s.qubitCount
  · have hsize : b < s.amplitudes.size := by rwa [hs, dimension_eq]
    rw [amp, amp, StateVector.relabelled]
    simp [hsize]
  · have hb' : ¬ moveBits π.symm b < 2 ^ s.qubitCount := fun h => hb ((moveBits_lt_iff π hn).mp h)
    rw [amp_eq_zero (hs.relabelled π) (Nat.le_of_not_lt hb), amp_eq_zero hs (Nat.le_of_not_lt hb')]

/-- **The amplitude at `b` goes to the index that `b` becomes.** -/
theorem StateVector.amp_moveBits (hs : s.WellFormed) (hn : n ≤ s.qubitCount) (b : ℕ) :
    (s.relabelled π).amp (moveBits π b) = s.amp b := by
  rw [amp_relabelled π hs hn, moveBits_symm_moveBits]

/-- The operator that moves amplitudes with the bits of their indices. -/
noncomputable def moveOperator : Operator := LinearMap.funLeft ℂ ℂ (moveBits π.symm)

theorem moveOperator_apply (ψ : ℕ → ℂ) (b : ℕ) :
    moveOperator π ψ b = ψ (moveBits π.symm b) := rfl

theorem StateVector.becomes_relabelled (hs : s.WellFormed) (hn : n ≤ s.qubitCount) :
    s.Becomes (moveOperator π) (s.relabelled π) where
  wellFormed := hs.relabelled π
  qubitCount := rfl
  amp := funext fun b => amp_relabelled π hs hn b

end Registers

/-! ### Kernels on renamed qubits -/

section Kernels

variable {n : ℕ} (π : Equiv.Perm (Fin n)) (b : ℕ)

theorem allSet_renamed (qs : List Qubit) :
    AllSet (qs.map (renamed π)) b ↔ AllSet qs (moveBits π.symm b) := by
  unfold AllSet
  rw [List.forall_mem_map]
  refine forall₂_congr fun q _ => ?_
  rw [testBit_moveBits_symm]

theorem gather_renamed : ∀ qs : List Qubit,
    gather (qs.map (renamed π)) b = gather qs (moveBits π.symm b)
  | [] => rfl
  | q :: qs => by
    rw [List.map_cons, gather, gather, gather_renamed qs, testBit_moveBits_symm]

/-- New bits on renamed targets are new bits on the targets, once moved back. -/
theorem moveBits_replaced {ts : List Qubit} (hts : ts.Nodup) (m : ℕ) :
    moveBits π.symm (replaced (ts.map (renamed π)) b m) = replaced ts (moveBits π.symm b) m := by
  apply Nat.eq_of_testBit_eq
  intro q
  rw [testBit_moveBits_symm]
  by_cases hq : q ∈ ts
  · obtain ⟨j, hj, rfl⟩ := List.getElem_of_mem hq
    have hj' : j < (ts.map (renamed π)).length := by rwa [List.length_map]
    have hget : (ts.map (renamed π))[j] = renamed π ts[j] := List.getElem_map _
    have hts' : (ts.map (renamed π)).Nodup := hts.map (renamed π).injective
    rw [testBit_replaced _ m hts hj, ← hget, testBit_replaced b m hts' hj']
  · have hq' : renamed π q ∉ ts.map (renamed π) := by
      rwa [List.mem_map_of_injective (renamed π).injective]
    rw [testBit_replaced_of_notMem b m hq', testBit_replaced_of_notMem _ m hq, testBit_moveBits_symm]

/-- A string on renamed qubits. -/
def mapString (f : Qubit → Qubit) (string : List (Qubit × Pauli)) : List (Qubit × Pauli) :=
  string.map (Prod.map f id)

theorem zip_map_string (f : Qubit → Qubit) (ts : List Qubit) (ps : List Pauli) :
    (ts.map f).zip ps = mapString f (ts.zip ps) := by
  rw [mapString, List.zip_map_left]

theorem stringFactor_renamed : ∀ string : List (Qubit × Pauli),
    stringFactor (mapString (renamed π) string) b = stringFactor string (moveBits π.symm b)
  | [] => rfl
  | (q, p) :: rest => by
    show p.factor (b.testBit (renamed π q)) * stringFactor (mapString (renamed π) rest) b = _
    rw [stringFactor_renamed rest, stringFactor, testBit_moveBits_symm]

theorem moveBits_flip (string : List (Qubit × Pauli)) :
    moveBits π.symm (b ^^^ flipMask (mapString (renamed π) string)) =
      moveBits π.symm b ^^^ flipMask string := by
  have hmask : ∀ q, (flipMask (mapString (renamed π) string)).testBit (renamed π q) =
      (flipMask string).testBit q := by
    intro q
    have hflipped : ((mapString (renamed π) string).filter fun a => a.2.flips).map Prod.fst =
        ((string.filter fun a => a.2.flips).map Prod.fst).map (renamed π) := by
      rw [mapString, List.filter_map, List.map_map, List.map_map]
      rfl
    rw [flipMask, flipMask, testBit_maskOf, testBit_maskOf, hflipped,
      decide_eq_decide, List.mem_map_of_injective (renamed π).injective]
  apply Nat.eq_of_testBit_eq
  intro q
  rw [testBit_moveBits_symm, Nat.testBit_xor, Nat.testBit_xor, testBit_moveBits_symm, hmask]

end Kernels

/-! ### Operators on renamed qubits -/

section Operators

variable {n : ℕ} (π : Equiv.Perm (Fin n))

/-- The operator `A` does on the moved amplitudes what `B` does on the amplitudes. -/
def Moves (A B : Operator) : Prop := A ∘ₗ moveOperator π = moveOperator π ∘ₗ B

variable {π} in
theorem Moves.comp {A A' B B' : Operator} (h : Moves π A B) (h' : Moves π A' B') :
    Moves π (A ∘ₗ A') (B ∘ₗ B') := by
  unfold Moves at h h' ⊢
  rw [LinearMap.comp_assoc, h', ← LinearMap.comp_assoc, h, LinearMap.comp_assoc]

theorem Moves.of_apply {A B : Operator}
    (h : ∀ ψ b, A (moveOperator π ψ) b = B ψ (moveBits π.symm b)) : Moves π A B :=
  LinearMap.ext fun ψ => funext fun b => h ψ b

theorem moves_id : Moves π LinearMap.id LinearMap.id := rfl

variable {π} in
theorem Moves.controlled {A B : Operator} (h : Moves π A B) (cs : List Qubit) :
    Moves π (controlled (cs.map (renamed π)) A) (controlled cs B) := by
  refine Moves.of_apply π fun ψ b => ?_
  have hactive : A (moveOperator π ψ) b = B ψ (moveBits π.symm b) :=
    congrFun (LinearMap.congr_fun h ψ) b
  rw [controlled_apply, controlled_apply, hactive, moveOperator_apply]
  simp only [allSet_renamed]

theorem moves_stringOperator (string : List (Qubit × Pauli)) :
    Moves π (stringOperator (mapString (renamed π) string)) (stringOperator string) := by
  refine Moves.of_apply π fun ψ b => ?_
  rw [stringOperator_apply, stringOperator_apply, moveOperator_apply, stringFactor_renamed,
    moveBits_flip]

theorem moves_mixOperator (string : List (Qubit × Pauli)) (stay flip : ℂ) :
    Moves π (mixOperator (mapString (renamed π) string) stay flip) (mixOperator string stay flip) := by
  have hstring : stringOperator (mapString (renamed π) string) ∘ₗ moveOperator π =
      moveOperator π ∘ₗ stringOperator string := moves_stringOperator π string
  unfold Moves
  rw [mixOperator, mixOperator, LinearMap.add_comp, LinearMap.comp_add, LinearMap.smul_comp,
    LinearMap.smul_comp, LinearMap.comp_smul, LinearMap.comp_smul, hstring, LinearMap.id_comp,
    LinearMap.comp_id]

theorem moves_blockOperator {ts : List Qubit} (hts : ts.Nodup) (dim : ℕ) (entry : ℕ → ℕ → ℂ) :
    Moves π (blockOperator (ts.map (renamed π)) dim entry) (blockOperator ts dim entry) := by
  refine Moves.of_apply π fun ψ b => ?_
  rw [blockOperator_apply, blockOperator_apply, gather_renamed]
  simp only [moveOperator_apply, moveBits_replaced π b hts]

/-- A kernel call on other qubits. -/
def KernelCall.mapQubits {R : Type} (f : Qubit → Qubit) : KernelCall R → KernelCall R
  | .matrix ts cs entries => .matrix (ts.map f) (cs.map f) entries
  | .pauli ts cs ps => .pauli (ts.map f) (cs.map f) ps
  | .rotation ts cs ps angle => .rotation (ts.map f) (cs.map f) ps angle

/-- **A renamed call does on moved amplitudes what the call does on the amplitudes.** -/
theorem KernelCall.operator_mapQubits {call : KernelCall ℝ} (hts : call.targets.Nodup) :
    Moves π (call.mapQubits (renamed π)).operator call.operator := by
  cases call with
  | matrix ts cs entries =>
    rw [mapQubits, operator, operator, List.length_map]
    exact (moves_blockOperator π hts _ _).controlled cs
  | pauli ts cs ps =>
    rw [mapQubits, operator, operator, zip_map_string]
    exact (moves_stringOperator π _).controlled cs
  | rotation ts cs ps angle =>
    rw [mapQubits, operator, operator, zip_map_string]
    exact (moves_mixOperator π _ _ _).controlled cs

end Operators

/-! ### Gates on other qubits -/

section Gates

variable {R : Type} (f : Qubit → Qubit)

/-- The gate with other operands, in the same order. -/
def Gate.mapQubits (g : Gate R) : Gate R :=
  { g with targets := g.targets.map f, controls := g.controls.map f }

/-- The size check counts the targets only. -/
theorem Gate.checkSize_map (kind : GateKind R) (ts : List Qubit) :
    checkSize kind (ts.map f) = checkSize kind ts := by
  simp only [checkSize, List.length_map]

variable {f}

theorem Gate.FactoryBuilt.mapQubits (hf : Function.Injective f) {g : Gate R} (hg : g.FactoryBuilt) :
    (g.mapQubits f).FactoryBuilt := by
  obtain ⟨hts, hsize, hnd, hcount, hmem⟩ := Gate.factoryBuilt_iff.mp hg
  refine Gate.factoryBuilt_iff.mpr ⟨fun hnil => hts (List.map_eq_nil_iff.mp hnil), ?_, ?_, ?_, hmem⟩
  · show checkSize g.kind (g.targets.map f) = .ok ()
    rw [checkSize_map, hsize]
  · show (g.targets.map f ++ g.controls.map f).Nodup
    rw [← List.map_append]
    exact hnd.map hf
  · show (g.controls.map f).length = g.kind.controlCount
    rw [List.length_map, hcount]

theorem Gate.kernel_mapQubits [Scalar R] (g : Gate R) :
    (g.mapQubits f).kernel = g.kernel.mapQubits f := by
  obtain ⟨kind, ts, cs, label⟩ := g
  cases kind <;> rfl

theorem Gate.operands_mapQubits [Scalar R] (g : Gate R) :
    QuantumGate.operands (g.mapQubits f) = (QuantumGate.operands g).map f := by
  show g.targets.map f ++ g.controls.map f = (g.targets ++ g.controls).map f
  rw [List.map_append]

end Gates

/-! ### Circuits -/

namespace Circuit

variable {R : Type}

/-- The circuit with every operand under its new name. -/
def relabelled (c : Circuit (Gate R)) (π : Equiv.Perm (Fin c.qubitCount)) : Circuit (Gate R) :=
  { c with gates := c.gates.map (Gate.mapQubits (renamed π)) }

theorem FactoryBuilt.relabelled {c : Circuit (Gate ℝ)} (hc : c.FactoryBuilt)
    (π : Equiv.Perm (Fin c.qubitCount)) : (c.relabelled π).FactoryBuilt where
  inRegister := by
    intro g hg q hq
    obtain ⟨g', hg', rfl⟩ := List.mem_map.mp hg
    rw [Gate.operands_mapQubits] at hq
    obtain ⟨p, hp, rfl⟩ := List.mem_map.mp hq
    exact renamed_lt π (hc.inRegister g' hg' p hp)
  built := by
    intro g hg
    obtain ⟨g', hg', rfl⟩ := List.mem_map.mp hg
    exact (hc.built g' hg').mapQubits (renamed π).injective

end Circuit

/-- A list of renamed gates does on moved amplitudes what the gates do on the amplitudes. -/
theorem gatesOperator_mapQubits {n : ℕ} (π : Equiv.Perm (Fin n)) : ∀ {gs : List (Gate ℝ)},
    (∀ g ∈ gs, g.targets.Nodup) →
      Moves π (gatesOperator (gs.map (Gate.mapQubits (renamed π)))) (gatesOperator gs)
  | [], _ => moves_id π
  | g :: gs, h => by
    obtain ⟨hg, hgs⟩ := List.forall_mem_cons.mp h
    have hcall : Moves π (g.mapQubits (renamed π)).kernel.operator g.kernel.operator := by
      rw [Gate.kernel_mapQubits]
      refine KernelCall.operator_mapQubits π ?_
      rwa [Gate.targets_kernel]
    exact (gatesOperator_mapQubits π hgs).comp hcall

/-! ### Depth and summary -/

section Depth

variable {f : Qubit → Qubit} {lists : List (List Qubit)}

theorem uses_map (hf : Function.Injective f) {i : ℕ} {q : Qubit} :
    Uses (lists.map (List.map f)) i (f q) ↔ Uses lists i q := by
  constructor
  · rintro ⟨operands, hi, hq⟩
    rw [List.getElem?_map] at hi
    obtain ⟨old, hold, rfl⟩ := Option.map_eq_some_iff.mp hi
    exact ⟨old, hold, (List.mem_map_of_injective hf).mp hq⟩
  · rintro ⟨operands, hi, hq⟩
    exact ⟨operands.map f, by rw [List.getElem?_map, hi]; rfl, List.mem_map_of_mem hq⟩

/-- Only a qubit with an old name is used under the new names. -/
theorem exists_of_uses_map {i : ℕ} {q : Qubit} (h : Uses (lists.map (List.map f)) i q) :
    ∃ p, q = f p := by
  obtain ⟨operands, hi, hq⟩ := h
  rw [List.getElem?_map] at hi
  obtain ⟨old, -, rfl⟩ := Option.map_eq_some_iff.mp hi
  obtain ⟨p, -, rfl⟩ := List.mem_map.mp hq
  exact ⟨p, rfl⟩

/-- **Names do not matter for the depth.** -/
theorem depthOf_map (hf : Function.Injective f) : depthOf (lists.map (List.map f)) = depthOf lists := by
  refine depthOf_congr (List.length_map _) fun i j => ?_
  unfold Linked
  refine and_congr_right fun _ => ?_
  constructor
  · rintro ⟨q, hi, hj⟩
    obtain ⟨p, rfl⟩ := exists_of_uses_map hi
    exact ⟨p, (uses_map hf).mp hi, (uses_map hf).mp hj⟩
  · rintro ⟨q, hi, hj⟩
    exact ⟨f q, (uses_map hf).mpr hi, (uses_map hf).mpr hj⟩

end Depth

namespace Circuit

variable {R : Type} [Scalar R] (c : Circuit (Gate R)) (π : Equiv.Perm (Fin c.qubitCount))

theorem depth_relabelled : (c.relabelled π).depth = c.depth := by
  have hoperands : (c.relabelled π).gates.map QuantumGate.operands =
      (c.gates.map QuantumGate.operands).map (List.map (renamed π)) := by
    rw [relabelled, List.map_map, List.map_map]
    exact List.map_congr_left fun g _ => Gate.operands_mapQubits g
  rw [depth, depth, hoperands, depthOf_map (renamed π).injective]

theorem summary_relabelled : (c.relabelled π).summary = c.summary := by
  have harity : (c.relabelled π).gates.map QuantumGate.arity = c.gates.map QuantumGate.arity := by
    rw [relabelled, List.map_map]
    refine List.map_congr_left fun g _ => ?_
    show (g.targets.map (renamed π)).length + (g.controls.map (renamed π)).length = _
    rw [List.length_map, List.length_map]
    rfl
  have hsize : (c.relabelled π).size = c.size := by
    rw [size, size, relabelled, List.length_map]
  have hclifford : (c.relabelled π).isClifford = c.isClifford := by
    rw [isClifford, isClifford, relabelled, List.all_map]
    rfl
  have hgaussian : (c.relabelled π).isGaussian = c.isGaussian := by
    rw [isGaussian, isGaussian, relabelled, List.all_map]
    rfl
  rw [summary, summary, depth_relabelled, harity, hsize, hclifford, hgaussian]
  rfl

end Circuit

/-- **Runs do not depend on the names of the qubits.** Rename the operands of a circuit of built gates
by a permutation of its qubits, and move the bits of the basis indices of a register in the same way:
the renamed circuit makes of the moved register what comes of moving the register that the circuit
makes. The depth and the summary stay the same. -/
theorem relabelled_execution {c : Circuit (Gate ℝ)} (hc : c.FactoryBuilt)
    (π : Equiv.Perm (Fin c.qubitCount)) {s : StateVector ℝ} (hs : s.WellFormed)
    (hwide : c.qubitCount ≤ s.qubitCount) :
    (∀ b, (s.relabelled π).amp (moveBits π b) = s.amp b) ∧
    (∃ t, c.run s = .ok () t ∧ (c.relabelled π).run (s.relabelled π) = .ok () (t.relabelled π)) ∧
    (c.relabelled π).depth = c.depth ∧ (c.relabelled π).summary = c.summary := by
  refine ⟨StateVector.amp_moveBits π hs hwide, ?_, c.depth_relabelled π, c.summary_relabelled π⟩
  obtain ⟨t, ht, hbecomes⟩ := Circuit.run_becomes hc hs hwide
  have hmoved := StateVector.becomes_relabelled π hs hwide
  obtain ⟨u, hu, hbecomes'⟩ := Circuit.run_becomes (hc.relabelled π) hmoved.wellFormed hwide
  have hwide' : c.qubitCount ≤ t.qubitCount := hwide.trans_eq hbecomes.qubitCount.symm
  have hnodup : ∀ g ∈ c.gates, g.targets.Nodup := fun g hg =>
    (List.nodup_append.mp (hc.built g hg).checked.2).1
  -- first moving the bits and then running, or the other way round: the operators agree
  have hfirst := hmoved.trans hbecomes'
  have hsecond := hbecomes.trans (StateVector.becomes_relabelled π hbecomes.wellFormed hwide')
  have hop : gatesOperator (c.relabelled π).gates ∘ₗ moveOperator π =
      moveOperator π ∘ₗ gatesOperator c.gates := gatesOperator_mapQubits π hnodup
  rw [hop] at hfirst
  exact ⟨t, ht, hfirst.unique hsecond ▸ hu⟩

/-- Three qubits in a chain of gates. -/
def chainCircuit : Circuit (Gate ℝ) :=
  ⟨3, [Gate.single .h 0, { kind := .named .cx, targets := [1], controls := [0] },
    { kind := .named .swap, targets := [1, 2], controls := [] }]⟩

theorem chainCircuit_factoryBuilt : chainCircuit.FactoryBuilt where
  inRegister := by
    unfold Circuit.InRegister
    decide
  built := by
    simp only [chainCircuit, List.forall_mem_cons]
    refine ⟨?_, ?_, ?_, fun g hg => absurd hg List.not_mem_nil⟩
    · exact ⟨⟨.single .h 0, none, _, rfl, rfl⟩, nofun⟩
    · exact ⟨⟨.cx 0 1, none, _, rfl, rfl⟩, nofun⟩
    · exact ⟨⟨.swap 1 2, none, _, rfl, rfl⟩, nofun⟩

/-- Every qubit takes the name of the next, the last one that of the first. -/
def nextNames : Equiv.Perm (Fin chainCircuit.qubitCount) := finRotate 3

/-- The chain, one qubit further. -/
theorem relabelled_execution_chain :
    chainCircuit.FactoryBuilt ∧
    (∃ t : StateVector ℝ, chainCircuit.run (basisState 3 1 : StateVector ℝ) = .ok () t ∧
      (chainCircuit.relabelled nextNames).run
        ((basisState 3 1 : StateVector ℝ).relabelled nextNames) =
          .ok () (t.relabelled nextNames)) ∧
    (chainCircuit.relabelled nextNames).depth = chainCircuit.depth ∧
    (chainCircuit.relabelled nextNames).summary = chainCircuit.summary := by
  have hwide : chainCircuit.qubitCount ≤ (basisState 3 1 : StateVector ℝ).qubitCount := by
    show 3 ≤ 3
    exact Nat.le_refl 3
  obtain ⟨-, hrun, hdepth, hsummary⟩ := relabelled_execution chainCircuit_factoryBuilt nextNames
    (StateVector.wellFormed_basisState 3 1) hwide
  exact ⟨chainCircuit_factoryBuilt, hrun, hdepth, hsummary⟩

end GateCircuit
