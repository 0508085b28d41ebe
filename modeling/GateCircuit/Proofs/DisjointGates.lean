/-
# Gates on disjoint qubits commute

A gate acts on its operands only, targets and controls, whichever kernel it calls. Two neighbours in a
circuit that share no operand can therefore change places, and every register ends up the same. This is
what allows them to stand in one layer of the depth.

Key definition: `Circuit.exchanged`.
Key theorems: `Circuit.exchanged_perm`, `Circuit.exists_exchange`, `gatesOperator_exchange`,
`disjoint_gates_commute`.
-/
import Mathlib
import GateCircuit.Proofs.CircuitOperator
import GateCircuit.Proofs.Support

namespace GateCircuit

variable {γ : Type}

/-- The circuit with the gates at the positions `i` and `i + 1` in each other's place. -/
def Circuit.exchanged (c : Circuit γ) (i : ℕ) : Circuit γ :=
  { c with gates := c.gates.take i ++ ((c.gates.drop i).take 2).reverse ++ c.gates.drop (i + 2) }

/-- An exchange neither loses a gate nor brings one in. -/
theorem Circuit.exchanged_perm (c : Circuit γ) (i : ℕ) : (c.exchanged i).gates.Perm c.gates := by
  have hrest : c.gates.take i ++ (c.gates.drop i).take 2 ++ c.gates.drop (i + 2) = c.gates := by
    rw [List.append_assoc, ← List.drop_drop, List.take_append_drop, List.take_append_drop]
  calc (c.exchanged i).gates
      = c.gates.take i ++ ((c.gates.drop i).take 2).reverse ++ c.gates.drop (i + 2) := rfl
    List.Perm _ (c.gates.take i ++ (c.gates.drop i).take 2 ++ c.gates.drop (i + 2)) :=
      ((List.reverse_perm _).append_left _).append_right _
    _ = c.gates := hrest

/-- The two gates change places, and all others keep theirs. -/
theorem Circuit.exists_exchange {c : Circuit γ} {i : ℕ} {g g' : γ} (hg : c.gates[i]? = some g)
    (hg' : c.gates[i + 1]? = some g') : ∃ before after : List γ, before.length = i ∧
      c.gates = before ++ g :: g' :: after ∧
      (c.exchanged i).gates = before ++ g' :: g :: after := by
  obtain ⟨hi, hget⟩ := List.getElem?_eq_some_iff.mp hg
  obtain ⟨hi', hget'⟩ := List.getElem?_eq_some_iff.mp hg'
  have hdrop : c.gates.drop i = g :: g' :: c.gates.drop (i + 2) := by
    rw [List.drop_eq_getElem_cons hi, List.drop_eq_getElem_cons hi', hget, hget']
  refine ⟨c.gates.take i, c.gates.drop (i + 2), List.length_take_of_le hi.le, ?_, ?_⟩
  · rw [← hdrop, List.take_append_drop]
  · simp only [exchanged, hdrop, List.take_succ_cons, List.take_zero, List.reverse_cons,
      List.reverse_nil, List.nil_append, List.cons_append, List.append_assoc]

/-- A gate acts on its operands. -/
theorem Gate.actsOn_operands {g : Gate ℝ} {n : ℕ} (hg : g.kernel.Fits n) :
    ActsOn (QuantumGate.operands g) g.kernel.operator := by
  have hacts := hg.actsOn
  rw [Gate.targets_kernel, Gate.controls_kernel] at hacts
  exact hacts

/-- Neighbours without a common operand can change places in a list of gates. -/
theorem gatesOperator_exchange {g g' : Gate ℝ} {n : ℕ} (hg : g.kernel.Fits n)
    (hg' : g'.kernel.Fits n)
    (hdisjoint : (QuantumGate.operands g).Disjoint (QuantumGate.operands g'))
    (before after : List (Gate ℝ)) :
    gatesOperator (before ++ g :: g' :: after) = gatesOperator (before ++ g' :: g :: after) := by
  have hcomm : g'.kernel.operator ∘ₗ g.kernel.operator = g.kernel.operator ∘ₗ g'.kernel.operator :=
    (Gate.actsOn_operands hg').comp_comm (Gate.actsOn_operands hg) hdisjoint.symm
  have hpair : gatesOperator (g :: g' :: after) = gatesOperator (g' :: g :: after) := by
    simp only [gatesOperator, LinearMap.comp_assoc, hcomm]
  rw [gatesOperator_append, gatesOperator_append, hpair]

/-- A circuit on the same register with no other gates is built of the same gates. -/
theorem Circuit.FactoryBuilt.of_subset {c c' : Circuit (Gate ℝ)} (hc : c.FactoryBuilt)
    (hcount : c'.qubitCount = c.qubitCount) (h : c'.gates ⊆ c.gates) : c'.FactoryBuilt where
  inRegister g hg q hq := hcount ▸ hc.inRegister g (h hg) q hq
  built g hg := hc.built g (h hg)

/-- **Gates on disjoint qubits commute.** Exchange two neighbours of a circuit of built gates that have no
operand in common, be it a target or a control: on every register that is wide enough both circuits run,
and they end with the same amplitudes. -/
theorem disjoint_gates_commute {c : Circuit (Gate ℝ)} (hc : c.FactoryBuilt) {i : ℕ} {g g' : Gate ℝ}
    (hg : c.gates[i]? = some g) (hg' : c.gates[i + 1]? = some g')
    (hdisjoint : (QuantumGate.operands g).Disjoint (QuantumGate.operands g'))
    {s : StateVector ℝ} (hs : s.WellFormed) (hwide : c.qubitCount ≤ s.qubitCount) :
    ∃ t, c.run s = .ok () t ∧ (c.exchanged i).run s = .ok () t := by
  obtain ⟨before, after, -, hgates, hgates'⟩ := Circuit.exists_exchange hg hg'
  have hop : gatesOperator c.gates = gatesOperator (c.exchanged i).gates := by
    have hfits : ∀ a ∈ c.gates, a.kernel.Fits c.qubitCount := hc.fits le_rfl
    rw [hgates, hgates']
    exact gatesOperator_exchange (hfits g (List.mem_of_getElem? hg))
      (hfits g' (List.mem_of_getElem? hg')) hdisjoint before after
  obtain ⟨t, ht, hbecomes⟩ := Circuit.run_becomes hc hs hwide
  have hbuilt : (c.exchanged i).FactoryBuilt := hc.of_subset rfl (c.exchanged_perm i).subset
  obtain ⟨t', ht', hbecomes'⟩ := Circuit.run_becomes hbuilt hs hwide
  rw [← hop] at hbecomes'
  exact ⟨t, ht, hbecomes.unique hbecomes' ▸ ht'⟩

/-- A labelled controlled `x` that spans a qubit in between. -/
def farNot : Gate ℝ := { kind := .named .cx, targets := [2], controls := [0], label := "far" }

/-- A rotation about `y` on the qubit in between. -/
noncomputable def middleTurn : Gate ℝ :=
  { kind := .rotation [.Y] (1 / 2), targets := [1], controls := [] }

/-- A Hadamard gate, and then two gates that fit into one layer. -/
noncomputable def layeredCircuit : Circuit (Gate ℝ) := ⟨3, [Gate.single .h 0, farNot, middleTurn]⟩

theorem layeredCircuit_factoryBuilt : layeredCircuit.FactoryBuilt where
  inRegister := by
    unfold Circuit.InRegister
    decide
  built := by
    intro g hg
    simp only [layeredCircuit, List.mem_cons, List.not_mem_nil, or_false] at hg
    rcases hg with rfl | rfl | rfl
    · exact ⟨⟨.single .h 0, none, _, rfl, rfl⟩, by simp [Gate.single]⟩
    · exact ⟨⟨.cx 0 2, some "far", _, rfl, rfl⟩, by simp [farNot]⟩
    · exact ⟨⟨.rotation [1] [.Y] (1 / 2), none, _, rfl, rfl⟩, by simp [middleTurn]⟩

/-- The last two gates change places; the register has a qubit to spare. -/
theorem disjoint_gates_commute_layered :
    layeredCircuit.FactoryBuilt ∧
    ∃ t : StateVector ℝ, layeredCircuit.run (basisState 4 9 : StateVector ℝ) = .ok () t ∧
      (layeredCircuit.exchanged 1).run (basisState 4 9 : StateVector ℝ) = .ok () t := by
  have hdisjoint : (QuantumGate.operands farNot).Disjoint (QuantumGate.operands middleTurn) := by
    show [2, 0].Disjoint [1]
    simp
  have hwide : layeredCircuit.qubitCount ≤ (basisState 4 9 : StateVector ℝ).qubitCount := by
    show 3 ≤ 4
    decide
  exact ⟨layeredCircuit_factoryBuilt, disjoint_gates_commute layeredCircuit_factoryBuilt rfl rfl
    hdisjoint (StateVector.wellFormed_basisState 4 9) hwide⟩

end GateCircuit
