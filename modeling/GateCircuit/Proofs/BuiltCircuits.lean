/-
# Circuits of built gates run

A gate that comes from a recipe has passed the checks of its operands and its size, and a circuit has
checked it against its register. So whatever is done to a new circuit with such gates, the circuit runs
between any two positions and on every register that is wide enough: no kernel refuses its operands, and
no access to an array misses, over any scalars.

Key definitions: `Recipe.InMemory`, `Operation.FromFactory`, `Circuit.MadeFromFactory`.
Key theorems: `Recipe.build_factoryBuilt`, `Circuit.operate_factoryBuilt`,
`Circuit.MadeFromFactory.built`, `made_circuit_runs`.
-/
import Mathlib
import GateCircuit.Proofs.Operations

namespace GateCircuit

variable {R : Type}

/-! ### Gates from the factory -/

/-- The matrix of a recipe is held in memory, so it has fewer entries than the largest word counts. -/
def Recipe.InMemory : Recipe R → Prop
  | .dense _ matrix => matrix.size < maxWord
  | _ => True

theorem Recipe.build_factoryBuilt (recipe : Recipe R) {g : Gate R} (hmem : recipe.InMemory)
    (h : recipe.build = .ok g) : g.FactoryBuilt where
  recipe := ⟨recipe, g.label, g, h, rfl⟩
  inMemory entries hkind := by
    cases recipe <;> rw [Recipe.build] at h
    case single gate target =>
      obtain rfl := Except.ok.inj h
      cases hkind
    case dense targets matrix =>
      obtain ⟨-, -, -, rfl⟩ := Gate.make_eq_ok.mp h
      obtain rfl := GateKind.dense.inj hkind
      exact hmem
    all_goals
      obtain ⟨-, -, -, rfl⟩ := Gate.make_eq_ok.mp h
      cases hkind

/-- What an edit takes in comes from the factory, or is a recipe for it. -/
def Edit.FromFactory : Edit (Gate R) R → Prop
  | .push g => g.FactoryBuilt
  | .insert _ g => g.FactoryBuilt
  | .add recipe => recipe.InMemory
  | _ => True

/-- What an operation takes in comes from the factory, or is a recipe for it. -/
def Operation.FromFactory : Operation (Gate R) R → Prop
  | .edit change => change.FromFactory
  | .pushCopy g => g.FactoryBuilt
  | .insertCopy _ g => g.FactoryBuilt
  | .copy => True

section Steps

variable [Scalar R]

/-- An edit brings in built gates only, given such gates and recipes. -/
theorem Edit.Brings.factoryBuilt {e : Edit (Gate R) R} {g : Gate R} (h : e.Brings g)
    (he : e.FromFactory) : g.FactoryBuilt := by
  cases h with
  | push => exact he
  | insert => exact he
  | add hbuild => exact Recipe.build_factoryBuilt _ he hbuild
  | addTermPauli hbuild => exact Recipe.build_factoryBuilt (.pauli _ _) trivial hbuild
  | addTermRotation hbuild => exact Recipe.build_factoryBuilt (.rotation _ _ _) trivial hbuild
  | lowerDiagonal _ hbuild => exact Recipe.build_factoryBuilt (.rotation _ _ _) trivial hbuild
  | lower _ hbuild => exact Recipe.build_factoryBuilt (.rotation _ _ _) trivial hbuild

namespace Circuit

variable {c c' : Circuit (Gate R)}

theorem edit_factoryBuilt (hc : ∀ g ∈ c.gates, g.FactoryBuilt) {e : Edit (Gate R) R}
    (he : e.FromFactory) (h : c.edit e = .ok c') : ∀ g ∈ c'.gates, g.FactoryBuilt := by
  intro g hg
  rcases (edit_gates h).2 g hg with hold | ⟨hbrings, -⟩
  · exact hc g hold
  · exact hbrings.factoryBuilt he

/-- **An operation keeps the gates built.** A copy of a built gate is the gate itself. -/
theorem operate_factoryBuilt (hc : ∀ g ∈ c.gates, g.FactoryBuilt) {op : Operation (Gate R) R}
    (hop : op.FromFactory) (h : c.operate id op = .ok c') : ∀ g ∈ c'.gates, g.FactoryBuilt := by
  cases op with
  | edit change => exact edit_factoryBuilt hc hop h
  | pushCopy g => exact edit_factoryBuilt (e := .push g) hc hop h
  | insertCopy index g =>
    rw [operate, insertCopy_eq_insert] at h
    exact edit_factoryBuilt (e := .insert index g) hc hop h
  | copy =>
    obtain rfl := Except.ok.inj h
    rwa [copied, List.map_id]

/-- A circuit that operations with gates from the factory make of a new one. -/
def MadeFromFactory (c : Circuit (Gate R)) : Prop :=
  ∃ (n : ℕ) (start : Circuit (Gate R)) (list : List (Operation (Gate R) R)),
    Circuit.new (R := R) n = .ok start ∧ (∀ op ∈ list, op.FromFactory) ∧
      c = start.operations id list

theorem MadeFromFactory.built (hc : c.MadeFromFactory) :
    c.InRegister ∧ ∀ g ∈ c.gates, g.FactoryBuilt := by
  obtain ⟨n, start, list, hnew, hlist, rfl⟩ := hc
  obtain ⟨-, rfl⟩ := new_eq_ok.mp hnew
  have hempty : ∀ {P : Gate R → Prop}, ∀ g ∈ ([] : List (Gate R)), P g :=
    fun g hg => absurd hg List.not_mem_nil
  refine operations_induction
    (motive := fun c : Circuit (Gate R) => c.InRegister ∧ ∀ g ∈ c.gates, g.FactoryBuilt)
    ⟨hempty, hempty⟩ fun c c' op hop hc h => ?_
  obtain ⟨hin, -⟩ := operate_inRegister (fun _ => rfl) hc.1 h
  exact ⟨hin, operate_factoryBuilt hc.2 (hlist op hop) h⟩

end Circuit

/-! ### Runs -/

/-- The matrix that a built gate passes to its kernel has all its rows. -/
theorem Gate.FactoryBuilt.kernel_hasRows {g : Gate R} (hg : g.FactoryBuilt) : g.kernel.HasRows := by
  cases hg.calls with
  | @named gate hkind hlen hkernel =>
    rw [hkernel, KernelCall.HasRows, hlen]
    cases gate with
    | single gate => cases gate <;> exact Nat.le_refl 4
    | cx => exact Nat.le_refl 4
    | cz => exact Nat.le_refl 4
    | swap => exact Nat.le_refl 16
  | pauli hkind hlen hkernel =>
    rw [hkernel]
    trivial
  | rotation hkind hlen hkernel =>
    rw [hkernel]
    trivial
  | dense hkind hsize hkernel =>
    have hmem := hg.inMemory _ hkind
    rw [hsize] at hmem
    rw [hkernel, KernelCall.HasRows, hsize, (matrixSize_square hmem).2]

/-- A range inside the gate list applies its gates, on a state that is wide enough. -/
theorem Circuit.runRange_eq_applyAll {γ σ R : Type} [QuantumGate γ R] [QuantumState σ R]
    {c : Circuit γ} {s : σ} {start stop : ℕ} (hstart : start ≤ stop) (hstop : stop ≤ c.size)
    (hwide : c.qubitCount ≤ QuantumState.qubitCount s) :
    c.runRange start stop s = applyAll ((c.gates.drop start).take (stop - start)) s := by
  rw [runRange, if_neg (by omega), if_neg (Nat.not_lt.mpr hwide)]

end Steps

/-- **A circuit of built gates cannot fail.** Whatever operations have made of a new circuit with gates
from the factory, it runs between any two positions, in this order, of its gate list on every register
that has as many qubits as the circuit. No gate is refused. The same run on a guarded register ends with
the same register, so no access to an array has missed. -/
theorem made_circuit_runs [Scalar R] {c : Circuit (Gate R)} (hc : c.MadeFromFactory)
    {s : StateVector R} (hs : s.WellFormed) (hwide : c.qubitCount ≤ s.qubitCount) {start stop : ℕ}
    (hstart : start ≤ stop) (hstop : stop ≤ c.size) :
    ∃ t : StateVector R, c.runRange start stop s = .ok () t ∧
      c.runRange start stop (⟨some s⟩ : GuardedRegister R) = .ok () ⟨some t⟩ ∧
      t.WellFormed ∧ t.qubitCount = s.qubitCount := by
  obtain ⟨hin, hbuilt⟩ := hc.built
  have hfits : ∀ g ∈ (c.gates.drop start).take (stop - start),
      g.kernel.Fits s.qubitCount ∧ g.kernel.HasRows := by
    intro g hg
    have hmem : g ∈ c.gates := List.mem_of_mem_drop (List.mem_of_mem_take hg)
    exact ⟨((hbuilt g hmem).kernel_fits (hin g hmem)).mono hwide, (hbuilt g hmem).kernel_hasRows⟩
  obtain ⟨t, ht, ht', hwf, hcount⟩ := applyAll_guarded hs hfits
  refine ⟨t, ?_, ?_, hwf, hcount⟩
  · rw [Circuit.runRange_eq_applyAll hstart hstop hwide, ht]
  · rw [Circuit.runRange_eq_applyAll hstart hstop hwide, ht']

/-- A labelled gate, a matrix on two qubits, copies and a lowered term, with refusals on the way. -/
def factoryHistory : List (Operation (Gate Float) Float) :=
  [.edit (.push ((Gate.single .h 1).withLabel "first")), .edit (.add (.cx 0 0)),
    .edit (.add (.dense [0, 2] NamedGate.swap.matrix)), .pushCopy (.single .t 3),
    .insertCopy 0 (.single .t 2), .copy, .edit (.lower ⟨3, [.zz 0 2 1]⟩ 1 2)]

theorem factoryHistory_fromFactory : ∀ op ∈ factoryHistory, op.FromFactory := by
  have hsingle : ∀ (gate : OneQubitGate Float) (q : Qubit), (Gate.single gate q).FactoryBuilt :=
    fun gate q => Recipe.build_factoryBuilt (.single gate q) trivial rfl
  have hlabelled : ((Gate.single .h 1 : Gate Float).withLabel "first").FactoryBuilt :=
    ⟨⟨.single .h 1, some "first", _, rfl, rfl⟩, fun _ h => by cases h⟩
  have hswap : (NamedGate.swap.matrix : Array (Amplitude Float)).size < maxWord := by decide
  simp only [factoryHistory, List.forall_mem_cons]
  exact ⟨hlabelled, trivial, hswap, hsingle .t 3, hsingle .t 2, trivial, trivial,
    fun op hop => absurd hop List.not_mem_nil⟩

/-- What the history makes of a new circuit. -/
def factoryCircuit : Circuit (Gate Float) :=
  (⟨3, []⟩ : Circuit (Gate Float)).operations id factoryHistory

/-- Over doubles, on a register with a qubit to spare: the second half of the circuit. -/
theorem made_circuit_runs_half :
    factoryCircuit.MadeFromFactory ∧
    factoryCircuit.qubitCount ≤ (basisState 4 9 : StateVector Float).qubitCount ∧
    ∃ t : StateVector Float,
      factoryCircuit.runRange (factoryCircuit.size / 2) factoryCircuit.size
        (basisState 4 9 : StateVector Float) = .ok () t ∧
      factoryCircuit.runRange (factoryCircuit.size / 2) factoryCircuit.size
        (⟨some (basisState 4 9)⟩ : GuardedRegister Float) = .ok () ⟨some t⟩ := by
  have hmade : factoryCircuit.MadeFromFactory :=
    ⟨3, ⟨3, []⟩, factoryHistory, rfl, factoryHistory_fromFactory, rfl⟩
  have hempty : (⟨3, []⟩ : Circuit (Gate Float)).InRegister := fun g hg => absurd hg List.not_mem_nil
  have hcount : factoryCircuit.qubitCount = 3 :=
    (Circuit.operations_inRegister (fun _ => rfl) hempty factoryHistory).2
  have hwide : factoryCircuit.qubitCount ≤ (basisState 4 9 : StateVector Float).qubitCount := by
    rw [hcount]
    show 3 ≤ 4
    decide
  obtain ⟨t, ht, ht', -, -⟩ := made_circuit_runs hmade (StateVector.wellFormed_basisState 4 9) hwide
    (Nat.div_le_self factoryCircuit.size 2) le_rfl
  exact ⟨hmade, hwide, t, ht, ht'⟩

end GateCircuit
