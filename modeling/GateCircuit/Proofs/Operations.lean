/-
# Operations keep a circuit inside its register

What holds of a new circuit and survives every operation that succeeds holds after all operations, since
those that fail change nothing. Operations put gates in only inside the register, and a copy of the
circuit has its gates on the same qubits. So the register stays as wide as it was made, and no gate ever
leaves it. The analysis of depth relies on that: with the layers kept in a table that has one entry for
each qubit of the register, every operand that is looked up has an entry.

Key definitions: `LayerTable`, `tableDepth`.
Key theorems: `Circuit.operations_induction`, `Circuit.operations_inRegister`, `tableDepth_eq`,
`operations_keep_register`.
-/
import Mathlib
import GateCircuit.Circuit.Operation
import GateCircuit.Proofs.CheckedAccess
import GateCircuit.Proofs.CriticalPath

namespace GateCircuit

/-! ### Single operations -/

namespace Circuit

theorem new_eq_ok {γ R : Type} {n : ℕ} {c : Circuit γ} :
    Circuit.new (R := R) n = .ok c ↔ n ≠ 0 ∧ c = ⟨n, []⟩ := by
  unfold new
  by_cases hn : n = 0
  · simp [hn]
  · simp [hn, eq_comm]

variable {γ R : Type} [Scalar R] [CarriesGates γ R] {copyGate : γ → γ} {c c' : Circuit γ}

/-- The position of a copied gate is checked twice, and the second check says nothing new. -/
theorem insertCopy_eq_insert (c : Circuit γ) (index : ℕ) (g : γ) :
    c.insertCopy copyGate index g = c.insert index (copyGate g) := by
  unfold insertCopy
  split
  · rename_i hindex
    rw [insert, if_pos hindex]
    rfl
  · rfl

/-- **An operation keeps the gates inside the register**, and the register as wide as it was. -/
theorem operate_inRegister
    (hcopy : ∀ g, QuantumGate.operands (copyGate g) = QuantumGate.operands g) (hc : c.InRegister)
    {op : Operation γ R} (h : c.operate copyGate op = .ok c') :
    c'.InRegister ∧ c'.qubitCount = c.qubitCount := by
  cases op with
  | edit change => exact edit_inRegister hc h
  | pushCopy g => exact edit_inRegister (e := .push (copyGate g)) hc h
  | insertCopy index g =>
    rw [operate, insertCopy_eq_insert] at h
    exact edit_inRegister (e := .insert index (copyGate g)) hc h
  | copy =>
    obtain rfl := Except.ok.inj h
    refine ⟨fun g hg => ?_, rfl⟩
    obtain ⟨g', hg', rfl⟩ := List.mem_map.mp hg
    rw [hcopy]
    exact hc g' hg'

/-- What a circuit has, and every operation that succeeds keeps, the circuit has after all of them. -/
theorem operations_induction {motive : Circuit γ → Prop} :
    ∀ {list : List (Operation γ R)} {c : Circuit γ}, motive c →
      (∀ (c c' : Circuit γ), ∀ op ∈ list, motive c → c.operate copyGate op = .ok c' → motive c') →
      motive (c.operations copyGate list) := by
  intro list
  induction list with
  | nil => exact fun hc _ => hc
  | cons op list ih =>
    intro c hc hstep
    have hlist := fun c c' op' hop => hstep c c' op' (List.mem_cons_of_mem _ hop)
    rw [operations, List.foldl_cons]
    cases hop : c.operate copyGate op with
    | error e => exact ih hc hlist
    | ok after => exact ih (hstep c after op List.mem_cons_self hc hop) hlist

/-- Any number of operations keep the gates inside the register, failed ones among them or not. -/
theorem operations_inRegister
    (hcopy : ∀ g, QuantumGate.operands (copyGate g) = QuantumGate.operands g) (hc : c.InRegister)
    (list : List (Operation γ R)) :
    (c.operations copyGate list).InRegister ∧
      (c.operations copyGate list).qubitCount = c.qubitCount := by
  refine operations_induction (motive := fun c' => c'.InRegister ∧ c'.qubitCount = c.qubitCount)
    ⟨hc, rfl⟩ fun c' c'' op _ hc' h => ?_
  obtain ⟨hin, hcount⟩ := operate_inRegister hcopy hc'.1 h
  exact ⟨hin, hcount.trans hc'.2⟩

end Circuit

/-! ### Layers in a table -/

/-- The layer of the last gate on each qubit of a register, one entry for each qubit. -/
abbrev LayerTable := Array ℕ

namespace LayerTable

/-- The highest layer among `operands`; none if the table has no entry for one of them. -/
def top? (table : LayerTable) : List Qubit → Option ℕ
  | [] => some 0
  | q :: operands => do
    let layer ← table[q]?
    let rest ← top? table operands
    some (max layer rest)

/-- The table after a gate with these operands has landed on `layer`; none if the table has no entry for
one of them. -/
def land? (layer : ℕ) : LayerTable → List Qubit → Option LayerTable
  | table, [] => some table
  | table, q :: operands => do
    let table ← write? table q layer
    land? layer table operands

end LayerTable

/-- The depth reached from a given table and a depth so far; none if an operand has no entry. -/
def tableDepthFrom (table : LayerTable) (depth : ℕ) : List (List Qubit) → Option ℕ
  | [] => some depth
  | operands :: rest => do
    let top ← table.top? operands
    let table ← LayerTable.land? (top + 1) table operands
    tableDepthFrom table (max depth (top + 1)) rest

/-- The depth of gates with these operands, by a table for `n` qubits. -/
def tableDepth (n : ℕ) (operandLists : List (List Qubit)) : Option ℕ :=
  tableDepthFrom (Array.replicate n 0) 0 operandLists

namespace LayerTable

/-- The table holds the layers of the first `n` qubits. -/
structure Holds (table : LayerTable) (n : ℕ) (layers : Layers) : Prop where
  size : table.size = n
  entries : ∀ q < n, table[q]? = some (layers.getD q 0)

variable {table : LayerTable} {n : ℕ} {layers : Layers}

theorem Holds.top?_eq (h : table.Holds n layers) : ∀ {operands : List Qubit},
    (∀ q ∈ operands, q < n) → table.top? operands = some (layers.top operands)
  | [], _ => rfl
  | q :: operands, hin => by
    obtain ⟨hq, hrest⟩ := List.forall_mem_cons.mp hin
    rw [top?, h.entries q hq, h.top?_eq hrest, Layers.top_cons]
    rfl

/-- One entry is moved to a layer. -/
theorem Holds.written (h : table.Holds n layers) (layer : ℕ) {q : Qubit} (hq : q < n) :
    ∃ after, write? table q layer = some after ∧ Holds after n (layers.insert q layer) := by
  have hlt : q < table.size := by rwa [h.size]
  refine ⟨_, write?_eq_some hlt layer, ?_, fun p hp => ?_⟩
  · rw [Array.size_setIfInBounds, h.size]
  · rw [Std.HashMap.getD_insert, Array.getElem?_setIfInBounds]
    by_cases hpq : q = p
    · simp [hpq, h.size, hp]
    · simp [hpq, h.entries p hp]

theorem Holds.landed (layer : ℕ) : ∀ {operands : List Qubit} {table : LayerTable} {layers : Layers},
    table.Holds n layers → (∀ q ∈ operands, q < n) →
    ∃ after, land? layer table operands = some after ∧ Holds after n (layers.land operands layer)
  | [], table, _, h, _ => ⟨table, rfl, h⟩
  | q :: operands, table, layers, h, hin => by
    obtain ⟨hq, hrest⟩ := List.forall_mem_cons.mp hin
    obtain ⟨written, hwritten, hholds⟩ := h.written layer hq
    obtain ⟨after, hafter, hholds'⟩ := hholds.landed layer hrest
    refine ⟨after, ?_, hholds'⟩
    rw [land?, hwritten]
    exact hafter

end LayerTable

/-- **No operand is looked up in vain** if all of them lie inside the register, and the table leads to
the depth. -/
theorem tableDepth_eq {n : ℕ} {lists : List (List Qubit)}
    (h : ∀ operands ∈ lists, ∀ q ∈ operands, q < n) : tableDepth n lists = some (depthOf lists) := by
  have hfrom : ∀ (lists : List (List Qubit)) (table : LayerTable) (layers : Layers) (depth : ℕ),
      table.Holds n layers → (∀ operands ∈ lists, ∀ q ∈ operands, q < n) →
      tableDepthFrom table depth lists = some (depthFrom layers depth lists) := by
    intro lists
    induction lists with
    | nil => exact fun _ _ _ _ _ => rfl
    | cons operands rest ih =>
      intro table layers depth hholds hin
      obtain ⟨hoperands, hrest⟩ := List.forall_mem_cons.mp hin
      obtain ⟨after, hafter, hholds'⟩ :=
        hholds.landed (layers.top operands + 1) hoperands
      have hnext := ih after _ (max depth (layers.top operands + 1)) hholds' hrest
      rw [tableDepthFrom, hholds.top?_eq hoperands]
      simp only [Option.bind_eq_bind, Option.bind_some, hafter, hnext]
      rfl
  refine hfrom lists _ ∅ 0 ⟨Array.size_replicate, fun q hq => ?_⟩ h
  simp [hq]

/-! ### Runs of operations -/

/-- **The register invariant.** Whatever is done to a new circuit, with gates of any type whose copies
have the operands of the originals, the circuit keeps its register, which has a qubit at least, and all
operands of its gates lie inside. So its depth can be found in a table with one entry for each qubit. -/
theorem operations_keep_register {γ R : Type} [Scalar R] [CarriesGates γ R] {copyGate : γ → γ}
    (hcopy : ∀ g, QuantumGate.targets (copyGate g) = QuantumGate.targets g ∧
      QuantumGate.controls (copyGate g) = QuantumGate.controls g)
    {n : ℕ} {start : Circuit γ} (hnew : Circuit.new (R := R) n = .ok start)
    (list : List (Operation γ R)) :
    1 ≤ n ∧ (start.operations copyGate list).qubitCount = n ∧
    (∀ g ∈ (start.operations copyGate list).gates,
      ∀ q ∈ QuantumGate.targets g ++ QuantumGate.controls g, q < n) ∧
    tableDepth n ((start.operations copyGate list).gates.map QuantumGate.operands) =
      some (start.operations copyGate list).depth := by
  obtain ⟨hn, rfl⟩ := Circuit.new_eq_ok.mp hnew
  have hoperands : ∀ g, QuantumGate.operands (copyGate g) = QuantumGate.operands g := fun g => by
    rw [QuantumGate.operands, (hcopy g).1, (hcopy g).2, QuantumGate.operands]
  have hempty : (⟨n, []⟩ : Circuit γ).InRegister := fun g hg => absurd hg List.not_mem_nil
  obtain ⟨hin, hcount⟩ := Circuit.operations_inRegister hoperands hempty list
  rw [Circuit.InRegister, hcount] at hin
  refine ⟨Nat.one_le_iff_ne_zero.mpr hn, hcount, hin, tableDepth_eq fun operands hops => ?_⟩
  obtain ⟨g, hg, rfl⟩ := List.mem_map.mp hops
  exact hin g hg

/-- Gates put in, built, copied under a label, taken out and lowered, with two refusals on the way. -/
noncomputable def labelledHistory : List (Operation (Gate ℝ) ℝ) :=
  [.edit (.add (.cx 0 1)), .pushCopy (.single .x 5), .insertCopy 0 (.single .h 2),
    .insertCopy 7 (.single .h 2), .edit (.lower ⟨3, [.zz 0 2 1]⟩ 1 2), .edit (.erase 0), .copy]

/-- What the history makes of a new circuit, with labels on all copies. -/
noncomputable def labelledCircuit : Circuit (Gate ℝ) :=
  (⟨3, []⟩ : Circuit (Gate ℝ)).operations (Gate.withLabel · "copy") labelledHistory

theorem operations_keep_register_labelled :
    Circuit.new (R := ℝ) 3 = .ok (⟨3, []⟩ : Circuit (Gate ℝ)) ∧
    (∀ g : Gate ℝ, (g.withLabel "copy").targets = g.targets ∧
      (g.withLabel "copy").controls = g.controls) ∧
    labelledCircuit.qubitCount = 3 ∧
    (∀ g ∈ labelledCircuit.gates, ∀ q ∈ g.targets ++ g.controls, q < 3) ∧
    tableDepth 3 (labelledCircuit.gates.map QuantumGate.operands) = some labelledCircuit.depth := by
  have hnew : Circuit.new (R := ℝ) 3 = .ok (⟨3, []⟩ : Circuit (Gate ℝ)) := rfl
  have hcopy : ∀ g : Gate ℝ,
      QuantumGate.targets (g.withLabel "copy") = QuantumGate.targets g ∧
        QuantumGate.controls (g.withLabel "copy") = QuantumGate.controls g := fun _ => ⟨rfl, rfl⟩
  obtain ⟨-, hcount, hin, hdepth⟩ := operations_keep_register hcopy hnew labelledHistory
  exact ⟨hnew, hcopy, hcount, hin, hdepth⟩

end GateCircuit
