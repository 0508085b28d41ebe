/-
# Gates that can be built

A recipe yields a gate exactly if the gate has a target or is a Pauli string, its matrix or string
has the right size, and no operand is listed twice; the first operand that repeats an earlier one is
the one complained about. A gate that has been built calls a kernel with arguments of the right size,
so it can be carried out on every register that its operands lie in.

Key definitions: `FirstRepeated`, `Recipe.kind`, `Gate.FactoryBuilt`, `Gate.Calls`.
Key theorems: `firstRepeat_eq_none`, `firstRepeat_eq_some`, `Recipe.build_eq_make`, `Gate.make_eq_ok`,
`Gate.factoryBuilt_iff`, `Gate.FactoryBuilt.calls`, `Gate.FactoryBuilt.kernel_fits`.
-/
import Mathlib
import GateCircuit.Gate.Recipe
import GateCircuit.Proofs.MatrixKernel

namespace GateCircuit

open Outcome

/-! ### Repeated operands -/

theorem firstRepeat_eq_none {seen : List Qubit} : ∀ {qs : List Qubit},
    firstRepeat seen qs = none ↔ qs.Nodup ∧ ∀ q ∈ qs, q ∉ seen
  | [] => by simp [firstRepeat]
  | q :: qs => by
    rw [firstRepeat]
    by_cases hq : q ∈ seen
    · simp [hq]
    rw [if_neg hq, firstRepeat_eq_none, List.nodup_cons, List.forall_mem_cons]
    constructor
    · rintro ⟨hnd, hnew⟩
      have hq' : q ∉ qs := fun h => hnew q h List.mem_cons_self
      exact ⟨⟨hq', hnd⟩, hq, fun p hp h => hnew p hp (List.mem_cons_of_mem _ h)⟩
    · rintro ⟨⟨hq', hnd⟩, -, hnew⟩
      refine ⟨hnd, fun p hp h => ?_⟩
      rcases List.mem_cons.mp h with rfl | h
      · exact hq' hp
      · exact hnew p hp h

/-- The repeat that is found is the first one: nothing before it repeats. -/
theorem firstRepeat_eq_some {q : Qubit} : ∀ {seen qs : List Qubit},
    firstRepeat seen qs = some q ↔
      ∃ before after, qs = before ++ q :: after ∧ firstRepeat seen before = none ∧
        (q ∈ seen ∨ q ∈ before)
  | seen, [] => by simp [firstRepeat]
  | seen, p :: qs => by
    rw [firstRepeat]
    by_cases hp : p ∈ seen
    · rw [if_pos hp]
      constructor
      · rintro h
        obtain rfl := Option.some.inj h
        exact ⟨[], qs, rfl, rfl, .inl hp⟩
      · rintro ⟨_ | ⟨p', before⟩, after, heq, hnone, -⟩
        · rw [(List.cons.inj heq).1]
        · -- a repeat at the head leaves nothing before it
          obtain ⟨rfl, -⟩ := List.cons.inj heq
          rw [firstRepeat, if_pos hp] at hnone
          cases hnone
    · rw [if_neg hp, firstRepeat_eq_some]
      constructor
      · rintro ⟨before, after, rfl, hnone, hq⟩
        refine ⟨p :: before, after, rfl, by rwa [firstRepeat, if_neg hp], ?_⟩
        simpa [or_assoc, or_comm, or_left_comm] using hq
      · rintro ⟨_ | ⟨p', before⟩, after, heq, hnone, hq⟩
        · rw [← (List.cons.inj heq).1] at hq
          simp [hp] at hq
        · obtain ⟨rfl, rfl⟩ := List.cons.inj heq
          rw [firstRepeat, if_neg hp] at hnone
          refine ⟨before, after, rfl, hnone, ?_⟩
          simpa [or_assoc, or_comm, or_left_comm] using hq

/-- `q` is the first of the qubits that has occurred before. -/
def FirstRepeated (qs : List Qubit) (q : Qubit) : Prop :=
  ∃ before after, qs = before ++ q :: after ∧ before.Nodup ∧ q ∈ before

theorem firstRepeat_nil_eq_some {q : Qubit} {qs : List Qubit} :
    firstRepeat [] qs = some q ↔ FirstRepeated qs q := by
  simp only [firstRepeat_eq_some, firstRepeat_eq_none, FirstRepeated, List.not_mem_nil,
    not_false_eq_true, implies_true, and_true, false_or]

/-! ### Sizes -/

theorem size_namedMatrix {R : Type} [Scalar R] (gate : NamedGate R) :
    gate.matrix.size = blockEntries (blockSize gate.targetCount) := by
  cases gate with
  | single gate => cases gate <;> rfl
  | cx => rfl
  | cz => rfl
  | swap => rfl

/-- A matrix size within its word is that of a matrix with as many columns as rows. -/
theorem matrixSize_square {k : ℕ} (h : matrixSize k < maxWord) :
    k % 64 < 32 ∧ matrixSize k = blockSize k * blockSize k := by
  by_cases hshift : 2 * k % (maxCount + 1) < 64
  · have hk : k % 64 < 32 := by
      unfold maxCount at hshift
      omega
    have hword : 2 * k % (maxCount + 1) = k % 64 + k % 64 := by
      unfold maxCount at hshift ⊢
      omega
    refine ⟨hk, ?_⟩
    rw [matrixSize, if_pos hshift, hword, blockSize, Nat.one_shiftLeft, Nat.one_shiftLeft, pow_add]
  · rw [matrixSize, if_neg hshift] at h
    exact absurd h (lt_irrefl _)

/-- The two ways to count the entries of a matrix agree where neither leaves its word. -/
theorem matrixSize_eq {k : ℕ} (h : matrixSize k < maxWord) :
    matrixSize k = blockEntries (blockSize k) := by
  obtain ⟨hk, hsquare⟩ := matrixSize_square h
  rw [hsquare, blockSize, Nat.one_shiftLeft, blockEntries_eq hk]

/-- The number of controls of a gate of a kind. -/
def GateKind.controlCount {R : Type} : GateKind R → ℕ
  | named gate => gate.controlCount
  | _ => 0

/-! ### Recipes -/

namespace Recipe

variable {R : Type}

/-- The operation that a recipe asks for. -/
def kind : Recipe R → GateKind R
  | single gate _ => .named (.single gate)
  | cx _ _ => .named .cx
  | cz _ _ => .named .cz
  | swap _ _ => .named .swap
  | dense _ matrix => .dense matrix
  | pauli _ paulis => .pauli paulis
  | rotation _ paulis angle => .rotation paulis angle

/-- The targets that a recipe lists. -/
def targets : Recipe R → List Qubit
  | single _ target => [target]
  | cx _ target => [target]
  | cz _ target => [target]
  | swap first second => [first, second]
  | dense targets _ => targets
  | pauli targets _ => targets
  | rotation targets _ _ => targets

/-- The controls that a recipe lists. -/
def controls : Recipe R → List Qubit
  | cx control _ => [control]
  | cz control _ => [control]
  | _ => []

/-- Whatever the recipe, its gate comes to be as if it went through all checks. -/
theorem build_eq_make (r : Recipe R) : r.build = Gate.make r.kind r.targets r.controls := by
  cases r <;> rfl

theorem length_controls (r : Recipe R) : r.controls.length = r.kind.controlCount := by
  cases r <;> rfl

end Recipe

namespace Gate

variable {R : Type}

/-! ### Building -/

theorem make_eq_ok {kind : GateKind R} {ts cs : List Qubit} {g : Gate R} :
    Gate.make kind ts cs = .ok g ↔
      (ts = [] → kind.isPauliString = true) ∧ checkSize kind ts = .ok () ∧ (ts ++ cs).Nodup ∧
        g = { kind, targets := ts, controls := cs } := by
  have hempty : (ts.isEmpty && !kind.isPauliString) = true ↔
      ¬ (ts = [] → kind.isPauliString = true) := by
    cases ts <;> simp
  unfold make
  by_cases hts : ts = [] → kind.isPauliString = true
  · rw [if_neg (fun h => hempty.mp h hts)]
    simp only [bind_eq_ok]
    constructor
    · rintro ⟨_, hsize, h⟩
      split at h
      · cases h
      · rename_i hrepeat
        rw [pure_eq_ok] at h
        exact ⟨hts, hsize, (firstRepeat_eq_none.mp hrepeat).1, h.symm⟩
    · rintro ⟨-, hsize, hnd, rfl⟩
      have hrepeat : firstRepeat [] (ts ++ cs) = none :=
        firstRepeat_eq_none.mpr ⟨hnd, fun q _ => List.not_mem_nil⟩
      refine ⟨(), hsize, ?_⟩
      rw [hrepeat]
      rfl
  · rw [if_pos (hempty.mpr hts)]
    constructor
    · intro h
      cases h
    · intro h
      exact absurd h.1 hts

/-- Once its size is right, a gate can only be refused for an operand that repeats. -/
theorem make_eq_error {kind : GateKind R} {ts cs : List Qubit} {e : CircuitError R}
    (hts : ts = [] → kind.isPauliString = true) (hsize : checkSize kind ts = .ok ()) :
    Gate.make kind ts cs = .error e ↔
      ∃ q, FirstRepeated (ts ++ cs) q ∧ e = .duplicateQubit q (some kind.name) := by
  have hempty : ¬ (ts.isEmpty && !kind.isPauliString) = true := by
    cases ts with
    | nil => simp [hts rfl]
    | cons => simp
  rw [make, if_neg hempty, hsize]
  simp only [← firstRepeat_nil_eq_some, bind_eq_error]
  cases firstRepeat [] (ts ++ cs) with
  | none => simp [pure_ne_error]
  | some q => simp [throw, throwThe, MonadExceptOf.throw, eq_comm]

/-- A gate that a recipe makes, perhaps labelled since. The matrix of a dense gate is held in
memory, so it has fewer entries than the largest word counts. -/
structure FactoryBuilt (g : Gate R) : Prop where
  recipe : ∃ (r : Recipe R) (label : Option String) (b : Gate R),
    r.build = .ok b ∧ g = { b with label }
  inMemory : ∀ entries, g.kind = .dense entries → entries.size < maxWord

/-- A recipe gives a named gate its own number of controls, and the other gates none. -/
theorem FactoryBuilt.controls_length {g : Gate R} (hg : g.FactoryBuilt) :
    g.controls.length = g.kind.controlCount := by
  obtain ⟨⟨r, label, b, hb, rfl⟩, -⟩ := hg
  rw [Recipe.build_eq_make] at hb
  obtain ⟨-, -, -, rfl⟩ := make_eq_ok.mp hb
  exact r.length_controls

theorem FactoryBuilt.controls_eq_nil {g : Gate R} (hg : g.FactoryBuilt)
    (h : g.kind.controlCount = 0) : g.controls = [] :=
  List.length_eq_zero_iff.mp (hg.controls_length.trans h)

/-- A built gate has passed both checks, also the one-qubit gates that are not checked. -/
theorem FactoryBuilt.checked {g : Gate R} (hg : g.FactoryBuilt) :
    checkSize g.kind g.targets = .ok () ∧ (g.targets ++ g.controls).Nodup := by
  obtain ⟨⟨r, label, b, hb, rfl⟩, -⟩ := hg
  rw [Recipe.build_eq_make] at hb
  obtain ⟨-, hsize, hnd, rfl⟩ := make_eq_ok.mp hb
  exact ⟨hsize, hnd⟩

theorem FactoryBuilt.targets_nodup {g : Gate R} (hg : g.FactoryBuilt) : g.targets.Nodup :=
  (List.nodup_append.mp hg.checked.2).1

/-- **What makes a gate a built gate.** It has a target or is a Pauli string, its size is right, no
operand is listed twice, it has as many controls as gates of its kind have, and its matrix is held in
memory. -/
theorem factoryBuilt_iff {g : Gate R} : g.FactoryBuilt ↔
    (g.targets = [] → g.kind.isPauliString = true) ∧ checkSize g.kind g.targets = .ok () ∧
      (g.targets ++ g.controls).Nodup ∧ g.controls.length = g.kind.controlCount ∧
      ∀ entries, g.kind = .dense entries → entries.size < maxWord := by
  constructor
  · intro hg
    refine ⟨?_, hg.checked.1, hg.checked.2, hg.controls_length, hg.inMemory⟩
    obtain ⟨⟨r, label, b, hb, rfl⟩, -⟩ := hg
    rw [Recipe.build_eq_make] at hb
    obtain ⟨hts, -, -, rfl⟩ := make_eq_ok.mp hb
    exact hts
  · obtain ⟨kind, ts, cs, label⟩ := g
    rintro ⟨hts, hsize, hnd, hcount, hmem⟩
    have hmade : Gate.make kind ts cs = .ok { kind, targets := ts, controls := cs } :=
      make_eq_ok.mpr ⟨hts, hsize, hnd, rfl⟩
    refine ⟨?_, hmem⟩
    -- the kind says which recipe to take, and how many operands to take from the two lists
    cases kind with
    | named gate =>
      have hlen : ts.length = gate.targetCount := by
        simp only [checkSize] at hsize
        split at hsize
        · assumption
        · cases hsize
      have hcount : cs.length = gate.controlCount := hcount
      cases gate with
      | single gate =>
        obtain ⟨target, rfl⟩ := List.length_eq_one_iff.mp hlen
        obtain rfl := List.length_eq_zero_iff.mp hcount
        exact ⟨.single gate target, label, _, rfl, rfl⟩
      | cx =>
        obtain ⟨target, rfl⟩ := List.length_eq_one_iff.mp hlen
        obtain ⟨control, rfl⟩ := List.length_eq_one_iff.mp hcount
        exact ⟨.cx control target, label, _, hmade, rfl⟩
      | cz =>
        obtain ⟨target, rfl⟩ := List.length_eq_one_iff.mp hlen
        obtain ⟨control, rfl⟩ := List.length_eq_one_iff.mp hcount
        exact ⟨.cz control target, label, _, hmade, rfl⟩
      | swap =>
        obtain ⟨first, second, rfl⟩ := List.length_eq_two.mp hlen
        obtain rfl := List.length_eq_zero_iff.mp hcount
        exact ⟨.swap first second, label, _, hmade, rfl⟩
    | pauli ps =>
      obtain rfl := List.length_eq_zero_iff.mp hcount
      exact ⟨.pauli ts ps, label, _, hmade, rfl⟩
    | rotation ps angle =>
      obtain rfl := List.length_eq_zero_iff.mp hcount
      exact ⟨.rotation ts ps angle, label, _, hmade, rfl⟩
    | dense entries =>
      obtain rfl := List.length_eq_zero_iff.mp hcount
      exact ⟨.dense ts entries, label, _, hmade, rfl⟩

variable [Scalar R]

theorem targets_kernel (g : Gate R) : g.kernel.targets = g.targets := by
  unfold kernel
  split <;> rfl

theorem controls_kernel (g : Gate R) : g.kernel.controls = g.controls := by
  unfold kernel
  split <;> rfl

/-- The kernel that a gate calls, by its kind, with targets that have passed the size check. -/
inductive Calls (g : Gate R) : Prop
  | named {gate : NamedGate R} (hkind : g.kind = .named gate)
      (hlen : g.targets.length = gate.targetCount)
      (hkernel : g.kernel = .matrix g.targets g.controls gate.matrix)
  | pauli {ps : List Pauli} (hkind : g.kind = .pauli ps) (hlen : g.targets.length = ps.length)
      (hkernel : g.kernel = .pauli g.targets g.controls ps)
  | rotation {ps : List Pauli} {angle : R} (hkind : g.kind = .rotation ps angle)
      (hlen : g.targets.length = ps.length)
      (hkernel : g.kernel = .rotation g.targets g.controls ps angle)
  | dense {entries : Array (Amplitude R)} (hkind : g.kind = .dense entries)
      (hsize : entries.size = matrixSize g.targets.length)
      (hkernel : g.kernel = .matrix g.targets g.controls entries)

theorem calls_of_checkSize {g : Gate R} (hsize : checkSize g.kind g.targets = .ok ()) :
    g.Calls := by
  unfold checkSize at hsize
  cases hkind : g.kind with
  | named gate =>
    simp only [hkind] at hsize
    split at hsize
    · exact .named hkind (by assumption) (by rw [kernel, hkind])
    · cases hsize
  | pauli ps =>
    simp only [hkind] at hsize
    split at hsize
    · exact .pauli hkind (by assumption) (by rw [kernel, hkind])
    · cases hsize
  | rotation ps angle =>
    simp only [hkind] at hsize
    split at hsize
    · exact .rotation hkind (by assumption) (by rw [kernel, hkind])
    · cases hsize
  | dense entries =>
    simp only [hkind] at hsize
    split at hsize
    · exact .dense hkind (by assumption) (by rw [kernel, hkind])
    · cases hsize

theorem FactoryBuilt.calls {g : Gate R} (hg : g.FactoryBuilt) : g.Calls :=
  calls_of_checkSize hg.checked.1

/-- What the size check admits has the size that the kernel asks for. -/
theorem kernel_fitSize {g : Gate R} (hsize : checkSize g.kind g.targets = .ok ())
    (hmem : ∀ entries, g.kind = .dense entries → entries.size < maxWord) : g.kernel.FitSize := by
  cases calls_of_checkSize hsize with
  | named hkind hlen hkernel => rw [hkernel, KernelCall.FitSize, size_namedMatrix, hlen]
  | pauli hkind hlen hkernel => rwa [hkernel]
  | rotation hkind hlen hkernel => rwa [hkernel]
  | dense hkind hlen hkernel =>
    rw [hkernel, KernelCall.FitSize, hlen, matrixSize_eq (hlen ▸ hmem _ hkind)]

/-- **A built gate can be carried out** on every register that its operands lie in. -/
theorem FactoryBuilt.kernel_fits {g : Gate R} (hg : g.FactoryBuilt) {n : ℕ}
    (hin : ∀ q ∈ QuantumGate.operands g, q < n) : g.kernel.Fits n := by
  obtain ⟨hsize, hnd⟩ := hg.checked
  refine ⟨?_, kernel_fitSize hsize hg.inMemory⟩
  rw [targets_kernel, controls_kernel]
  exact ⟨hin, hnd⟩

end Gate
end GateCircuit
