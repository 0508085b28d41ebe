/-
# Editing a circuit in place

An operation makes a new circuit of an old one. Here the operations are carried out in place instead:
some checks first, then the gates put in or taken out one after the other, and a step that fails leaves
the circuit as it is by then. No check stands behind a change, so an operation that fails has changed
nothing, and in place an operation comes to what it makes of the circuit, or to the error and the circuit
as it was. A gate gets in at its position, in front of the gates from there on, if the position is at
most the end and the register holds all operands; taking it out again leads back.

Key definitions: `Circuit.carryOut`, `FaithfulCopy`, `Operation.built?`, `Operation.Inserts`,
`Operation.Measures`.
Key theorems: `Circuit.carryOut_eq`, `Circuit.insert_eq_error`, `Circuit.erase_insert`,
`Operation.Inserts.operate_eq`, `operations_all_or_nothing`.
-/
import Mathlib
import GateCircuit.Proofs.Operations
import GateCircuit.Proofs.TrotterLowering

namespace GateCircuit

open Outcome

/-! ### Operations in place -/

namespace Circuit

/-- Steps that change a circuit in place. A step that fails leaves the circuit as it is by then. -/
abbrev Editing (γ R : Type) : Type → Type := EStateM (CircuitError R) (Circuit γ)

variable {γ R α : Type}

/-- Finds something out about the circuit, and changes nothing. -/
def inspect (f : Circuit γ → Except (CircuitError R) α) : Editing γ R α :=
  fun c =>
    match f c with
    | .ok a => .ok a c
    | .error e => .error e c

/-- Puts a gate at the end, unchecked. -/
def putEnd (g : γ) : Editing γ R Unit := fun c => .ok () { c with gates := c.gates ++ [g] }

/-- Puts a gate in before the one at `index`, unchecked. -/
def putAt (index : ℕ) (g : γ) : Editing γ R Unit :=
  fun c => .ok () { c with gates := c.gates.take index ++ g :: c.gates.drop index }

/-- Takes the gate at `index` out, unchecked. -/
def takeOut (index : ℕ) : Editing γ R Unit :=
  fun c => .ok () { c with gates := c.gates.eraseIdx index }

/-- Puts gates at the end one after the other, unchecked. -/
def putAll : List γ → Editing γ R Unit
  | [] => pure ()
  | g :: gs => do
    putEnd g
    putAll gs

/-- Puts a list of gates at the end a number of times. -/
def putRepeated : ℕ → List γ → Editing γ R Unit
  | 0, _ => pure ()
  | r + 1, slice => do
    putAll slice
    putRepeated r slice

/-- Whether gates may be put in at a position. -/
def checkPosition (c : Circuit γ) (index : ℕ) : Except (CircuitError R) Unit :=
  if c.size < index then .error (.indexOutOfRange index c.size) else .ok ()

/-- Whether there is a gate at a position. -/
def checkGate (c : Circuit γ) (index : ℕ) : Except (CircuitError R) Unit :=
  if c.size ≤ index then .error (.indexOutOfRange index c.size) else .ok ()

section Insert

variable [QuantumGate γ R]

/-- Puts a gate at the end of the circuit. -/
def pushInPlace (g : γ) : Editing γ R Unit := do
  inspect fun c => c.check g
  putEnd g

/-- Puts a gate in before the one at `index`, or at the end. -/
def insertInPlace (index : ℕ) (g : γ) : Editing γ R Unit := do
  inspect fun c => c.checkPosition index
  inspect fun c => c.check g
  putAt index g

end Insert

/-- Takes the gate at `index` out. -/
def eraseInPlace (index : ℕ) : Editing γ R Unit := do
  inspect fun c => c.checkGate index
  takeOut index

variable [Scalar R] [CarriesGates γ R]

/-- Builds a gate and puts it at the end. -/
def addInPlace (recipe : Recipe R) : Editing γ R Unit := do
  let g ← inspect fun _ => recipe.build
  pushInPlace (CarriesGates.ofGate g)

/-- Carries out an operation on a circuit in place. -/
def carryOut (copyGate : γ → γ) : Operation γ R → Editing γ R Unit
  | .edit (.push g) => pushInPlace g
  | .edit (.insert index g) => insertInPlace index g
  | .edit (.erase index) => eraseInPlace index
  | .edit (.add recipe) => addInPlace recipe
  | .edit (.addTermPauli t) => addInPlace (.pauli t.qubits t.paulis)
  | .edit (.addTermRotation t) => do
    let angle ← inspect fun _ => t.realCoef 0
    addInPlace (.rotation t.qubits t.paulis angle)
  | .edit (.lowerDiagonal h angle) => do
    let gs ← inspect fun c => termRotations h c.qubitCount angle
    match gs.findIdx? (!QuantumGate.isDiagonal ·) with
    | some term => throw (.nonDiagonalTerm term)
    | none => putAll (gs.map CarriesGates.ofGate)
  | .edit (.lower h angle repeats) => do
    let count := chosenRepeats angle h.qubitCount repeats
    let slice ← inspect fun c => termRotations h c.qubitCount (angle / Scalar.ofNat count)
    putRepeated count (slice.map CarriesGates.ofGate)
  | .pushCopy g => pushInPlace (copyGate g)
  | .insertCopy index g => do
    inspect fun c => c.checkPosition index
    insertInPlace index (copyGate g)
  | .copy => fun c => .ok () (c.copied copyGate)

end Circuit

/-! ### What operations in place come to -/

namespace Circuit

section Steps

variable {γ R α β : Type}

/-- What an operation in place ends with, given what the operation makes of the circuit. -/
def settled (c : Circuit γ) : Except (CircuitError R) (Circuit γ) →
    EStateM.Result (CircuitError R) (Circuit γ) Unit
  | .ok c' => .ok () c'
  | .error e => .error e c

theorem inspect_bind (f : Circuit γ → Except (CircuitError R) α)
    (k : α → Editing γ R β) (c : Circuit γ) :
    (inspect f >>= k) c =
      match f c with
      | .ok a => k a c
      | .error e => .error e c := by
  show EStateM.bind (inspect f) k c = _
  unfold EStateM.bind inspect
  cases f c <;> rfl

/-- A check in front goes with the operation. -/
theorem inspect_bind_settled {f : Circuit γ → Except (CircuitError R) α} {c : Circuit γ}
    {k : α → Editing γ R Unit} {k' : α → Except (CircuitError R) (Circuit γ)}
    (h : ∀ a, f c = .ok a → k a c = c.settled (k' a)) :
    (inspect f >>= k) c = c.settled (f c >>= k') := by
  rw [inspect_bind]
  cases hf : f c with
  | ok a => exact h a hf
  | error e => rfl

theorem putAll_eq (gs : List γ) (c : Circuit γ) :
    putAll (R := R) gs c = .ok () { c with gates := c.gates ++ gs } := by
  induction gs generalizing c with
  | nil => rw [List.append_nil]; rfl
  | cons g gs ih =>
    show putAll gs { c with gates := c.gates ++ [g] } = _
    rw [ih, List.append_assoc, List.singleton_append]

theorem putRepeated_eq (r : ℕ) (slice : List γ) (c : Circuit γ) :
    putRepeated (R := R) r slice c =
      .ok () { c with gates := c.gates ++ (List.replicate r slice).flatten } := by
  induction r generalizing c with
  | zero => rw [List.replicate_zero, List.flatten_nil, List.append_nil]; rfl
  | succ r ih =>
    have hfirst : putRepeated (R := R) (r + 1) slice c =
        putRepeated r slice { c with gates := c.gates ++ slice } := by
      show EStateM.bind (putAll slice) (fun _ => putRepeated r slice) c = _
      rw [EStateM.bind, putAll_eq]
    rw [hfirst, ih, List.append_assoc, List.replicate_succ, List.flatten_cons]

theorem eraseInPlace_eq (index : ℕ) (c : Circuit γ) :
    eraseInPlace (R := R) index c = c.settled (c.erase index) := by
  have hbind : c.erase (R := R) index =
      (c.checkGate index >>= fun _ => pure { c with gates := c.gates.eraseIdx index }) := by
    unfold erase checkGate
    split <;> rfl
  rw [hbind]
  exact inspect_bind_settled fun _ _ => rfl

end Steps

section Single

variable {γ R : Type} [QuantumGate γ R]

theorem pushInPlace_eq (g : γ) (c : Circuit γ) : pushInPlace g c = c.settled (c.push g) :=
  inspect_bind_settled fun _ _ => rfl

theorem insertInPlace_eq (index : ℕ) (g : γ) (c : Circuit γ) :
    insertInPlace index g c = c.settled (c.insert index g) := by
  have hbind : c.insert index g = (do
      c.checkPosition index
      c.check g
      pure { c with gates := c.gates.take index ++ g :: c.gates.drop index }) := by
    unfold insert checkPosition
    split <;> rfl
  rw [hbind]
  exact inspect_bind_settled fun _ _ => inspect_bind_settled fun _ _ => rfl

end Single

variable {γ R : Type} [Scalar R] [CarriesGates γ R] {copyGate : γ → γ}

theorem addInPlace_eq (recipe : Recipe R) (c : Circuit γ) :
    addInPlace recipe c = c.settled (c.add recipe) :=
  inspect_bind_settled fun b _ => pushInPlace_eq (CarriesGates.ofGate b) c

/-- **No check stands behind a change.** In place an operation ends with the circuit it makes, or with
its error and the circuit as it was. -/
theorem carryOut_eq (op : Operation γ R) (c : Circuit γ) :
    carryOut copyGate op c = c.settled (c.operate copyGate op) := by
  cases op with
  | edit change =>
    cases change with
    | push g => exact pushInPlace_eq g c
    | insert index g => exact insertInPlace_eq index g c
    | erase index => exact eraseInPlace_eq index c
    | add recipe => exact addInPlace_eq recipe c
    | addTermPauli t => exact addInPlace_eq (.pauli t.qubits t.paulis) c
    | addTermRotation t => exact inspect_bind_settled fun angle _ => addInPlace_eq _ c
    | lowerDiagonal h angle =>
      refine inspect_bind_settled fun gs _ => ?_
      cases gs.findIdx? (!QuantumGate.isDiagonal ·) with
      | some term => rfl
      | none => exact putAll_eq _ c
    | lower h angle repeats =>
      refine inspect_bind_settled fun slice _ => ?_
      rw [putRepeated_eq, repeated_eq, append, List.map_flatten, List.map_replicate]
      rfl
  | pushCopy g => exact pushInPlace_eq (copyGate g) c
  | insertCopy index g =>
    have hbind : c.insertCopy copyGate index g =
        (c.checkPosition index >>= fun _ => c.insert index (copyGate g)) := by
      unfold insertCopy checkPosition
      split <;> rfl
    rw [operate, hbind]
    exact inspect_bind_settled fun _ _ => insertInPlace_eq index (copyGate g) c
  | copy => rfl

end Circuit

/-! ### Gates put in and taken out -/

namespace Circuit

section Insert

variable {γ R : Type} [QuantumGate γ R] {c c' : Circuit γ} {index : ℕ} {g : γ}

/-- **The position is checked first**, then the operands, the targets before the controls. -/
theorem insert_eq_error {e : CircuitError R} : c.insert index g = .error e ↔
    (c.size < index ∧ e = .indexOutOfRange index c.size) ∨
    (index ≤ c.size ∧ ∃ q, FirstBeyond c.qubitCount (QuantumGate.operands g) q ∧
      e = .qubitOutOfRange q c.qubitCount (some (QuantumGate.name g))) := by
  unfold insert
  by_cases hindex : c.size < index
  · have hno : ¬ index ≤ c.size := Nat.not_le.mpr hindex
    simp [hindex, hno, throw, throwThe, MonadExceptOf.throw, bind, Except.bind, eq_comm]
  · have hle : index ≤ c.size := Nat.le_of_not_lt hindex
    rw [if_neg hindex, bind_eq_error]
    simp only [hindex, hle, false_and, true_and, false_or, pure_ne_error, and_false, exists_false,
      or_false]
    exact checkOperands_eq_error

/-- A gate at the end is a gate inserted there. -/
theorem push_eq_insert (c : Circuit γ) (g : γ) : c.push g = c.insert c.size g := by
  rw [push, insert, if_neg (lt_irrefl _), size, List.take_length, List.drop_length]

/-- **Taking a gate out again leads back.** -/
theorem erase_insert (h : c.insert index g = .ok c') : c'.erase (R := R) index = .ok c := by
  obtain ⟨hindex, -, rfl⟩ := insert_eq_ok.mp h
  have hlen : (c.gates.take index).length = index := List.length_take_of_le hindex
  refine erase_eq_ok.mpr ⟨?_, ?_⟩
  · rw [size, List.length_append, hlen, List.length_cons]
    omega
  · simp only [List.eraseIdx_append_of_length_le hlen.le, hlen, Nat.sub_self, List.eraseIdx_cons_zero,
      List.take_append_drop]

end Insert

section Erase

variable {γ R : Type} {c c' : Circuit γ} {index : ℕ}

/-- There has to be a gate at the position. -/
theorem erase_eq_error {e : CircuitError R} :
    c.erase index = .error e ↔ c.size ≤ index ∧ e = .indexOutOfRange index c.size := by
  unfold erase
  by_cases hindex : c.size ≤ index
  · simp [hindex, eq_comm]
  · simp [hindex]

/-- A removal takes out the gate at its position and no other. -/
theorem erase_eq_ok_iff_split :
    c.erase (R := R) index = .ok c' ↔ ∃ before g after, c.gates = before ++ g :: after ∧
      before.length = index ∧ c' = { c with gates := before ++ after } := by
  rw [erase_eq_ok]
  constructor
  · rintro ⟨hindex, rfl⟩
    have hlt : index < c.gates.length := hindex
    refine ⟨c.gates.take index, c.gates[index], c.gates.drop (index + 1), ?_,
      List.length_take_of_le hlt.le, ?_⟩
    · rw [List.getElem_cons_drop, List.take_append_drop]
    · rw [List.eraseIdx_eq_take_drop_succ]
  · rintro ⟨before, g, after, hgates, rfl, rfl⟩
    refine ⟨by rw [size, hgates]; simp, ?_⟩
    rw [hgates, List.eraseIdx_append_of_length_le le_rfl, Nat.sub_self, List.eraseIdx_cons_zero]

end Erase

end Circuit

/-! ### What operations put in -/

/-- Copies answer like the originals to what a circuit asks of a gate that gets in. -/
structure FaithfulCopy {γ R : Type} [QuantumGate γ R] (copyGate : γ → γ) : Prop where
  name : ∀ g, QuantumGate.name (copyGate g) = QuantumGate.name g
  targets : ∀ g, QuantumGate.targets (copyGate g) = QuantumGate.targets g
  controls : ∀ g, QuantumGate.controls (copyGate g) = QuantumGate.controls g

theorem FaithfulCopy.operands {γ R : Type} [QuantumGate γ R] {copyGate : γ → γ}
    (h : FaithfulCopy copyGate) (g : γ) :
    QuantumGate.operands (copyGate g) = QuantumGate.operands g := by
  rw [QuantumGate.operands, h.targets, h.controls, QuantumGate.operands]

namespace Operation

variable {γ R : Type}

/-- The Hamiltonian that an operation lowers, if it lowers one. -/
def lowered? : Operation γ R → Option (Hamiltonian R)
  | .edit (.lowerDiagonal h _) => some h
  | .edit (.lower h _ _) => some h
  | _ => none

variable [Scalar R]

/-- What the factory answers to an operation that has a gate built, if it has one built. -/
def built? : Operation γ R → Option (Except (CircuitError R) (Gate R))
  | .edit (.add recipe) => some recipe.build
  | .edit (.addTermPauli t) => some (Recipe.pauli t.qubits t.paulis).build
  | .edit (.addTermRotation t) => some do
    let angle ← t.realCoef 0
    (Recipe.rotation t.qubits t.paulis angle).build
  | _ => none

variable [CarriesGates γ R]

/-- On a circuit of `size` gates the operation is asked to put `g` in before the gate at `index`, and
what gets in is `placed`: the gate itself or a copy of it. -/
inductive Inserts (copyGate : γ → γ) (size : ℕ) : Operation γ R → ℕ → γ → γ → Prop
  | push (g : γ) : Inserts copyGate size (.edit (.push g)) size g g
  | insert (index : ℕ) (g : γ) : Inserts copyGate size (.edit (.insert index g)) index g g
  | pushCopy (g : γ) : Inserts copyGate size (.pushCopy g) size g (copyGate g)
  | insertCopy (index : ℕ) (g : γ) : Inserts copyGate size (.insertCopy index g) index g (copyGate g)
  | built {op : Operation γ R} {b : Gate R} (hbuilt : op.built? = some (.ok b)) :
    Inserts copyGate size op size (CarriesGates.ofGate b) (CarriesGates.ofGate b)

/-- On a circuit `c` the operation holds the qubits `qs` against a register of `n` qubits, for a gate of
a name if it has one: the operands of the gate that is put in, or the qubits of a term that is lowered,
which have to lie inside the register of its Hamiltonian and inside that of the circuit. -/
inductive Measures (copyGate : γ → γ) (c : Circuit γ) (op : Operation γ R) :
    List Qubit → ℕ → Option String → Prop
  | gate {index : ℕ} {g placed : γ} (h : op.Inserts copyGate c.size index g placed) :
    Measures copyGate c op (QuantumGate.targets g ++ QuantumGate.controls g) c.qubitCount
      (some (QuantumGate.name g))
  | hamiltonian {h : Hamiltonian R} {t : PauliTerm R} (hop : op.lowered? = some h) (ht : t ∈ h.terms) :
    Measures copyGate c op t.qubits h.qubitCount none
  | circuit {h : Hamiltonian R} {t : PauliTerm R} (hop : op.lowered? = some h) (ht : t ∈ h.terms) :
    Measures copyGate c op t.qubits c.qubitCount (some "pauli_rotation")

end Operation

section Outcome

variable {γ R : Type} [Scalar R] [CarriesGates γ R] {copyGate : γ → γ} {c : Circuit γ}
  {op : Operation γ R}

/-- An operation that has a gate built puts the gate at the end, or fails as the factory does. -/
theorem Operation.operate_eq_bind {x : Except (CircuitError R) (Gate R)} (h : op.built? = some x) :
    c.operate copyGate op = (x >>= fun b => c.push (CarriesGates.ofGate b)) := by
  cases op with
  | edit change =>
    cases change with
    | add recipe => obtain rfl := Option.some.inj h; rfl
    | addTermPauli t => obtain rfl := Option.some.inj h; rfl
    | addTermRotation t =>
      obtain rfl := Option.some.inj h
      rw [bind_assoc]
      rfl
    | push g => cases h
    | insert index g => cases h
    | erase index => cases h
    | lowerDiagonal ham angle => cases h
    | lower ham angle repeats => cases h
  | pushCopy g => cases h
  | insertCopy index g => cases h
  | copy => cases h

/-- **All ways to put a gate in are insertions.** -/
theorem Operation.Inserts.operate_eq {index : ℕ} {g placed : γ}
    (h : op.Inserts copyGate c.size index g placed) :
    c.operate copyGate op = c.insert index placed := by
  cases h with
  | push => exact Circuit.push_eq_insert c g
  | insert => rfl
  | pushCopy => exact Circuit.push_eq_insert c (copyGate g)
  | insertCopy => exact Circuit.insertCopy_eq_insert c index g
  | built hbuilt =>
    rw [Operation.operate_eq_bind hbuilt]
    exact Circuit.push_eq_insert c _

/-- What gets in answers like what is asked for. -/
theorem Operation.Inserts.same (hcopy : FaithfulCopy copyGate) {size index : ℕ} {g placed : γ}
    (h : op.Inserts copyGate size index g placed) :
    QuantumGate.operands placed = QuantumGate.operands g ∧
      QuantumGate.name placed = QuantumGate.name g := by
  cases h with
  | pushCopy | insertCopy => exact ⟨hcopy.operands g, hcopy.name g⟩
  | push | insert | built => exact ⟨rfl, rfl⟩

section Inserted

variable {index : ℕ} {g placed : γ} (hins : op.Inserts copyGate c.size index g placed)
include hins

/-- A gate gets in if the position is at most the end and the register holds the operands. -/
theorem Operation.Inserts.succeeds_iff (hcopy : FaithfulCopy copyGate) :
    (∃ c', c.operate copyGate op = .ok c') ↔ index ≤ c.size ∧
      ∀ q ∈ QuantumGate.targets g ++ QuantumGate.controls g, q < c.qubitCount := by
  simp only [hins.operate_eq, Circuit.insert_eq_ok, (hins.same hcopy).1]
  exact ⟨fun ⟨_, hindex, hin, _⟩ => ⟨hindex, hin⟩, fun ⟨hindex, hin⟩ => ⟨_, hindex, hin, rfl⟩⟩

/-- **The gates around keep their order**, and taking the gate out again leads back. -/
theorem Operation.Inserts.inserted {c' : Circuit γ} (hc' : c.operate copyGate op = .ok c') :
    c'.gates = c.gates.take index ++ placed :: c.gates.drop index ∧
      c'.qubitCount = c.qubitCount ∧ c'.operate copyGate (.edit (.erase index)) = .ok c := by
  rw [hins.operate_eq] at hc'
  have hback := Circuit.erase_insert hc'
  obtain ⟨-, -, rfl⟩ := Circuit.insert_eq_ok.mp hc'
  exact ⟨rfl, rfl, hback⟩

/-- **The position is checked before the operands.** -/
theorem Operation.Inserts.refused (hcopy : FaithfulCopy copyGate) {e : CircuitError R}
    (he : c.operate copyGate op = .error e) :
    (c.size < index ∧ e = .indexOutOfRange index c.size) ∨
      (index ≤ c.size ∧ ∃ q,
        FirstBeyond c.qubitCount (QuantumGate.targets g ++ QuantumGate.controls g) q ∧
        e = .qubitOutOfRange q c.qubitCount (some (QuantumGate.name g))) := by
  obtain ⟨hoperands, hname⟩ := hins.same hcopy
  rwa [hins.operate_eq, Circuit.insert_eq_error, hoperands, hname] at he

end Inserted

end Outcome

/-! ### The errors of operations -/

/-- The factory knows no register, so it does not complain about one. -/
theorem Gate.make_ne_qubitOutOfRange {R : Type} {kind : GateKind R} {ts cs : List Qubit} {q n : ℕ}
    {name : Option String} : Gate.make kind ts cs ≠ .error (.qubitOutOfRange q n name) := by
  have hsize : Gate.checkSize kind ts ≠ .error (.qubitOutOfRange q n name) := by
    cases kind <;> simp only [Gate.checkSize] <;> split <;> simp
  intro h
  unfold Gate.make at h
  by_cases hempty : (ts.isEmpty && !kind.isPauliString) = true
  · rw [if_pos hempty] at h
    cases h
  · rw [if_neg hempty, bind_eq_error] at h
    rcases h with h | ⟨_, -, h⟩
    · exact hsize h
    · split at h <;> cases h

theorem Recipe.build_ne_qubitOutOfRange {R : Type} {recipe : Recipe R} {q n : ℕ}
    {name : Option String} : recipe.build ≠ .error (.qubitOutOfRange q n name) := by
  intro h
  cases recipe <;> rw [Recipe.build] at h
  case single gate target => cases h
  all_goals exact Gate.make_ne_qubitOutOfRange h

section Errors

variable {γ R : Type} [Scalar R] [CarriesGates γ R] {copyGate : γ → γ} {c c' : Circuit γ}
  {op : Operation γ R}

omit [CarriesGates γ R] in
theorem Operation.built?_ne_qubitOutOfRange {q n : ℕ} {name : Option String} :
    op.built? ≠ some (.error (.qubitOutOfRange q n name)) := by
  intro h
  unfold Operation.built? at h
  split at h
  · exact Recipe.build_ne_qubitOutOfRange (Option.some.inj h)
  · exact Recipe.build_ne_qubitOutOfRange (Option.some.inj h)
  · rcases bind_eq_error.mp (Option.some.inj h) with hreal | ⟨_, -, hbuild⟩
    · obtain ⟨-, he⟩ := realCoef_eq_error.mp hreal
      cases he
    · exact Recipe.build_ne_qubitOutOfRange hbuild
  · cases h

/-- A lowering that fails has met a term that is refused, or one that is not diagonal. -/
theorem Operation.lowered_eq_error {h : Hamiltonian R} (hop : op.lowered? = some h)
    {e : CircuitError R} (he : c.operate copyGate op = .error e) :
    (∃ k, ∃ t ∈ h.terms, TermRejected h.qubitCount c.qubitCount k t e) ∨
      ∃ k, e = .nonDiagonalTerm k := by
  unfold Operation.lowered? at hop
  split at hop
  · obtain rfl := Option.some.inj hop
    rcases bind_eq_error.mp he with hbuild | ⟨gs, -, hdiag⟩
    · obtain ⟨k, t, ht, hrejected, -⟩ := termRotations_eq_error.mp hbuild
      exact .inl ⟨k, t, List.mem_of_getElem? ht, hrejected⟩
    · split at hdiag
      · exact .inr ⟨_, (Except.error.inj hdiag).symm⟩
      · cases hdiag
  · obtain rfl := Option.some.inj hop
    obtain ⟨k, t, ht, hrejected, -⟩ := lower_eq_error.mp he
    exact .inl ⟨k, t, List.mem_of_getElem? ht, hrejected⟩
  · cases hop

/-- A lowering that succeeds appends rotations. -/
theorem Operation.lowered_eq_ok {h : Hamiltonian R} (hop : op.lowered? = some h)
    (hc' : c.operate copyGate op = .ok c') : ∃ gs, c' = c.append gs := by
  unfold Operation.lowered? at hop
  split at hop
  · obtain ⟨gs, -, hdiag⟩ := bind_eq_ok.mp hc'
    split at hdiag
    · cases hdiag
    · exact ⟨gs, (pure_eq_ok.mp hdiag).symm⟩
  · obtain ⟨-, rfl⟩ := lower_eq_ok.mp hc'
    exact ⟨_, rfl⟩
  · cases hop

/-- Every operation puts a gate in, has one built, takes one out, lowers a Hamiltonian, or is a copy of
the circuit. -/
theorem Operation.kinds (copyGate : γ → γ) (size : ℕ) (op : Operation γ R) :
    (∃ index g placed, op.Inserts copyGate size index g placed) ∨
      (∃ e, op.built? = some (.error e)) ∨ (∃ index, op = .edit (.erase index)) ∨
      (∃ h, op.lowered? = some h) ∨ op = .copy := by
  have hbuilt : ∀ {x : Except (CircuitError R) (Gate R)}, op.built? = some x →
      (∃ index g placed, op.Inserts copyGate size index g placed) ∨
        ∃ e, op.built? = some (.error e) := by
    rintro (e | b) hx
    · exact .inr ⟨e, hx⟩
    · exact .inl ⟨_, _, _, .built hx⟩
  cases op with
  | edit change =>
    cases change with
    | push g => exact .inl ⟨_, _, _, .push g⟩
    | insert index g => exact .inl ⟨_, _, _, .insert index g⟩
    | erase index => exact .inr (.inr (.inl ⟨index, rfl⟩))
    | add | addTermPauli | addTermRotation => exact (hbuilt rfl).imp_right .inl
    | lowerDiagonal | lower => exact .inr (.inr (.inr (.inl ⟨_, rfl⟩)))
  | pushCopy g => exact .inl ⟨_, _, _, .pushCopy g⟩
  | insertCopy index g => exact .inl ⟨_, _, _, .insertCopy index g⟩
  | copy => exact .inr (.inr (.inr (.inr rfl)))

/-- **An operand beyond a register is the first one**, the targets before the controls. -/
theorem Operation.first_beyond (hcopy : FaithfulCopy copyGate) {q n : ℕ} {name : Option String}
    (he : c.operate copyGate op = .error (.qubitOutOfRange q n name)) :
    ∃ qs, op.Measures copyGate c qs n name ∧ FirstBeyond n qs q := by
  obtain ⟨index, g, placed, hins⟩ | ⟨e, hbuilt⟩ | ⟨index, rfl⟩ | ⟨h, hop⟩ | rfl :=
    op.kinds copyGate c.size
  · obtain ⟨-, he⟩ | ⟨-, q, hq, he⟩ := hins.refused hcopy he
    · cases he
    · obtain ⟨rfl, rfl, rfl⟩ := CircuitError.qubitOutOfRange.inj he
      exact ⟨_, .gate hins, hq⟩
  · rw [Operation.operate_eq_bind hbuilt] at he
    obtain rfl := Except.error.inj he
    exact absurd hbuilt Operation.built?_ne_qubitOutOfRange
  · cases (Circuit.erase_eq_error.mp he).2
  · obtain ⟨k, t, ht, hrejected⟩ | ⟨k, hk⟩ := Operation.lowered_eq_error hop he
    · cases hrejected with
      | beyondHamiltonian _ hq => exact ⟨_, .hamiltonian hop ht, hq⟩
      | beyondCircuit _ _ _ _ hq => exact ⟨_, .circuit hop ht, hq⟩
    · cases hk
  · cases he

end Errors

/-! ### All operations -/

/-- **Operations are carried out all or not at all, and keep the order of the gates.** In place, an
operation that fails leaves the circuit as it was, and one that succeeds makes the new circuit.
A gate gets in at a position exactly if this is at most the end and the register holds its operands;
the gates before and after stay in their order, and taking the gate out again leads back. An operation
for which the factory refuses the gate fails with that error. The gate at a position can be taken out
exactly if there is one, and no other goes. A lowering only appends. A qubit that is out of range is the
first one, the targets before the controls. -/
theorem operations_all_or_nothing {γ R : Type} [Scalar R] [CarriesGates γ R] {copyGate : γ → γ}
    (hcopy : FaithfulCopy copyGate) (c : Circuit γ) (op : Operation γ R) :
    (∀ e u, Circuit.carryOut copyGate op c = .error e u →
      u = c ∧ c.operate copyGate op = .error e) ∧
    (∀ u, Circuit.carryOut copyGate op c = .ok () u ↔ c.operate copyGate op = .ok u) ∧
    (∀ index g placed, op.Inserts copyGate c.size index g placed →
      ((∃ c', c.operate copyGate op = .ok c') ↔ index ≤ c.size ∧
        ∀ q ∈ QuantumGate.targets g ++ QuantumGate.controls g, q < c.qubitCount) ∧
      (∀ c', c.operate copyGate op = .ok c' →
        c'.gates = c.gates.take index ++ placed :: c.gates.drop index ∧
        c'.qubitCount = c.qubitCount ∧ c'.operate copyGate (.edit (.erase index)) = .ok c) ∧
      ∀ e, c.operate copyGate op = .error e →
        (c.size < index ∧ e = .indexOutOfRange index c.size) ∨
        (index ≤ c.size ∧ ∃ q,
          FirstBeyond c.qubitCount (QuantumGate.targets g ++ QuantumGate.controls g) q ∧
          e = .qubitOutOfRange q c.qubitCount (some (QuantumGate.name g)))) ∧
    (∀ e, op.built? = some (.error e) → c.operate copyGate op = .error e) ∧
    (∀ index, op = .edit (.erase index) →
      ((∃ c', c.operate copyGate op = .ok c') ↔ index < c.size) ∧
      (∀ c', c.operate copyGate op = .ok c' → ∃ before g after, c.gates = before ++ g :: after ∧
        before.length = index ∧ c' = { c with gates := before ++ after }) ∧
      ∀ e, c.operate copyGate op = .error e → e = .indexOutOfRange index c.size) ∧
    (∀ h, op.lowered? = some h → ∀ c', c.operate copyGate op = .ok c' → ∃ gs, c' = c.append gs) ∧
    ∀ q n name, c.operate copyGate op = .error (.qubitOutOfRange q n name) →
      ∃ qs, op.Measures copyGate c qs n name ∧ FirstBeyond n qs q := by
  refine ⟨fun e u hu => ?_, fun u => ?_, fun index g placed hins => ?_, fun e hbuilt => ?_, ?_,
    fun h hop c' hc' => Operation.lowered_eq_ok hop hc', fun q n name he =>
      Operation.first_beyond hcopy he⟩
  · rw [Circuit.carryOut_eq] at hu
    cases hop : c.operate copyGate op with
    | ok c' => rw [hop] at hu; cases hu
    | error e' => rw [hop] at hu; cases hu; exact ⟨rfl, rfl⟩
  · rw [Circuit.carryOut_eq]
    cases c.operate copyGate op <;> simp [Circuit.settled]
  · exact ⟨hins.succeeds_iff hcopy, fun c' => hins.inserted, fun e => hins.refused hcopy⟩
  · rw [Operation.operate_eq_bind hbuilt]
    rfl
  · rintro index rfl
    exact ⟨⟨fun ⟨_, hc'⟩ => (Circuit.erase_eq_ok.mp hc').1,
      fun hindex => ⟨_, Circuit.erase_eq_ok.mpr ⟨hindex, rfl⟩⟩⟩,
      fun c' => Circuit.erase_eq_ok_iff_split.mp, fun e he => (Circuit.erase_eq_error.mp he).2⟩

/-- Two gates on three qubits. -/
def pairCircuit : Circuit (Gate ℝ) := ⟨3, [.single .h 0, .single .x 1]⟩

/-- The exchange of the last qubit with the first. -/
def outerSwap : Gate ℝ := { kind := .named .swap, targets := [2, 0], controls := [] }

/-- The exchange put in between as a labelled copy and taken out again, and put in beyond the end. -/
theorem operations_all_or_nothing_labelled :
    FaithfulCopy (fun g : Gate ℝ => g.withLabel "copy") ∧
    (∃ c', pairCircuit.operate (Gate.withLabel · "copy") (.insertCopy 1 outerSwap) = .ok c' ∧
      c'.gates = [.single .h 0, outerSwap.withLabel "copy", .single .x 1] ∧
      c'.operate (Gate.withLabel · "copy") (.edit (.erase 1)) = .ok pairCircuit) ∧
    ∃ e, Circuit.carryOut (Gate.withLabel · "copy") (.insertCopy 3 outerSwap) pairCircuit =
      .error e pairCircuit := by
  have hcopy : FaithfulCopy (fun g : Gate ℝ => g.withLabel "copy") :=
    ⟨fun _ => rfl, fun _ => rfl, fun _ => rfl⟩
  obtain ⟨-, -, hinsert, -⟩ := operations_all_or_nothing hcopy pairCircuit (.insertCopy 1 outerSwap)
  obtain ⟨hiff, hdone, -⟩ := hinsert 1 outerSwap _ (.insertCopy 1 outerSwap)
  have hin : ∀ q ∈ [2, 0], q < 3 := by decide
  obtain ⟨c', hc'⟩ := hiff.mpr ⟨by decide, hin⟩
  obtain ⟨hgates, -, hback⟩ := hdone c' hc'
  exact ⟨hcopy, ⟨c', hc', hgates, hback⟩, .indexOutOfRange 3 2, rfl⟩

end GateCircuit
