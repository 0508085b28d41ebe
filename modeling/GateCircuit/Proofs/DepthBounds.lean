/-
# Depth and changes of the gate list

The depth of a circuit is the length of its longest chain of gates, so what a change of the gate list does
to the depth is seen by following chains. A chain of the gates read backwards is a chain read backwards,
and a chain of some of the gates is one of all of them. The other way round, a layering of some gates
stands on top of a layering of the gates before them. So the depth of two lists of gates one after the
other lies between the greater of their depths and the sum, and single changes and repeats follow.

Key definitions: `Circuit.reversed`.
Key theorems: `depthOf_le_of_found`, `depthOf_reverse`, `depth_reversed`, `depthOf_sublist`,
`depthOf_append_le`, `depthOf_repeats_le`, `Circuit.depth_insert`, `Circuit.depth_erase`,
`Circuit.depth_lower_le`, `depth_under_edits`.
-/
import Mathlib
import GateCircuit.Proofs.CriticalPath
import GateCircuit.Proofs.DiagonalLowering

namespace GateCircuit

section Positions

variable {lists lists' : List (List Qubit)} {i j : ℕ} {q : Qubit}

/-- What a gate acts on does not change with its position. -/
theorem Uses.moved (h : Uses lists i q) (hget : lists'[j]? = lists[i]?) : Uses lists' j q := by
  obtain ⟨operands, hoperands, hq⟩ := h
  exact ⟨operands, hget.trans hoperands, hq⟩

/-- If all gates are found again among others, and linked ones in the same order, then these are no
shallower. -/
theorem depthOf_le_of_found (f : ℕ → ℕ) (hget : ∀ i, lists'[f i]? = lists[i]?)
    (horder : ∀ i j, Linked lists i j → f i < f j) : depthOf lists ≤ depthOf lists' := by
  refine depthOf_le_of_map f (fun i hi => ?_) fun i j hij => ?_
  · have hfound := hget i
    rw [List.getElem?_eq_getElem hi] at hfound
    exact (List.getElem?_eq_some_iff.mp hfound).1
  · have hlt := horder i j hij
    obtain ⟨-, q, hi, hj⟩ := hij
    exact ⟨hlt, q, hi.moved (hget i), hj.moved (hget j)⟩

end Positions

/-! ### Gates read backwards -/

section Reverse

variable {lists : List (List Qubit)} {i j : ℕ} {q : Qubit}

theorem Uses.reverse (h : Uses lists i q) : Uses lists.reverse (lists.length - 1 - i) q := by
  have hi := h.lt
  refine h.moved ?_
  rw [List.getElem?_reverse (by omega)]
  congr 1
  omega

theorem Linked.reverse (h : Linked lists i j) :
    Linked lists.reverse (lists.length - 1 - j) (lists.length - 1 - i) := by
  obtain ⟨hlt, q, hi, hj⟩ := h
  have hj' := hj.lt
  exact ⟨by omega, q, hj.reverse, hi.reverse⟩

/-- A chain read backwards is a chain of the gates read backwards. -/
theorem IsGateChain.reverse {positions : List ℕ} (h : IsGateChain lists positions) :
    IsGateChain lists.reverse (positions.map (lists.length - 1 - ·)).reverse where
  inside i hi := by
    obtain ⟨k, hk, rfl⟩ := List.mem_map.mp (List.mem_reverse.mp hi)
    have hk' := h.inside k hk
    rw [List.length_reverse]
    omega
  linked := by
    rw [List.isChain_reverse, List.isChain_map]
    exact h.linked.imp fun i j => Linked.reverse

theorem depthOf_le_reverse (lists : List (List Qubit)) : depthOf lists ≤ depthOf lists.reverse := by
  obtain ⟨-, positions, hchain, hlen⟩ := depthOf_spec lists
  have hreverse := hchain.reverse.length_le_depthOf
  rwa [List.length_reverse, List.length_map, hlen] at hreverse

/-- The pass finds the same depth from the last gate to the first. -/
theorem depthOf_reverse (lists : List (List Qubit)) : depthOf lists.reverse = depthOf lists := by
  apply le_antisymm
  · have hback := depthOf_le_reverse lists.reverse
    rwa [List.reverse_reverse] at hback
  · exact depthOf_le_reverse lists

end Reverse

/-- The circuit with its gates in the opposite order. -/
def Circuit.reversed {γ : Type} (c : Circuit γ) : Circuit γ := { c with gates := c.gates.reverse }

/-- **The depth does not depend on the direction of time.** A circuit of gates of any type is as deep as
the circuit with the same gates in the opposite order. -/
theorem depth_reversed {γ R : Type} [QuantumGate γ R] (c : Circuit γ) :
    c.reversed.depth = c.depth := by
  rw [Circuit.depth, Circuit.reversed, List.map_reverse, depthOf_reverse, Circuit.depth]

/-! ### Gates put together -/

section Append

variable {lists lists' : List (List Qubit)} {i : ℕ} {q : Qubit}

/-- Some of the gates, in their order, are no deeper than all of them. -/
theorem depthOf_sublist (h : lists.Sublist lists') : depthOf lists ≤ depthOf lists' := by
  obtain ⟨f, hf⟩ := List.sublist_iff_exists_orderEmbedding_getElem?_eq.mp h
  exact depthOf_le_of_found f (fun i => (hf i).symm) fun i j hij => f.lt_iff_lt.mpr hij.1

theorem uses_append_cases (h : Uses (lists ++ lists') i q) :
    (i < lists.length ∧ Uses lists i q) ∨ (lists.length ≤ i ∧ Uses lists' (i - lists.length) q) := by
  rcases Nat.lt_or_ge i lists.length with hi | hi
  · exact .inl ⟨hi, h.moved (List.getElem?_append_left hi).symm⟩
  · exact .inr ⟨hi, h.moved (List.getElem?_append_right hi).symm⟩

/-- A layering of some gates goes on top of a layering of the gates before them. -/
theorem IsLayering.append {height height' : ℕ} {layer layer' : ℕ → ℕ}
    (h : IsLayering lists height layer) (h' : IsLayering lists' height' layer') :
    IsLayering (lists ++ lists') (height + height') fun i =>
      if i < lists.length then layer i else height + layer' (i - lists.length) where
  positive i hi := by
    rw [List.length_append] at hi
    split
    · rename_i hfirst
      exact h.positive i hfirst
    · have hpos := h'.positive (i - lists.length) (by omega)
      omega
  le_height i hi := by
    rw [List.length_append] at hi
    split
    · rename_i hfirst
      exact (h.le_height i hfirst).trans (Nat.le_add_right _ _)
    · have hle := h'.le_height (i - lists.length) (by omega)
      omega
  rising i j hij := by
    obtain ⟨hlt, q, hi, hj⟩ := hij
    rcases uses_append_cases hi with ⟨hi', hi⟩ | ⟨hi', hi⟩
    · rcases uses_append_cases hj with ⟨hj', hj⟩ | ⟨hj', hj⟩
      · rw [if_pos hi', if_pos hj']
        exact h.rising i j ⟨hlt, q, hi, hj⟩
      · -- every layer of the gates after stands above all layers before
        rw [if_pos hi', if_neg (by omega)]
        have hle := h.le_height i hi'
        have hpos := h'.positive (j - lists.length) hj.lt
        omega
    · rcases uses_append_cases hj with ⟨hj', -⟩ | ⟨hj', hj⟩
      · omega
      · rw [if_neg (by omega), if_neg (by omega)]
        have hrise := h'.rising (i - lists.length) (j - lists.length) ⟨by omega, q, hi, hj⟩
        omega

/-- Gates one after the other are no deeper than the two depths together. -/
theorem depthOf_append_le (lists lists' : List (List Qubit)) :
    depthOf (lists ++ lists') ≤ depthOf lists + depthOf lists' := by
  obtain ⟨⟨layer, hlayering⟩, -⟩ := depthOf_spec lists
  obtain ⟨⟨layer', hlayering'⟩, -⟩ := depthOf_spec lists'
  exact (hlayering.append hlayering').depthOf_le

/-- With one gate to a layer, there are as many layers as gates. -/
theorem depthOf_le_length (lists : List (List Qubit)) : depthOf lists ≤ lists.length := by
  have hlayering : IsLayering lists lists.length (· + 1) :=
    ⟨fun i _ => Nat.succ_pos i, fun i hi => hi, fun i j hij => Nat.succ_lt_succ hij.1⟩
  exact hlayering.depthOf_le

theorem depthOf_eq_zero_iff : depthOf lists = 0 ↔ lists = [] := by
  constructor
  · intro hzero
    by_contra hne
    have hfirst : IsGateChain lists [0] :=
      ⟨by simpa using List.length_pos_iff.mpr hne, List.isChain_singleton 0⟩
    have hlen := hfirst.length_le_depthOf
    rw [hzero] at hlen
    exact absurd hlen (by simp)
  · rintro rfl
    rfl

/-- A gate in between adds one layer to those of the gates before and after it. -/
theorem depthOf_between_le (before after : List (List Qubit)) (operands : List Qubit) :
    depthOf (before ++ operands :: after) ≤ depthOf before + 1 + depthOf after := by
  have hone : depthOf [operands] ≤ 1 := depthOf_le_length [operands]
  have hrest : depthOf (operands :: after) ≤ depthOf [operands] + depthOf after :=
    depthOf_append_le [operands] after
  have hall := depthOf_append_le before (operands :: after)
  omega

/-- A gate can come between as many layers as there are, and add one. -/
example : depthOf [[0], [0, 1], [1]] = 2 * depthOf [[0], [1]] + 1 := by cbv

/-- Each repeat adds at most the depth of one. -/
theorem depthOf_repeats_le (r : ℕ) (slice : List (List Qubit)) :
    depthOf (List.replicate r slice).flatten ≤ r * depthOf slice := by
  induction r with
  | zero =>
    rw [List.replicate_zero, List.flatten_nil, Nat.zero_mul]
    exact depthOf_le_length []
  | succ r ih =>
    rw [List.replicate_succ, List.flatten_cons]
    calc depthOf (slice ++ (List.replicate r slice).flatten)
        ≤ depthOf slice + depthOf (List.replicate r slice).flatten := depthOf_append_le _ _
      _ ≤ depthOf slice + r * depthOf slice := Nat.add_le_add_left ih _
      _ = (r + 1) * depthOf slice := by ring

end Append

/-! ### Circuits -/

namespace Circuit

section Gates

variable {γ R : Type} [QuantumGate γ R]

/-- Gates one after the other on one register: at least as deep as either part, at most as deep as both
together. -/
theorem depth_append (n : ℕ) (as bs : List γ) :
    max (⟨n, as⟩ : Circuit γ).depth (⟨n, bs⟩ : Circuit γ).depth ≤
        (⟨n, as ++ bs⟩ : Circuit γ).depth ∧
      (⟨n, as ++ bs⟩ : Circuit γ).depth ≤ (⟨n, as⟩ : Circuit γ).depth + (⟨n, bs⟩ : Circuit γ).depth := by
  simp only [depth, List.map_append]
  refine ⟨max_le ?_ ?_, depthOf_append_le _ _⟩
  · exact depthOf_sublist (List.sublist_append_left _ _)
  · exact depthOf_sublist (List.sublist_append_right _ _)

/-- A gate that is accepted at a position makes the circuit no shallower. It at most separates the gates
before it from the gates after it, each of which fit into the old depth. -/
theorem depth_insert (c : Circuit γ) {index : ℕ} {g : γ} (hindex : index ≤ c.size)
    (hin : ∀ q ∈ QuantumGate.operands g, q < c.qubitCount) :
    ∃ c', c.insert index g = .ok c' ∧ c.depth ≤ c'.depth ∧ c'.depth ≤ 2 * c.depth + 1 ∧
      (index = 0 ∨ index = c.size → c'.depth ≤ c.depth + 1) := by
  have hsplit : c.gates.take index ++ c.gates.drop index = c.gates := List.take_append_drop _ _
  -- the gates on either side are some of the old ones
  have hbefore : depthOf ((c.gates.take index).map QuantumGate.operands) ≤ c.depth :=
    depthOf_sublist ((List.take_sublist _ _).map _)
  have hafter : depthOf ((c.gates.drop index).map QuantumGate.operands) ≤ c.depth :=
    depthOf_sublist ((List.drop_sublist _ _).map _)
  have hbound := depthOf_between_le ((c.gates.take index).map QuantumGate.operands)
    ((c.gates.drop index).map QuantumGate.operands) (QuantumGate.operands g)
  have hall : c.gates.Sublist (c.gates.take index ++ g :: c.gates.drop index) := by
    conv_lhs => rw [← hsplit]
    exact (List.sublist_cons_self _ _).append_left _
  refine ⟨_, insert_eq_ok.mpr ⟨hindex, hin, rfl⟩, depthOf_sublist (hall.map _), ?_, ?_⟩
  all_goals rw [depth, List.map_append, List.map_cons]
  · omega
  · -- at either end there are no gates on the other side
    rintro (rfl | rfl)
    · have hnone : depthOf ((c.gates.take 0).map QuantumGate.operands) = 0 := by
        rw [List.take_zero, List.map_nil, depthOf_eq_zero_iff]
      omega
    · have hnone : depthOf ((c.gates.drop c.size).map QuantumGate.operands) = 0 := by
        rw [size, List.drop_length, List.map_nil, depthOf_eq_zero_iff]
      omega

/-- A gate at the end adds at most one layer. -/
theorem depth_push (c : Circuit γ) {g : γ} (hin : ∀ q ∈ QuantumGate.operands g, q < c.qubitCount) :
    ∃ c', c.push g = .ok c' ∧ c.depth ≤ c'.depth ∧ c'.depth ≤ c.depth + 1 := by
  obtain ⟨c', hinsert, hle, -, hend⟩ := c.depth_insert le_rfl hin
  obtain ⟨-, -, rfl⟩ := insert_eq_ok.mp hinsert
  refine ⟨_, push_eq_ok.mpr ⟨hin, ?_⟩, hle, hend (.inr rfl)⟩
  rw [size, List.take_length, List.drop_length]

/-- A circuit without one of its gates is no deeper. -/
theorem depth_erase (c : Circuit γ) {index : ℕ} (hindex : index < c.size) :
    ∃ c', c.erase (R := R) index = .ok c' ∧ c'.depth ≤ c.depth :=
  ⟨_, erase_eq_ok.mpr ⟨hindex, rfl⟩, depthOf_sublist ((List.eraseIdx_sublist _ _).map _)⟩

theorem depth_le_size (c : Circuit γ) : c.depth ≤ c.size := by
  have hle := depthOf_le_length (c.gates.map QuantumGate.operands)
  rwa [List.length_map] at hle

theorem depth_eq_zero_iff (c : Circuit γ) : c.depth = 0 ↔ c.isEmpty = true := by
  rw [depth, depthOf_eq_zero_iff, List.map_eq_nil_iff, isEmpty, List.isEmpty_iff]

end Gates

section Lower

variable {γ R : Type} [Scalar R] [CarriesGates γ R] {c c' : Circuit γ} {h : Hamiltonian R} {angle : R}
  {repeats : ℕ}

/-- The depth after lowering is that of the qubits of the terms, once for each repeat, whatever the angle. -/
theorem depth_lower (hc' : c.lower h angle repeats = .ok c') :
    c'.depth = depthOf (c.gates.map QuantumGate.operands ++
      (List.replicate (chosenRepeats angle h.qubitCount repeats)
        (h.terms.map PauliTerm.qubits)).flatten) := by
  obtain ⟨-, rfl⟩ := lower_eq_ok.mp hc'
  have hgate : ∀ (scale : R) (t : PauliTerm R),
      QuantumGate.operands (CarriesGates.ofGate (rotationGate scale t) : γ) = t.qubits := fun scale t => by
    rw [operands_ofGate, rotationGate, operands_rotation]
  rw [depth, append]
  simp only [List.map_append, List.map_flatten, List.map_replicate, List.map_map, Function.comp_def,
    hgate]

/-- Terms that can be lowered can be lowered by any angle and in any number of repeats. -/
theorem lower_succeeds_iff (angle' : R) (repeats' : ℕ) :
    (∃ c', c.lower h angle repeats = .ok c') ↔ ∃ c', c.lower h angle' repeats' = .ok c' := by
  simp only [lower_eq_ok, exists_and_left, exists_eq, and_true]

/-- Lowering onto an empty circuit is at most as deep as its repeats one after the other. -/
theorem depth_lower_le {once : Circuit γ} {angle' : R} (hempty : c.isEmpty = true)
    (hc' : c.lower h angle repeats = .ok c') (honce : c.lower h angle' 1 = .ok once) :
    c'.depth ≤ chosenRepeats angle h.qubitCount repeats * once.depth := by
  rw [isEmpty, List.isEmpty_iff] at hempty
  rw [depth_lower hc', depth_lower honce, hempty, List.map_nil, List.nil_append, List.nil_append]
  have hone : (List.replicate (chosenRepeats angle' h.qubitCount 1)
      (h.terms.map PauliTerm.qubits)).flatten = h.terms.map PauliTerm.qubits := by
    rw [chosenRepeats, if_neg one_ne_zero, List.replicate_one, List.flatten_singleton]
  rw [hone]
  exact depthOf_repeats_le _ _

end Lower

end Circuit

/-- **Depth under editing**, for gates of any type. Two lists of gates on one register, one after the
other, are no shallower than either and no deeper than both together. A gate put in at any position leaves
a circuit of depth `d` with a depth from `d` to `2 * d + 1`, and at the start or the end with at most
`d + 1`; a gate taken out does not make it deeper. There are no more layers than gates, and none only if
there are no gates. Lowering in repeats onto an empty circuit succeeds if a single repetition does, by
whatever angle, and is no deeper than so many of these. -/
theorem depth_under_edits {γ R : Type} [Scalar R] [CarriesGates γ R] :
    (∀ (n : ℕ) (as bs : List γ),
      max (⟨n, as⟩ : Circuit γ).depth (⟨n, bs⟩ : Circuit γ).depth ≤
          (⟨n, as ++ bs⟩ : Circuit γ).depth ∧
        (⟨n, as ++ bs⟩ : Circuit γ).depth ≤
          (⟨n, as⟩ : Circuit γ).depth + (⟨n, bs⟩ : Circuit γ).depth) ∧
    (∀ (c : Circuit γ) (g : γ), (∀ q ∈ QuantumGate.operands g, q < c.qubitCount) →
      (∀ index ≤ c.size, ∃ c', c.insert index g = .ok c' ∧
        c.depth ≤ c'.depth ∧ c'.depth ≤ 2 * c.depth + 1 ∧
        (index = 0 ∨ index = c.size → c'.depth ≤ c.depth + 1)) ∧
      ∃ c', c.push g = .ok c' ∧ c.depth ≤ c'.depth ∧ c'.depth ≤ c.depth + 1) ∧
    (∀ (c : Circuit γ), ∀ index < c.size, ∃ c', c.erase (R := R) index = .ok c' ∧
      c'.depth ≤ c.depth) ∧
    (∀ c : Circuit γ, c.depth ≤ c.size ∧ (c.depth = 0 ↔ c.isEmpty = true)) ∧
    ∀ (c : Circuit γ) (h : Hamiltonian R) (angle angle' : R) (repeats : ℕ), c.isEmpty = true →
      ((∃ c', c.lower h angle repeats = .ok c') ↔ ∃ once, c.lower h angle' 1 = .ok once) ∧
      ∀ c' once, c.lower h angle repeats = .ok c' → c.lower h angle' 1 = .ok once →
        c'.depth ≤ chosenRepeats angle h.qubitCount repeats * once.depth := by
  refine ⟨Circuit.depth_append, fun c g hin => ⟨fun index hindex => ?_, c.depth_push hin⟩,
    fun c index hindex => c.depth_erase hindex, fun c => ⟨c.depth_le_size, c.depth_eq_zero_iff⟩,
    fun c h angle angle' repeats hempty => ⟨Circuit.lower_succeeds_iff angle' 1, ?_⟩⟩
  · exact c.depth_insert hindex hin
  · exact fun c' once hc' honce => Circuit.depth_lower_le hempty hc' honce

/-- Two gates side by side. -/
def twoGates : Circuit (Gate Float) := ⟨2, [Gate.single .h 0, Gate.single .t 1]⟩

/-- A gate on both qubits. -/
def bothQubits : Gate Float := { kind := .named .cx, targets := [1], controls := [0] }

/-- The gate on both qubits comes between two gates side by side, and one of the two is taken out. A
Hamiltonian with a term on both qubits and one on the second is lowered in three repeats. -/
theorem depth_under_edits_between :
    twoGates.depth = 1 ∧
    (∃ c', twoGates.insert 1 bothQubits = .ok c' ∧ c'.depth ≤ 2 * twoGates.depth + 1) ∧
    (∃ c', twoGates.erase (R := Float) 0 = .ok c' ∧ c'.depth ≤ twoGates.depth) ∧
    ∃ c' once : Circuit (Gate Float), (⟨2, []⟩ : Circuit (Gate Float)).lower mixedHamiltonian 1 3 = .ok c' ∧
      (⟨2, []⟩ : Circuit (Gate Float)).lower mixedHamiltonian 1 1 = .ok once ∧
      c'.depth ≤ 3 * once.depth := by
  obtain ⟨-, hinsert, herase, -, hlower⟩ := depth_under_edits (γ := Gate Float)
  obtain ⟨c', hc', -, hbound, -⟩ := (hinsert twoGates bothQubits (by decide)).1 1 (by decide)
  obtain ⟨hiff, hrepeats⟩ := hlower ⟨2, []⟩ mixedHamiltonian 1 1 3 rfl
  obtain ⟨once, honce⟩ : ∃ c', (⟨2, []⟩ : Circuit (Gate Float)).lower mixedHamiltonian 1 1 = .ok c' :=
    ⟨_, lower_eq_ok.mpr ⟨mixedHamiltonian_accepted (by decide +kernel), rfl⟩⟩
  obtain ⟨c₃, hc₃⟩ := hiff.mpr ⟨once, honce⟩
  exact ⟨by cbv, ⟨c', hc', hbound⟩, herase twoGates 0 (by decide), c₃, once, hc₃, honce,
    hrepeats c₃ once hc₃ honce⟩

end GateCircuit
