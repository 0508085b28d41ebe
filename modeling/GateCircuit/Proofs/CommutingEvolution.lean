/-
# The evolution under commuting terms

The rotations about one string by two angles come to the rotation by their sum, and the rotations about
two strings commute if the strings do. So if any two terms of a Hamiltonian have an even number of
conflicts then the repeats of a lowered circuit can be regrouped, all rotations of a term together, and
what they come to is one slice of rotations by the whole angle. The slice does not depend on the order of
the terms.

Key definitions: `turn`, `evolution`, `TermsCommute`.
Key theorems: `turn_add`, `turn_pow`, `gatesOperator_slice`, `gatesOperator_slices`, `evolution_pow`,
`evolution_perm`, `lower_run_eq_slice`, `commuting_evolution`.
-/
import Mathlib
import GateCircuit.Proofs.AppendedGates
import GateCircuit.Proofs.DiagonalEvolution
import GateCircuit.Proofs.InnerProduct
import GateCircuit.Proofs.PauliConflicts

namespace GateCircuit

/-! ### Rotations -/

/-- The rotation about a string by twice the angle `x`. -/
noncomputable def turn (string : List (Qubit × Pauli)) (x : ℝ) : Operator :=
  mixOperator string (Real.cos x) (-(Real.sin x * Complex.I))

section Strings

variable {string string' : List (Qubit × Pauli)}

@[simp] theorem turn_zero (string : List (Qubit × Pauli)) : turn string 0 = 1 := by
  have hcos : ((Real.cos 0 : ℝ) : ℂ) = 1 := by simp
  have hsin : -(((Real.sin 0 : ℝ) : ℂ) * Complex.I) = 0 := by simp
  rw [turn, hcos, hsin, mixOperator, one_smul, zero_smul, add_zero]
  rfl

/-- **Angles add up.** -/
theorem turn_add (hnd : (string.map Prod.fst).Nodup) (x y : ℝ) :
    turn string (x + y) = turn string x * turn string y := by
  have hstay : ((Real.cos (x + y) : ℝ) : ℂ) = Real.cos x * Real.cos y +
      -(Real.sin x * Complex.I) * -(Real.sin y * Complex.I) := by
    rw [Real.cos_add]
    push_cast
    linear_combination (-(Complex.sin x * Complex.sin y)) * Complex.I_sq
  have hflip : -(((Real.sin (x + y) : ℝ) : ℂ) * Complex.I) =
      Real.cos x * -(Real.sin y * Complex.I) + -(Real.sin x * Complex.I) * Real.cos y := by
    rw [Real.sin_add]
    push_cast
    ring
  rw [turn, hstay, hflip, ← mixOperator_comp hnd]
  rfl

/-- A rotation in repeats is a rotation by the multiple of its angle. -/
theorem turn_pow (hnd : (string.map Prod.fst).Nodup) (x : ℝ) (r : ℕ) :
    turn string x ^ r = turn string (r * x) := by
  induction r with
  | zero => simp
  | succ r ih =>
    have hangle : ((r + 1 : ℕ) : ℝ) * x = r * x + x := by
      push_cast
      ring
    rw [pow_succ, ih, hangle, turn_add hnd]

/-- Mixtures of commuting strings commute. -/
theorem mixOperator_commute (hcomm : Commute (stringOperator string) (stringOperator string'))
    (stay flip stay' flip' : ℂ) :
    Commute (mixOperator string stay flip) (mixOperator string' stay' flip') := by
  have hone : ∀ A : Operator, Commute (LinearMap.id : Operator) A := Commute.one_left
  have hstring : Commute (stringOperator string) (mixOperator string' stay' flip') :=
    ((hone _).symm.smul_right stay').add_right (hcomm.smul_right flip')
  exact ((hone _).smul_left stay).add_left (hstring.smul_left flip)

/-- Rotations about strings with an even number of conflicts commute, by whatever angles. -/
theorem turn_commute (hnd : (string.map Prod.fst).Nodup) (hnd' : (string'.map Prod.fst).Nodup)
    (heven : Even (conflicts string string')) (x y : ℝ) :
    Commute (turn string x) (turn string' y) :=
  mixOperator_commute (stringOperator_commute hnd hnd' heven) _ _ _ _

end Strings

/-! ### Products of commuting factors -/

/-- A power of a product of commuting factors is the product of their powers. -/
theorem prod_map_pow_of_commute {M α : Type} [Monoid M] {f : α → M} {as : List α}
    (hcomm : as.Pairwise fun a a' => Commute (f a) (f a')) (r : ℕ) :
    (as.map f).prod ^ r = (as.map fun a => f a ^ r).prod := by
  induction as with
  | nil => simp
  | cons a as ih =>
    obtain ⟨ha, hrest⟩ := List.pairwise_cons.mp hcomm
    have hfirst : Commute (f a) (as.map f).prod := by
      refine Commute.list_prod_right _ _ fun A hA => ?_
      obtain ⟨a', ha', rfl⟩ := List.mem_map.mp hA
      exact ha a' ha'
    rw [List.map_cons, List.prod_cons, hfirst.mul_pow, ih hrest, List.map_cons, List.prod_cons]

/-! ### Terms -/

namespace PauliTerm

/-- The number of qubits on which the strings of two terms conflict. -/
def conflicts {R : Type} (t t' : PauliTerm R) : ℕ :=
  GateCircuit.conflicts (t.qubits.zip t.paulis) (t'.qubits.zip t'.paulis)

/-- The rotation of a term by its weight times an angle. -/
noncomputable def turned (t : PauliTerm ℝ) (angle : ℝ) : Operator :=
  turn (t.qubits.zip t.paulis) (t.coef.re * angle / 2)

end PauliTerm

/-- The rotations of all terms by one angle, the first term first. -/
noncomputable def evolution (ts : List (PauliTerm ℝ)) (angle : ℝ) : Operator :=
  (ts.reverse.map fun t => t.turned angle).prod

/-- The rotations of any two terms commute. -/
def TermsCommute (ts : List (PauliTerm ℝ)) : Prop :=
  ts.Pairwise fun t t' => ∀ x y, Commute (t.turned x) (t'.turned y)

section Terms

variable {ts ts' : List (PauliTerm ℝ)}

theorem rotationGate_operator (scale : ℝ) (t : PauliTerm ℝ) :
    (rotationGate scale t).kernel.operator = t.turned scale :=
  controlled_nil _

theorem evolution_append (as bs : List (PauliTerm ℝ)) (angle : ℝ) :
    evolution (as ++ bs) angle = evolution bs angle * evolution as angle := by
  rw [evolution, List.reverse_append, List.map_append, List.prod_append, evolution, evolution]

theorem evolution_cons (t : PauliTerm ℝ) (ts : List (PauliTerm ℝ)) (angle : ℝ) :
    evolution (t :: ts) angle = evolution ts angle * t.turned angle := by
  rw [← List.singleton_append, evolution_append]
  congr 1

/-- One slice of rotations is the evolution by the angle of the slice. -/
theorem gatesOperator_slice (scale : ℝ) (ts : List (PauliTerm ℝ)) :
    gatesOperator (ts.map (rotationGate scale)) = evolution ts scale := by
  induction ts with
  | nil => rfl
  | cons t ts ih =>
    rw [List.map_cons, gatesOperator, ih, rotationGate_operator, evolution, evolution,
      List.reverse_cons, List.map_append, List.prod_append, List.map_singleton, List.prod_singleton]
    rfl

/-- Repeated slices are a power of one slice. -/
theorem gatesOperator_slices (slice : List (Gate ℝ)) (r : ℕ) :
    gatesOperator (List.replicate r slice).flatten = gatesOperator slice ^ r := by
  induction r with
  | zero => rfl
  | succ r ih =>
    rw [List.replicate_succ, List.flatten_cons, gatesOperator_append, ih, pow_succ]
    rfl

theorem TermsCommute.perm (hcomm : TermsCommute ts) (hperm : ts.Perm ts') : TermsCommute ts' := by
  have hsymm : ∀ {t t' : PauliTerm ℝ}, (∀ x y, Commute (t.turned x) (t'.turned y)) →
      ∀ x y, Commute (t'.turned x) (t.turned y) := fun h x y => (h y x).symm
  exact (hperm.pairwise_iff hsymm).mp hcomm

theorem TermsCommute.of_conflicts
    (hnd : ∀ t ∈ ts, ((t.qubits.zip t.paulis).map Prod.fst).Nodup)
    (heven : ts.Pairwise fun t t' => Even (t.conflicts t')) : TermsCommute ts := by
  refine heven.imp_of_mem fun {t t'} ht ht' h x y => ?_
  exact turn_commute (hnd t ht) (hnd t' ht') h _ _

/-- **Commuting terms evolve by the whole angle**, in however many repeats. -/
theorem evolution_pow (hnd : ∀ t ∈ ts, ((t.qubits.zip t.paulis).map Prod.fst).Nodup)
    (hcomm : TermsCommute ts) (angle : ℝ) (r : ℕ) :
    evolution ts angle ^ r = evolution ts (r * angle) := by
  have hcomm' : TermsCommute ts.reverse := hcomm.perm ts.reverse_perm.symm
  have hpow : ∀ t ∈ ts.reverse, t.turned angle ^ r = t.turned (r * angle) := by
    intro t ht
    have hangle : r * (t.coef.re * angle / 2) = t.coef.re * (r * angle) / 2 := by ring
    rw [PauliTerm.turned, turn_pow (hnd t (List.mem_reverse.mp ht)), hangle, PauliTerm.turned]
  rw [evolution, evolution, prod_map_pow_of_commute (hcomm'.imp fun h => h angle angle),
    List.map_congr_left hpow]

/-- **The order of commuting terms does not matter.** -/
theorem evolution_perm (hcomm : TermsCommute ts) (hperm : ts.Perm ts') (angle : ℝ) :
    evolution ts angle = evolution ts' angle := by
  have hreverse : ts.reverse.Perm ts'.reverse :=
    (ts.reverse_perm.trans hperm).trans ts'.reverse_perm.symm
  have hcomm' : TermsCommute ts.reverse := hcomm.perm ts.reverse_perm.symm
  have hpairwise : (ts.reverse.map fun t => t.turned angle).Pairwise Commute :=
    List.pairwise_map.mpr (hcomm'.imp fun h => h angle angle)
  exact (hreverse.map _).prod_eq' hpairwise

end Terms

/-! ### Lowered circuits -/

section Accepted

variable {h h' : Hamiltonian ℝ} {n : ℕ}

theorem TermAccepted.nodup {width k : ℕ} {t : PauliTerm ℝ} (ht : TermAccepted width n k t) :
    ((t.qubits.zip t.paulis).map Prod.fst).Nodup := by
  rw [List.map_fst_zip ht.lengths.le]
  exact ht.distinct

/-- A term is accepted wherever it stands: its position is for the message only. -/
theorem TermAccepted.move {width k : ℕ} {t : PauliTerm ℝ} (ht : TermAccepted width n k t) (j : ℕ) :
    TermAccepted width n j t := by
  refine { ht with real := ?_ }
  obtain ⟨x, hx⟩ := ht.real
  unfold PauliTerm.realCoef at hx ⊢
  split at hx
  · cases hx
  · exact ⟨_, if_neg (by assumption)⟩

/-- The strings of accepted terms have distinct qubits. -/
theorem accepted_nodup (haccepted : ∀ k t, h.terms[k]? = some t → TermAccepted h.qubitCount n k t) :
    ∀ t ∈ h.terms, ((t.qubits.zip t.paulis).map Prod.fst).Nodup := by
  intro t ht
  obtain ⟨k, hk⟩ := List.getElem?_of_mem ht
  exact (haccepted k t hk).nodup

/-- The terms of a permuted Hamiltonian are accepted if those of the Hamiltonian are. -/
theorem accepted_perm (haccepted : ∀ k t, h.terms[k]? = some t → TermAccepted h.qubitCount n k t)
    (hcount : h'.qubitCount = h.qubitCount) (hperm : h'.terms.Perm h.terms) :
    ∀ k t, h'.terms[k]? = some t → TermAccepted h'.qubitCount n k t := by
  intro k t ht
  have hmem : t ∈ h.terms := hperm.mem_iff.mp (List.mem_of_getElem? ht)
  obtain ⟨j, hj⟩ := List.getElem?_of_mem hmem
  rw [hcount]
  exact (haccepted j t hj).move k

/-- One slice of rotations fits the register. -/
theorem slice_fit (haccepted : ∀ k t, h.terms[k]? = some t → TermAccepted h.qubitCount n k t)
    (scale : ℝ) : ∀ g ∈ h.terms.map (rotationGate scale), g.kernel.Fits n := by
  intro g hg
  obtain ⟨t, ht, rfl⟩ := List.mem_map.mp hg
  obtain ⟨k, hk⟩ := List.getElem?_of_mem ht
  exact (haccepted k t hk).fits scale

end Accepted

/-- **Repeats do not matter.** If the terms commute then the lowered circuit runs as the circuit with one
slice of rotations by the whole angle. -/
theorem lower_run_eq_slice {γ : Type} [CarriesGates γ ℝ] {c c' : Circuit γ} {h : Hamiltonian ℝ}
    {angle : ℝ} {repeats : ℕ} (hlower : c.lower h angle repeats = .ok c')
    (hcomm : TermsCommute h.terms) {s : StateVector ℝ} (hs : s.WellFormed) :
    c'.run s = (c.append (h.terms.map (rotationGate angle))).run s := by
  obtain ⟨haccepted, r, hr, rfl⟩ := IsLowering.eq_append (.inr ⟨repeats, hlower⟩)
  have hnd := accepted_nodup haccepted
  have hfits := rotations_fit haccepted r (angle / r)
  have hfits' := slice_fit haccepted angle
  refine Circuit.append_run_congr hfits hfits' ?_ hs
  have hshare : (r : ℝ) * (angle / r) = angle :=
    mul_div_cancel₀ angle (Nat.cast_ne_zero.mpr hr.ne')
  calc gatesOperator (List.replicate r (h.terms.map (rotationGate (angle / r)))).flatten
      = gatesOperator (h.terms.map (rotationGate (angle / r))) ^ r := gatesOperator_slices _ r
    _ = evolution h.terms (angle / r) ^ r := by rw [gatesOperator_slice]
    _ = evolution h.terms (r * (angle / r)) := evolution_pow hnd hcomm _ r
    _ = evolution h.terms angle := by rw [hshare]
    _ = gatesOperator (h.terms.map (rotationGate angle)) := (gatesOperator_slice angle _).symm

/-- **Commuting terms are lowered exactly.** If any two terms of a Hamiltonian that is accepted have an
even number of conflicts then the Hamiltonian with its terms in any other order is accepted as well, in
any number of repeats, and the two circuits run alike on every register. They run to the end wherever the
circuit did to which the rotations were appended. -/
theorem commuting_evolution {γ : Type} [CarriesGates γ ℝ] {c c' : Circuit γ} {h h' : Hamiltonian ℝ}
    {angle : ℝ} {repeats : ℕ} (hlower : c.lower h angle repeats = .ok c')
    (heven : h.terms.Pairwise fun t t' => Even (t.conflicts t'))
    (hcount : h'.qubitCount = h.qubitCount) (hperm : h'.terms.Perm h.terms) (repeats' : ℕ) :
    ∃ c'' : Circuit γ, c.lower h' angle repeats' = .ok c'' ∧
      ∀ s : StateVector ℝ, s.WellFormed →
        c''.run s = c'.run s ∧
        ((∃ u, c.run s = .ok () u) → ∃ t, c'.run s = .ok () t ∧ c''.run s = .ok () t) := by
  obtain ⟨haccepted, -⟩ := lower_eq_ok.mp hlower
  have haccepted' := accepted_perm haccepted hcount hperm
  have hcomm : TermsCommute h.terms := .of_conflicts (accepted_nodup haccepted) heven
  have hcomm' : TermsCommute h'.terms := hcomm.perm hperm.symm
  obtain ⟨c'', hlower'⟩ : ∃ c'', c.lower h' angle repeats' = .ok c'' :=
    ⟨_, lower_eq_ok.mpr ⟨haccepted', rfl⟩⟩
  refine ⟨c'', hlower', fun s hs => ?_⟩
  have hsame : c''.run s = c'.run s := by
    rw [lower_run_eq_slice hlower hcomm hs, lower_run_eq_slice hlower' hcomm' hs]
    refine Circuit.append_run_congr (slice_fit haccepted' angle) (slice_fit haccepted angle) ?_ hs
    rw [gatesOperator_slice, gatesOperator_slice, evolution_perm hcomm' hperm]
  refine ⟨hsame, fun ⟨u, hu⟩ => ?_⟩
  obtain ⟨t, ht, -⟩ := Circuit.append_run_becomes (slice_fit haccepted angle) hs hu
  rw [← lower_run_eq_slice hlower hcomm hs] at ht
  exact ⟨t, ht, hsame.trans ht⟩

/-- An exchange coupling of two qubits: three terms, any two of which conflict on both qubits. -/
noncomputable def exchangeTerms : List (PauliTerm ℝ) :=
  [.ofOps (.ofReal 1) [(0, .X), (1, .X)], .ofOps (.ofReal (1 / 2)) [(1, .Y), (0, .Y)], .zz 0 1 (-1)]

theorem exchangeTerms_accepted (k : ℕ) {t : PauliTerm ℝ} (ht : t ∈ exchangeTerms) :
    TermAccepted 2 2 k t := by
  have hqubits : ∀ q ∈ [0, 1], q < 2 := by decide
  have hqubits' : ∀ q ∈ [1, 0], q < 2 := by decide
  simp only [exchangeTerms, List.mem_cons, List.not_mem_nil, or_false] at ht
  rcases ht with rfl | rfl | rfl
  · exact ⟨rfl, hqubits, realCoef_exact rfl, by decide, hqubits⟩
  · exact ⟨rfl, hqubits', realCoef_exact rfl, by decide, hqubits'⟩
  · exact ⟨rfl, hqubits, realCoef_exact rfl, by decide, hqubits⟩

/-- The coupling in three repeats, and in one with its terms in the other order, on a register with a
qubit to spare. -/
theorem commuting_evolution_exchange :
    ∃ c' c'' : Circuit (Gate ℝ),
      (⟨2, []⟩ : Circuit (Gate ℝ)).lower ⟨2, exchangeTerms⟩ 1 3 = .ok c' ∧
      (⟨2, []⟩ : Circuit (Gate ℝ)).lower ⟨2, exchangeTerms.reverse⟩ 1 1 = .ok c'' ∧
      ∃ t : StateVector ℝ, c'.run (basisState 3 5 : StateVector ℝ) = .ok () t ∧
        c''.run (basisState 3 5 : StateVector ℝ) = .ok () t := by
  obtain ⟨c', hc'⟩ : ∃ c', (⟨2, []⟩ : Circuit (Gate ℝ)).lower ⟨2, exchangeTerms⟩ 1 3 = .ok c' :=
    ⟨_, lower_eq_ok.mpr ⟨fun k t ht => exchangeTerms_accepted k (List.mem_of_getElem? ht), rfl⟩⟩
  have heven : exchangeTerms.Pairwise fun t t' => Even (t.conflicts t') := by
    simp only [exchangeTerms, List.pairwise_cons]
    decide
  have hcount : (⟨2, exchangeTerms.reverse⟩ : Hamiltonian ℝ).qubitCount =
      (⟨2, exchangeTerms⟩ : Hamiltonian ℝ).qubitCount := rfl
  obtain ⟨c'', hc'', hruns⟩ := commuting_evolution hc' heven hcount (List.reverse_perm _) 1
  have hempty : (⟨2, []⟩ : Circuit (Gate ℝ)).run (basisState 3 5 : StateVector ℝ) =
      .ok () (basisState 3 5) := Circuit.run_eq_applyAll (by show 2 ≤ 3; decide)
  obtain ⟨-, hsucceeds⟩ := hruns _ (StateVector.wellFormed_basisState 3 5)
  exact ⟨c', c'', hc', hc'', hsucceeds ⟨_, hempty⟩⟩

/-- A flip and a sign on one qubit, which do not commute. -/
noncomputable def spinTerms : List (PauliTerm ℝ) := [.x 0 1, .z 0 (1 / 2)]

theorem spinTerms_accepted (k : ℕ) {t : PauliTerm ℝ} (ht : t ∈ spinTerms) : TermAccepted 2 2 k t := by
  have hqubits : ∀ q ∈ [0], q < 2 := by decide
  obtain rfl | rfl : t = .x 0 1 ∨ t = .z 0 (1 / 2) := by simpa [spinTerms] using ht
  all_goals exact ⟨rfl, hqubits, realCoef_exact rfl, List.nodup_singleton 0, hqubits⟩

end GateCircuit
