/-
# Runs between two positions

A run between two positions checks the range and the width of the state, and then invokes the gates of
the range in turn, up to the first that fails. A gate reaches the state through kernels only, so where
kernels keep the width of the state, gates do. A range that is cut at a position in between then passes
the same checks in both halves, and the two runs together are the run of the whole range.

What a run invokes is recorded beside it: `traceAll` and `Circuit.traceRange` are `applyAll` and
`Circuit.runRange` with a list of the gates invoked (`Circuit.traceRange_result`).

Key definitions: `KeepsWidth`, `Trace`, `Circuit.traceRange`, `Leads`.
Key theorems: `applyAll_keepsWidth`, `Circuit.runRange_split`, `traceAll_spec`,
`Circuit.traceRange_refuses_iff`, `ranged_execution`.
-/
import Mathlib
import GateCircuit.Proofs.AppendedGates
import GateCircuit.Proofs.BuiltCircuits

namespace GateCircuit

variable {γ R σ : Type}

/-! ### The gates of a range -/

namespace Circuit

variable {c : Circuit γ} {start stop m : ℕ}

/-- The gates from position `start` up to but not including position `stop`. -/
def slice (c : Circuit γ) (start stop : ℕ) : List γ := (c.gates.drop start).take (stop - start)

theorem slice_append (c : Circuit γ) {i j k : ℕ} (hij : i ≤ j) (hjk : j ≤ k) :
    c.slice i j ++ c.slice j k = c.slice i k := by
  have hdrop : c.gates.drop j = (c.gates.drop i).drop (j - i) := by
    rw [List.drop_drop, Nat.add_sub_cancel' hij]
  have hlen : k - i = (j - i) + (k - j) := by omega
  rw [slice, slice, slice, hdrop, hlen, List.take_add]

theorem getElem?_slice (hm : start + m < stop) : (c.slice start stop)[m]? = c.gates[start + m]? := by
  have hlt : m < stop - start := by omega
  rw [slice, List.getElem?_take_of_lt hlt, List.getElem?_drop]

theorem length_slice_le : (c.slice start stop).length ≤ stop - start := List.length_take_le _ _

theorem take_slice (hm : start + m ≤ stop) : (c.slice start stop).take m = c.slice start (start + m) := by
  have hle : m ≤ stop - start := by omega
  rw [slice, slice, List.take_take, Nat.min_eq_left hle, Nat.add_sub_cancel_left]

end Circuit

/-! ### States of constant width -/

/-- A kernel leaves the number of qubits of the state as it is, whether it succeeds or fails. -/
def KeepsWidth (σ : Type) {R : Type} [QuantumState σ R] : Prop :=
  ∀ (kernel : KernelCall R) (s : σ),
    QuantumState.qubitCount (Circuit.endState (QuantumState.perform kernel s)) =
      QuantumState.qubitCount s

/-- The amplitudes of a register may change, their number does not. -/
theorem StateVector.keepsWidth [Scalar R] : KeepsWidth (StateVector R) := by
  intro kernel s
  simp only [QuantumState.perform, QuantumState.qubitCount]
  cases hperform : s.perform kernel with
  | error e => rfl
  | ok t => exact (StateVector.perform_shape hperform).2

variable [QuantumGate γ R] [QuantumState σ R]

theorem applyAll_keepsWidth (hkeeps : KeepsWidth σ) (gs : List γ) (s : σ) :
    QuantumState.qubitCount (Circuit.endState (applyAll gs s)) = QuantumState.qubitCount s :=
  applyAll_invariant (P := fun t => QuantumState.qubitCount t = QuantumState.qubitCount s)
    (fun kernel t ht => (hkeeps kernel t).trans ht) gs rfl

/-! ### A range in two halves -/

namespace Circuit

variable {c : Circuit γ}

/-- A range inside the gate list applies its slice, on a state that is wide enough. -/
theorem runRange_eq_slice {start stop : ℕ} {s : σ} (hstart : start ≤ stop) (hstop : stop ≤ c.size)
    (hwide : c.qubitCount ≤ QuantumState.qubitCount s) :
    c.runRange start stop s = applyAll (c.slice start stop) s :=
  runRange_eq_applyAll hstart hstop hwide

/-- **A range that is cut in two.** The second half is run on what the first has left behind, unless
the first has failed. -/
theorem runRange_split (hkeeps : KeepsWidth σ) {i j k : ℕ} (hij : i ≤ j) (hjk : j ≤ k)
    (hk : k ≤ c.size) (s : σ) : c.runRange i k s =
      match c.runRange i j s with
      | .ok _ t => c.runRange j k t
      | .error e t => .error e t := by
  have hik : ¬ (k < i ∨ c.size < k) := by omega
  have hfirst : ¬ (j < i ∨ c.size < j) := by omega
  by_cases hwide : c.qubitCount ≤ QuantumState.qubitCount s
  · have hsplit := applyAll_append (c.slice j k) (c.slice i j) s
    rw [slice_append c hij hjk] at hsplit
    have hcount := applyAll_keepsWidth hkeeps (c.slice i j) s
    rw [runRange_eq_slice (hij.trans hjk) hk hwide, runRange_eq_slice hij (hjk.trans hk) hwide, hsplit]
    cases hrun : applyAll (c.slice i j) s with
    | error e t => rfl
    | ok _ t =>
      -- the state in between is as wide as the first, so the second half finds it wide enough
      rw [hrun] at hcount
      have hwide' : c.qubitCount ≤ QuantumState.qubitCount t := hwide.trans_eq hcount.symm
      exact (runRange_eq_slice hjk hk hwide').symm
  · have hnarrow : QuantumState.qubitCount s < c.qubitCount := Nat.lt_of_not_le hwide
    simp only [runRange, if_neg hik, if_neg hfirst, if_pos hnarrow]

end Circuit

/-! ### What a run invokes -/

/-- A run and the gates it has invoked, in order. -/
structure Trace (γ R σ : Type) where
  invoked : List γ
  result : EStateM.Result (CircuitError R) σ Unit

/-- Applies gates one after the other, up to the first that fails, and records which. -/
def traceAll : List γ → σ → Trace γ R σ
  | [], s => ⟨[], .ok () s⟩
  | g :: gs, s =>
    match QuantumGate.apply g s with
    | .ok _ after => { traceAll gs after with invoked := g :: (traceAll gs after).invoked }
    | .error e after => ⟨[g], .error e after⟩

/-- Applies the gates of a range, and records which. -/
def Circuit.traceRange (c : Circuit γ) (start stop : ℕ) (s : σ) : Trace γ R σ :=
  if stop < start ∨ c.size < stop then ⟨[], .error (.invalidRange start stop c.size) s⟩
  else
    let available := QuantumState.qubitCount s
    if available < c.qubitCount then ⟨[], .error (.stateTooSmall c.qubitCount available) s⟩
    else traceAll (c.slice start stop) s

theorem traceAll_result : ∀ (gs : List γ) (s : σ), (traceAll gs s).result = applyAll gs s
  | [], _ => rfl
  | g :: gs, s => by
    simp only [traceAll, applyAll]
    cases QuantumGate.apply g s with
    | ok _ t => exact traceAll_result gs t
    | error e t => rfl

/-- The record takes nothing away from the run, and adds nothing to it. -/
theorem Circuit.traceRange_result (c : Circuit γ) (start stop : ℕ) (s : σ) :
    (c.traceRange start stop s).result = c.runRange start stop s := by
  simp only [traceRange, runRange, slice]
  split_ifs
  · rfl
  · rfl
  · exact traceAll_result _ s

/-- Gates succeed in turn, and lead from one state to another. -/
inductive Leads : List γ → σ → σ → Prop
  | nil {s : σ} : Leads [] s s
  | cons {g : γ} {gs : List γ} {s u t : σ} (hg : QuantumGate.apply g s = .ok () u)
      (hgs : Leads gs u t) : Leads (g :: gs) s t

/-- **Gates are invoked in order up to the first that fails**, and the gates before it have had their
effect. -/
theorem traceAll_spec : ∀ (gs : List γ) (s : σ),
    (∃ t, Leads gs s t ∧ traceAll gs s = ⟨gs, .ok () t⟩) ∨
    ∃ (m : ℕ) (g : γ) (u t : σ) (e : CircuitError R), gs[m]? = some g ∧ Leads (gs.take m) s u ∧
      QuantumGate.apply g u = .error e t ∧ traceAll gs s = ⟨gs.take (m + 1), .error e t⟩
  | [], s => Or.inl ⟨s, .nil, rfl⟩
  | g :: gs, s => by
    cases hg : QuantumGate.apply g s with
    | error e t =>
      refine Or.inr ⟨0, g, s, t, e, rfl, .nil, hg, ?_⟩
      simp only [traceAll, hg, List.take_succ_cons, List.take_zero]
    | ok _ u =>
      rcases traceAll_spec gs u with ⟨t, hleads, htrace⟩ | ⟨m, g', u', t, e, hm, hleads, hfail, htrace⟩
      · refine Or.inl ⟨t, .cons hg hleads, ?_⟩
        simp only [traceAll, hg, htrace]
      · refine Or.inr ⟨m + 1, g', u', t, e, hm, .cons hg hleads, hfail, ?_⟩
        simp only [traceAll, hg, htrace, List.take_succ_cons]

theorem traceAll_refuses {gs : List γ} {s t : σ} {e : CircuitError R} :
    traceAll gs s ≠ ⟨[], .error e t⟩ := by
  intro h
  cases gs with
  | nil =>
    rw [traceAll] at h
    cases h
  | cons g gs =>
    rw [traceAll] at h
    cases hg : QuantumGate.apply g s with
    | ok _ u => simp [hg] at h
    | error e' u => simp [hg] at h

/-- **Which runs are turned down** before any gate is invoked, and why. The range is looked at first. -/
theorem Circuit.traceRange_refuses_iff {c : Circuit γ} {start stop : ℕ} {s : σ}
    {e : CircuitError R} : c.traceRange start stop s = ⟨[], .error e s⟩ ↔
      ((stop < start ∨ c.size < stop) ∧ e = .invalidRange start stop c.size) ∨
      (start ≤ stop ∧ stop ≤ c.size ∧ QuantumState.qubitCount s < c.qubitCount ∧
        e = .stateTooSmall c.qubitCount (QuantumState.qubitCount s)) := by
  by_cases hrange : stop < start ∨ c.size < stop
  · have hnot : ¬ (start ≤ stop ∧ stop ≤ c.size) := by omega
    rw [traceRange, if_pos hrange]
    constructor
    · intro h
      cases h
      exact Or.inl ⟨hrange, rfl⟩
    · rintro (⟨-, rfl⟩ | ⟨hstart, hstop, -⟩)
      · rfl
      · exact absurd ⟨hstart, hstop⟩ hnot
  · have hin : start ≤ stop ∧ stop ≤ c.size := by omega
    rw [traceRange, if_neg hrange]
    by_cases hnarrow : QuantumState.qubitCount s < c.qubitCount
    · rw [if_pos hnarrow]
      constructor
      · intro h
        cases h
        exact Or.inr ⟨hin.1, hin.2, hnarrow, rfl⟩
      · rintro (⟨hbad, -⟩ | ⟨-, -, -, rfl⟩)
        · exact absurd hbad hrange
        · rfl
    · rw [if_neg hnarrow]
      constructor
      · exact fun h => absurd h traceAll_refuses
      · rintro (⟨hbad, -⟩ | ⟨-, -, hbad, -⟩)
        · exact absurd hbad hrange
        · exact absurd hbad hnarrow

/-- A run that passes the checks invokes all gates of the range, or those up to one that fails. -/
theorem Circuit.traceRange_spec {c : Circuit γ} {i k : ℕ} (hik : i ≤ k) (hk : k ≤ c.size) {s : σ}
    (hwide : c.qubitCount ≤ QuantumState.qubitCount s) :
    (∃ t, Leads (c.slice i k) s t ∧ c.traceRange i k s = ⟨c.slice i k, .ok () t⟩) ∨
    ∃ (p : ℕ) (g : γ) (u t : σ) (e : CircuitError R), i ≤ p ∧ p < k ∧ c.gates[p]? = some g ∧
      Leads (c.slice i p) s u ∧ QuantumGate.apply g u = .error e t ∧
      c.traceRange i k s = ⟨c.slice i (p + 1), .error e t⟩ := by
  have hrange : ¬ (k < i ∨ c.size < k) := by omega
  have htrace : c.traceRange i k s = traceAll (c.slice i k) s := by
    rw [traceRange, if_neg hrange, if_neg (Nat.not_lt.mpr hwide)]
  rw [htrace]
  rcases traceAll_spec (c.slice i k) s with hall | ⟨m, g, u, t, e, hm, hleads, hfail, hsome⟩
  · exact Or.inl hall
  · have hlt : i + m < k := by
      obtain ⟨hbound, -⟩ := List.getElem?_eq_some_iff.mp hm
      have hlength : (c.slice i k).length ≤ k - i := length_slice_le
      omega
    rw [getElem?_slice hlt] at hm
    rw [take_slice hlt.le] at hleads
    rw [take_slice hlt] at hsome
    exact Or.inr ⟨i + m, g, u, t, e, Nat.le_add_right i m, hlt, hm, hleads, hfail, hsome⟩

/-- **Runs between two positions compose, and stop at the first gate that fails.** For gates of any
type, and states of any type whose kernels keep the number of qubits: a run of a range is the run of its
first part, and then of its second part where the first has succeeded, with the same result and the same
final state. A run that passes the checks invokes the gates of the range in order; either all of them
succeed in turn, or those before some position do, the gate at this position fails, and it is the last
one invoked. And a run is turned down before any gate is invoked, with the state untouched, exactly if
there is no such range, or else if the state has too few qubits. -/
theorem ranged_execution (hkeeps : KeepsWidth σ) (c : Circuit γ) :
    (∀ (start stop : ℕ) (s : σ), (c.traceRange start stop s).result = c.runRange start stop s) ∧
    (∀ (i j k : ℕ) (s : σ), i ≤ j → j ≤ k → k ≤ c.size → c.runRange i k s =
      match c.runRange i j s with
      | .ok _ t => c.runRange j k t
      | .error e t => .error e t) ∧
    (∀ (i k : ℕ) (s : σ), i ≤ k → k ≤ c.size → c.qubitCount ≤ QuantumState.qubitCount s →
      (∃ t, Leads (c.slice i k) s t ∧ c.traceRange i k s = ⟨c.slice i k, .ok () t⟩) ∨
      ∃ (p : ℕ) (g : γ) (u t : σ) (e : CircuitError R), i ≤ p ∧ p < k ∧ c.gates[p]? = some g ∧
        Leads (c.slice i p) s u ∧ QuantumGate.apply g u = .error e t ∧
        c.traceRange i k s = ⟨c.slice i (p + 1), .error e t⟩) ∧
    ∀ (start stop : ℕ) (s : σ) (e : CircuitError R), c.traceRange start stop s = ⟨[], .error e s⟩ ↔
      ((stop < start ∨ c.size < stop) ∧ e = .invalidRange start stop c.size) ∨
      (start ≤ stop ∧ stop ≤ c.size ∧ QuantumState.qubitCount s < c.qubitCount ∧
        e = .stateTooSmall c.qubitCount (QuantumState.qubitCount s)) :=
  ⟨c.traceRange_result, fun _ _ _ s hij hjk hk => Circuit.runRange_split hkeeps hij hjk hk s,
    fun _ _ _ hik hk hwide => Circuit.traceRange_spec hik hk hwide,
    fun _ _ _ _ => Circuit.traceRange_refuses_iff⟩

/-! ### A state that takes notes -/

/-- A state that notes the kernels called, and refuses matrices once it has noted them. -/
structure Notebook where
  qubitCount : ℕ
  calls : List (KernelCall ℕ)

instance : QuantumState Notebook ℕ where
  qubitCount := Notebook.qubitCount
  perform kernel := fun s =>
    let after : Notebook := { s with calls := s.calls ++ [kernel] }
    match kernel with
    | .matrix .. => .error (.invalidMatrix 0 0) after
    | _ => .ok () after

theorem Notebook.keepsWidth : KeepsWidth Notebook := by
  intro kernel s
  cases kernel <;> rfl

/-- A gate by what it does. -/
structure ScriptedGate where
  action : Action ℕ

instance : QuantumGate ScriptedGate ℕ where
  name _ := "scripted"
  targets _ := []
  controls _ := []
  action := ScriptedGate.action
  isClifford _ := false
  isGaussian _ := false
  isDiagonal _ := false

/-- A string; a matrix, and a string where the matrix is refused; a string and then a failure; a string. -/
def scriptedCircuit : Circuit ScriptedGate :=
  let flip (q : Qubit) : KernelCall ℕ := .pauli [q] [] [.X]
  ⟨2, [⟨.ofCall (flip 0)⟩,
    ⟨.call (.matrix [0] [] #[]) fun
      | .ok _ => .done
      | .error _ => .ofCall (flip 1)⟩,
    ⟨.call (flip 2) fun _ => .fail (.noQubits "scripted")⟩,
    ⟨.ofCall (flip 3)⟩]⟩

/-- The second gate recovers, the third fails half way, and the fourth is not invoked. -/
theorem ranged_execution_scripted :
    KeepsWidth Notebook ∧
    scriptedCircuit.traceRange 0 4 (⟨3, []⟩ : Notebook) =
      ⟨scriptedCircuit.gates.take 3, .error (.noQubits "scripted") ⟨3, [.pauli [0] [] [.X],
        .matrix [0] [] #[], .pauli [1] [] [.X], .pauli [2] [] [.X]]⟩⟩ ∧
    scriptedCircuit.runRange 0 4 (⟨3, []⟩ : Notebook) =
      match scriptedCircuit.runRange 0 1 (⟨3, []⟩ : Notebook) with
      | .ok _ t => scriptedCircuit.runRange 1 4 t
      | .error e t => .error e t := by
  obtain ⟨-, hsplit, -, -⟩ := ranged_execution Notebook.keepsWidth scriptedCircuit
  exact ⟨Notebook.keepsWidth, rfl,
    hsplit 0 1 4 _ (Nat.zero_le 1) (by decide) (Nat.le_refl 4)⟩

end GateCircuit
