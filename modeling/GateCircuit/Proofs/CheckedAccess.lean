/-
# Kernels that check every access

The kernels of a register read and write amplitudes at indices they compute, and cut rows out of a
matrix. Here the same kernels check every such access and have no result once one of them misses its
array. On a well-formed register they always have the result of the unchecked kernels, provided that a
matrix has as many entries as its rows ask for: with all operands inside the register, setting target
bits and flipping bits never leads out of it.

Key definitions: `write?`, `loop?`, `writeBlock?`, `pairSweep?`, `StateVector.perform?`,
`GuardedRegister`.
Key theorems: `loop?_eq_some`, `denseSweep?_eq`, `pairSweep?_eq`, `StateVector.perform?_eq`,
`applyAll_guarded`.
-/
import Mathlib
import GateCircuit.Proofs.CircuitOperator

namespace GateCircuit

open Outcome

/-! ### Arrays and loops -/

section Loops

variable {α : Type}

/-- The array with an entry replaced; none if it has no such entry. -/
def write? (a : Array α) (i : ℕ) (value : α) : Option (Array α) :=
  if i < a.size then some (a.setIfInBounds i value) else none

theorem write?_eq_some {a : Array α} {i : ℕ} (h : i < a.size) (value : α) :
    write? a i value = some (a.setIfInBounds i value) := if_pos h

/-- A loop over the numbers below `n`, without a result once a step has none. -/
def loop? (step? : ℕ → α → Option α) : ℕ → α → Option α
  | 0, a => some a
  | n + 1, a => (loop? step? n a).bind (step? n)

/-- If every step has a result, that of another step, then so has the loop. -/
theorem loop?_eq_some {step? : ℕ → α → Option α} {step : ℕ → α → α} (inv : α → Prop) {n : ℕ}
    (h : ∀ k < n, ∀ a, inv a → step? k a = some (step k a) ∧ inv (step k a)) {a : α} (ha : inv a) :
    loop? step? n a = some (Nat.fold n (fun k _ a => step k a) a) ∧
      inv (Nat.fold n (fun k _ a => step k a) a) := by
  induction n with
  | zero => exact ⟨rfl, ha⟩
  | succ n ih =>
    obtain ⟨hloop, hinv⟩ := ih fun k hk => h k (Nat.lt_succ_of_lt hk)
    obtain ⟨hstep, hinv'⟩ := h n (Nat.lt_succ_self n) _ hinv
    rw [loop?, hloop, Nat.fold_succ]
    exact ⟨hstep, hinv'⟩

/-- A loop without a result in one step has none. -/
theorem loop?_eq_none {step? : ℕ → α → Option α} {k n : ℕ} (hk : k < n)
    (h : ∀ a, step? k a = none) (a : α) : loop? step? n a = none := by
  induction n with
  | zero => exact absurd hk (Nat.not_lt_zero k)
  | succ n ih =>
    rw [loop?]
    rcases Nat.lt_succ_iff_lt_or_eq.mp hk with hk | rfl
    · rw [ih hk]
      rfl
    · cases loop? step? k a with
      | none => rfl
      | some a => exact h a

/-- If every entry has a result, then so has the array. -/
theorem mapM_eq_some_map {β : Type} {f : α → Option β} {g : α → β} {as : Array α}
    (h : ∀ a ∈ as, f a = some (g a)) : as.mapM f = some (as.map g) := by
  have hlist := Outcome.mapM_eq_some_map fun a ha => h a (Array.mem_toList_iff.mp ha)
  rw [Array.mapM_eq_mapM_toList, hlist, ← Array.toList_map]
  rfl

end Loops

/-! ### The matrix kernel -/

section Dense

variable {R : Type} [Scalar R] {matrix : Array (Amplitude R)} {offsets : Array ℕ} {o : Operands}
  {amps : Array (Amplitude R)}

/-- A row of a matrix times a column; none if the matrix does not have the row. -/
def rowSum? (matrix old : Array (Amplitude R)) (row : ℕ) : Option (Amplitude R) :=
  if (row + 1) * old.size ≤ matrix.size then some (rowSum matrix old row) else none

/-- Multiplies the block at `base`, if all accesses hit. -/
def writeBlock? (matrix : Array (Amplitude R)) (offsets : Array ℕ) (base : ℕ)
    (amps : Array (Amplitude R)) : Option (Array (Amplitude R)) := do
  let old ← offsets.mapM fun offset => amps[base ||| offset]?
  loop?
    (fun row amps => do
      let offset ← offsets[row]?
      let sum ← rowSum? matrix old row
      write? amps (base ||| offset) sum)
    offsets.size amps

/-- Multiplies every block on which the controls are set, if all accesses hit. -/
def denseSweep? (matrix : Array (Amplitude R)) (offsets : Array ℕ) (o : Operands)
    (amps : Array (Amplitude R)) : Option (Array (Amplitude R)) :=
  loop?
    (fun base amps =>
      if base &&& o.targets == 0 && o.isActive base then writeBlock? matrix offsets base amps
      else some amps)
    amps.size amps

theorem rowSum?_eq {old : Array (Amplitude R)} {row : ℕ} (hrow : row < old.size)
    (hrows : old.size * old.size ≤ matrix.size) :
    rowSum? matrix old row = some (rowSum matrix old row) := by
  have hend : (row + 1) * old.size ≤ old.size * old.size := Nat.mul_le_mul_right _ hrow
  exact if_pos (hend.trans hrows)

theorem writeBlock?_eq (hrows : offsets.size * offsets.size ≤ matrix.size) {base : ℕ}
    (hin : ∀ offset ∈ offsets, base ||| offset < amps.size) :
    writeBlock? matrix offsets base amps = some (writeBlock matrix offsets base amps) ∧
      (writeBlock matrix offsets base amps).size = amps.size := by
  have hold : (offsets.mapM fun offset => amps[base ||| offset]?) =
      some (offsets.map fun offset => amps.getD (base ||| offset) 0) := by
    refine mapM_eq_some_map fun offset hoffset => ?_
    have hlt := hin offset hoffset
    simp [hlt]
  set old := offsets.map fun offset => amps.getD (base ||| offset) 0 with hold'
  have hsize : old.size = offsets.size := by simp [hold']
  rw [← hsize] at hrows
  have hstep : ∀ row < offsets.size, ∀ a : Array (Amplitude R), a.size = amps.size →
      (do
        let offset ← offsets[row]?
        let sum ← rowSum? matrix old row
        write? a (base ||| offset) sum) =
        some (a.setIfInBounds (base ||| offsets.getD row 0) (rowSum matrix old row)) ∧
      (a.setIfInBounds (base ||| offsets.getD row 0) (rowSum matrix old row)).size = amps.size := by
    intro row hrow a ha
    have hlt : base ||| offsets[row] < a.size := by
      rw [ha]
      exact hin _ (Array.getElem_mem hrow)
    have hwrite := write?_eq_some hlt (rowSum matrix old row)
    simp [hrow, rowSum?_eq (hsize ▸ hrow) hrows, hwrite, ha]
  rw [writeBlock?, hold]
  exact loop?_eq_some (fun a : Array (Amplitude R) => a.size = amps.size) hstep rfl

theorem denseSweep?_eq (hrows : offsets.size * offsets.size ≤ matrix.size)
    (hin : ∀ base < amps.size, ∀ offset ∈ offsets, base ||| offset < amps.size) :
    denseSweep? matrix offsets o amps = some (denseSweep matrix offsets o amps) := by
  have hstep : ∀ base < amps.size, ∀ a : Array (Amplitude R), a.size = amps.size →
      (if base &&& o.targets == 0 && o.isActive base then writeBlock? matrix offsets base a
        else some a) =
        some (if base &&& o.targets == 0 && o.isActive base then writeBlock matrix offsets base a
          else a) ∧
      (if base &&& o.targets == 0 && o.isActive base then writeBlock matrix offsets base a
        else a).size = amps.size := by
    intro base hbase a ha
    split
    · have hin' : ∀ offset ∈ offsets, base ||| offset < a.size := by
        rw [ha]
        exact hin base hbase
      obtain ⟨hblock, hsize⟩ := writeBlock?_eq hrows hin'
      exact ⟨hblock, hsize.trans ha⟩
    · exact ⟨rfl, ha⟩
  exact (loop?_eq_some (fun a : Array (Amplitude R) => a.size = amps.size) hstep rfl).1

end Dense

/-! ### The Pauli kernel -/

section Pairs

variable {R : Type} [Scalar R]

/-- `stay + flip * P` for a string that flips bits, if all accesses hit. -/
def pairSweep? (masks : PauliMasks) (o : Operands) (stay flip : Amplitude R)
    (amps : Array (Amplitude R)) : Option (Array (Amplitude R)) :=
  loop?
    (fun b amps =>
      if b &&& lowestBit masks.flips == 0 && o.isActive b then do
        let partner := b ^^^ masks.flips
        let here ← amps[b]?
        let there ← amps[partner]?
        let amps ← write? amps b (stay * here + flip * masks.phase partner * there)
        write? amps partner (stay * there + flip * masks.phase b * here)
      else some amps)
    amps.size amps

theorem pairSweep?_eq {masks : PauliMasks} {o : Operands} (stay flip : Amplitude R)
    {amps : Array (Amplitude R)} (hin : ∀ b < amps.size, b ^^^ masks.flips < amps.size) :
    pairSweep? masks o stay flip amps = some (masks.pairSweep o stay flip amps) := by
  refine (loop?_eq_some (fun a : Array (Amplitude R) => a.size = amps.size) (fun b hb a ha => ?_) rfl).1
  have hb' : b < a.size := by rwa [ha]
  have hpartner : b ^^^ masks.flips < a.size := by
    rw [ha]
    exact hin b hb
  split
  · refine ⟨?_, by simpa using ha⟩
    simp [write?, hb', hpartner]
  · exact ⟨rfl, ha⟩

end Pairs

/-! ### Kernel calls -/

/-- A matrix has as many entries as its rows ask for. -/
def KernelCall.HasRows {R : Type} : KernelCall R → Prop
  | .matrix ts _ entries => blockSize ts.length * blockSize ts.length ≤ entries.size
  | .pauli _ _ _ => True
  | .rotation _ _ _ _ => True

namespace StateVector

variable {R : Type} [Scalar R]

/-- Applies a matrix, if all accesses hit. -/
def applyMatrix? (s : StateVector R) (ts cs : List Qubit) (matrix : Array (Amplitude R)) :
    Option (Except (CircuitError R) (StateVector R)) :=
  match s.operands ts cs with
  | .error e => some (.error e)
  | .ok o =>
    if matrix.size = blockEntries (blockSize ts.length) then
      (denseSweep? matrix ((Array.range (blockSize ts.length)).map (spread ts)) o
        s.amplitudes).map fun amps => .ok { s with amplitudes := amps }
    else some (.error (.invalidMatrix (blockEntries (blockSize ts.length)) matrix.size))

/-- Applies `stay + flip * P` for a Pauli string `P`, if all accesses hit. A string without flips takes
the amplitudes one by one and computes no index. -/
def mixPauli? (s : StateVector R) (ts cs : List Qubit) (ps : List Pauli) (stay flip : Amplitude R) :
    Option (Except (CircuitError R) (StateVector R)) :=
  if ts.length ≠ ps.length then
    some (.error (.qubitCountMismatch "pauli" (min ps.length maxCount) (min ts.length maxCount)))
  else
    match s.operands ts cs with
    | .error e => some (.error e)
    | .ok o =>
      let masks := PauliMasks.ofString ts ps
      let swept :=
        if masks.flips = 0 then some (masks.scaleSweep o stay flip s.amplitudes)
        else pairSweep? masks o stay flip s.amplitudes
      swept.map fun amps => .ok { s with amplitudes := amps }

/-- The outcome of a kernel call, if all accesses hit. -/
def perform? (s : StateVector R) : KernelCall R → Option (Except (CircuitError R) (StateVector R))
  | .matrix ts cs entries => s.applyMatrix? ts cs entries
  | .pauli ts cs ps => s.mixPauli? ts cs ps 0 1
  | .rotation ts cs ps angle =>
    s.mixPauli? ts cs ps ⟨Scalar.cos (Scalar.half angle), 0⟩ ⟨0, -Scalar.sin (Scalar.half angle)⟩

theorem spread_lt {n : ℕ} {ts : List Qubit} (h : ∀ q ∈ ts, q < n) (m : ℕ) : spread ts m < 2 ^ n := by
  refine Nat.lt_pow_two_of_testBit _ fun i hi => testBit_spread_of_notMem ts m fun hmem => ?_
  exact absurd (h i hmem) (Nat.not_lt.mpr hi)

theorem applyMatrix?_eq {s : StateVector R} (hs : s.WellFormed) {ts cs : List Qubit}
    {matrix : Array (Amplitude R)}
    (hrows : blockSize ts.length * blockSize ts.length ≤ matrix.size) :
    s.applyMatrix? ts cs matrix = some (s.applyMatrix ts cs matrix) := by
  rw [applyMatrix?, applyMatrix]
  cases hops : s.operands ts cs with
  | error e => rfl
  | ok o =>
    obtain ⟨hfit, -⟩ := operands_eq_ok.mp hops
    have hin : ∀ base < s.amplitudes.size,
        ∀ offset ∈ (Array.range (blockSize ts.length)).map (spread ts),
          base ||| offset < s.amplitudes.size := by
      intro base hbase offset hoffset
      obtain ⟨m, -, rfl⟩ := Array.mem_map.mp hoffset
      rw [hs, dimension_eq] at hbase ⊢
      have hspread := spread_lt (fun q hq => hfit.inside q (List.mem_append_left _ hq)) m
      exact Nat.or_lt_two_pow hbase hspread
    have hsweep := denseSweep?_eq (o := o) (by simpa using hrows) hin
    simp only [hsweep]
    split
    · simp [bind, Except.bind, pure, Except.pure]
    · simp [bind, Except.bind, throw, throwThe, MonadExceptOf.throw]

theorem mixPauli?_eq {s : StateVector R} (hs : s.WellFormed) (ts cs : List Qubit) (ps : List Pauli)
    (stay flip : Amplitude R) :
    s.mixPauli? ts cs ps stay flip = some (s.mixPauli ts cs ps stay flip) := by
  rw [mixPauli?, mixPauli]
  split
  · rfl
  · cases hops : s.operands ts cs with
    | error e => rfl
    | ok o =>
      obtain ⟨hfit, -⟩ := operands_eq_ok.mp hops
      have hflips : (PauliMasks.ofString ts ps).flips < 2 ^ s.qubitCount := by
        rw [ofString_eq]
        exact flipMask_lt fun a ha =>
          hfit.inside a.1 (List.mem_append_left _ (List.of_mem_zip ha).1)
      have hin : ∀ b < s.amplitudes.size,
          b ^^^ (PauliMasks.ofString ts ps).flips < s.amplitudes.size := by
        rw [hs, dimension_eq]
        exact fun b hb => Nat.xor_lt_two_pow hb hflips
      simp only [pairSweep?_eq stay flip hin]
      split <;> simp [bind, Except.bind, pure, Except.pure, *]

/-- **No access misses.** The checked kernels have the outcome of the kernels. -/
theorem perform?_eq {s : StateVector R} (hs : s.WellFormed) {call : KernelCall R}
    (hrows : call.HasRows) : s.perform? call = some (s.perform call) := by
  cases call with
  | matrix ts cs entries => exact applyMatrix?_eq hs hrows
  | pauli ts cs ps => exact mixPauli?_eq hs ts cs ps _ _
  | rotation ts cs ps angle => exact mixPauli?_eq hs ts cs ps _ _

/-! ### Calls that fit -/

theorem mixPauli_shape {s t : StateVector R} {ts cs : List Qubit} {ps : List Pauli}
    {stay flip : Amplitude R} (h : s.mixPauli ts cs ps stay flip = .ok t) :
    t.amplitudes.size = s.amplitudes.size ∧ t.qubitCount = s.qubitCount := by
  obtain ⟨hfit, hlen⟩ := mixPauli_fits h
  rw [mixPauli, if_neg (not_not.mpr hlen), operands_eq_ok.mpr ⟨hfit, rfl⟩] at h
  obtain rfl := Except.ok.inj h
  refine ⟨size_sweep ?_ stay flip s.amplitudes, rfl⟩
  rw [ofString_eq]
  exact isActive_xor_flipMask hfit.distinct

/-- Calls change amplitudes, not the number of them. -/
theorem perform_shape {s t : StateVector R} {call : KernelCall R} (h : s.perform call = .ok t) :
    t.amplitudes.size = s.amplitudes.size ∧ t.qubitCount = s.qubitCount := by
  cases call with
  | matrix ts cs entries =>
    have hfit : FitOperands s.qubitCount (ts ++ cs) := (fits_of_perform_ok h).operands
    have hsize : entries.size = blockEntries (blockSize ts.length) := (fits_of_perform_ok h).size
    rw [perform, applyMatrix, operands_eq_ok.mpr ⟨hfit, rfl⟩] at h
    simp only [bind, Except.bind, hsize, if_true] at h
    obtain rfl := Except.ok.inj h
    exact ⟨size_denseSweep entries hfit.distinct (blockSize_le _) _, rfl⟩
  | pauli ts cs ps => exact mixPauli_shape h
  | rotation ts cs ps angle => exact mixPauli_shape h

/-- A call keeps a register well formed and as wide as it was, whether it succeeds or not. -/
theorem perform_keeps {s : StateVector R} (hs : s.WellFormed) (call : KernelCall R) :
    (Circuit.endState (QuantumState.perform call s)).WellFormed ∧
      (Circuit.endState (QuantumState.perform call s)).qubitCount = s.qubitCount := by
  simp only [QuantumState.perform]
  cases hperform : s.perform call with
  | error e => exact ⟨hs, rfl⟩
  | ok t =>
    obtain ⟨hsize, hcount⟩ := perform_shape hperform
    refine ⟨?_, hcount⟩
    rw [Circuit.endState, WellFormed, hsize, hcount]
    exact hs

/-- A call that fits succeeds, whatever the scalars. -/
theorem perform_ok_of_fits {s : StateVector R} {call : KernelCall R} (h : call.Fits s.qubitCount) :
    ∃ t, s.perform call = .ok t := by
  cases hperform : s.perform call with
  | ok t => exact ⟨t, rfl⟩
  | error e =>
    have hops := (perform_error h.size).mp hperform
    rw [operands_eq_ok.mpr ⟨h.operands, rfl⟩] at hops
    cases hops

end StateVector

/-! ### Guarded registers -/

/-- A register under kernels that check every access. Once an access has missed, there is no register
any more, and nothing brings it back. -/
structure GuardedRegister (R : Type) where
  register? : Option (StateVector R)

instance {R : Type} [Scalar R] : QuantumState (GuardedRegister R) R where
  qubitCount g := g.register?.elim 0 StateVector.qubitCount
  perform call g :=
    match g.register? with
    | none => .ok () g
    | some s =>
      match s.perform? call with
      | none => .ok () ⟨none⟩
      | some (.ok after) => .ok () ⟨some after⟩
      | some (.error e) => .error e g

section Guarded

variable {R : Type} [Scalar R]

/-- **One call.** A call that fits succeeds, on the guarded register as well. -/
theorem perform_guarded {s : StateVector R} (hs : s.WellFormed) {call : KernelCall R}
    (hfits : call.Fits s.qubitCount) (hrows : call.HasRows) :
    ∃ t : StateVector R, QuantumState.perform call s = .ok () t ∧
      QuantumState.perform call (⟨some s⟩ : GuardedRegister R) = .ok () ⟨some t⟩ ∧
      t.WellFormed ∧ t.qubitCount = s.qubitCount := by
  obtain ⟨t, ht⟩ := StateVector.perform_ok_of_fits hfits
  obtain ⟨hsize, hcount⟩ := StateVector.perform_shape ht
  refine ⟨t, ?_, ?_, ?_, hcount⟩
  · simp only [QuantumState.perform, ht]
  · simp only [QuantumState.perform, StateVector.perform?_eq hs hrows, ht]
  · rw [StateVector.WellFormed, hsize, hcount]
    exact hs

/-- **A list of gates.** Gates whose calls fit all succeed, and no access misses. -/
theorem applyAll_guarded {gs : List (Gate R)} : ∀ {s : StateVector R}, s.WellFormed →
    (∀ g ∈ gs, g.kernel.Fits s.qubitCount ∧ g.kernel.HasRows) →
    ∃ t : StateVector R, applyAll gs s = .ok () t ∧
      applyAll gs (⟨some s⟩ : GuardedRegister R) = .ok () ⟨some t⟩ ∧
      t.WellFormed ∧ t.qubitCount = s.qubitCount := by
  induction gs with
  | nil => exact fun hs _ => ⟨_, rfl, rfl, hs, rfl⟩
  | cons g gs ih =>
    intro s hs h
    rw [List.forall_mem_cons] at h
    obtain ⟨t, ht, ht', hwf, hn⟩ := perform_guarded hs h.1.1 h.1.2
    rw [← hn] at h
    obtain ⟨u, hu, hu', hwf', hn'⟩ := ih hwf h.2
    refine ⟨u, ?_, ?_, hwf', hn'.trans hn⟩
    · rw [applyAll_cons_of_ok ((apply_eq_perform g s).trans ht), hu]
    · rw [applyAll_cons_of_ok ((apply_eq_perform g _).trans ht'), hu']

end Guarded
end GateCircuit
