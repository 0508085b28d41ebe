/-
# Registers that are changed in place

A kernel makes a new register of an old one. Here the kernels are carried out in place instead: the
arguments are checked first, then amplitudes are written one after the other, and a step that fails
leaves the register as it is by then. No check stands behind a write, so a call that fails has changed
nothing, and in place a call comes to what the kernel makes of the register. A register that is set to
basis states and goes through calls, whether these succeed or not, has an amplitude for every basis
state all the time.

A call is refused for the first thing found wrong with it. A matrix is measured after its operands, a
Pauli string before them.

Key definitions: `StateVector.callInPlace`, `StateVector.setBasisInPlace`, `StateVector.Reached`,
`KernelCall.OnString`.
Key theorems: `StateVector.callInPlace_eq`, `StateVector.setBasisInPlace_eq`,
`StateVector.Reached.wellFormed`, `reached_register_calls`.
-/
import Mathlib
import GateCircuit.Proofs.CheckedAccess

namespace GateCircuit

open Outcome

/-! ### Programs in place -/

namespace StateVector

section Programs

variable {R α : Type}

/-- Steps that change a register in place. A step that fails leaves the register as it is by then. -/
abbrev InPlace (R : Type) : Type → Type := EStateM (CircuitError R) (StateVector R)

/-- Writes one amplitude. -/
def write (i : ℕ) (value : Amplitude R) : InPlace R Unit :=
  fun s => .ok () { s with amplitudes := s.amplitudes.setIfInBounds i value }

/-- Takes a step for every number below a bound. -/
def forBelow (step : ℕ → InPlace R Unit) : ℕ → InPlace R Unit
  | 0 => pure ()
  | n + 1 => do
    forBelow step n
    step n

/-- Takes a step for every basis index. -/
def forEach (step : ℕ → InPlace R Unit) : InPlace R Unit := do
  let size ← look fun s => .ok s.amplitudes.size
  forBelow step size

end Programs

section Kernels

variable {R : Type} [Scalar R]

/-- Reads an amplitude. -/
def read (i : ℕ) : InPlace R (Amplitude R) := look fun s => .ok (s.amplitudes.getD i 0)

/-- Whether a register has a basis state. -/
def checkBasis (index : ℕ) (s : StateVector R) : Except (CircuitError R) Unit :=
  if s.amplitudes.size ≤ index then .error (.invalidDimension index) else .ok ()

/-- Whether a matrix has the size that its number of targets asks for. -/
def checkMatrix (k : ℕ) (matrix : Array (Amplitude R)) : Except (CircuitError R) Unit :=
  if matrix.size = blockEntries (blockSize k) then .ok ()
  else .error (.invalidMatrix (blockEntries (blockSize k)) matrix.size)

/-- Whether a Pauli string has an operator for each target. -/
def checkString (ts : List Qubit) (ps : List Pauli) : Except (CircuitError R) Unit :=
  if ts.length ≠ ps.length then
    .error (.qubitCountMismatch "pauli" (min ps.length maxCount) (min ts.length maxCount))
  else .ok ()

/-- Sets the register to a basis state: all amplitudes to zero, then one of them to one. -/
def setBasisInPlace (index : ℕ) : InPlace R Unit := do
  look (checkBasis index)
  forEach fun i => write i 0
  write index 1

/-- Multiplies the block at `base`: reads all of it, then writes row by row. -/
def blockInPlace (matrix : Array (Amplitude R)) (offsets : Array ℕ) (base : ℕ) : InPlace R Unit := do
  let old ← look fun s => .ok (offsets.map fun offset => s.amplitudes.getD (base ||| offset) 0)
  forBelow (fun row => write (base ||| offsets.getD row 0) (rowSum matrix old row)) offsets.size

/-- Applies a matrix where all controls are set. -/
def applyMatrixInPlace (ts cs : List Qubit) (matrix : Array (Amplitude R)) : InPlace R Unit := do
  let o ← look fun s => s.operands ts cs
  look fun _ => checkMatrix ts.length matrix
  let offsets := (Array.range (blockSize ts.length)).map (spread ts)
  forEach fun base =>
    if base &&& o.targets == 0 && o.isActive base then blockInPlace matrix offsets base else pure ()

/-- Scales one amplitude, for a string without flips. -/
def scaleInPlace (masks : PauliMasks) (stay flip : Amplitude R) (b : ℕ) : InPlace R Unit := do
  let here ← read b
  write b (here * (stay + flip * masks.phase b))

/-- Mixes one pair of amplitudes, for a string that flips bits. -/
def pairInPlace (masks : PauliMasks) (stay flip : Amplitude R) (b : ℕ) : InPlace R Unit := do
  let partner := b ^^^ masks.flips
  let here ← read b
  let there ← read partner
  write b (stay * here + flip * masks.phase partner * there)
  write partner (stay * there + flip * masks.phase b * here)

/-- Applies `stay + flip * P` for the Pauli string `P`, where all controls are set. -/
def mixPauliInPlace (ts cs : List Qubit) (ps : List Pauli) (stay flip : Amplitude R) :
    InPlace R Unit := do
  look fun _ => checkString ts ps
  let o ← look fun s => s.operands ts cs
  let masks := PauliMasks.ofString ts ps
  if masks.flips = 0 then
    forEach fun b => if o.isActive b then scaleInPlace masks stay flip b else pure ()
  else
    forEach fun b =>
      if b &&& lowestBit masks.flips == 0 && o.isActive b then pairInPlace masks stay flip b
      else pure ()

/-- Carries out a kernel call in place. -/
def callInPlace : KernelCall R → InPlace R Unit
  | .matrix ts cs entries => applyMatrixInPlace ts cs entries
  | .pauli ts cs ps => mixPauliInPlace ts cs ps 0 1
  | .rotation ts cs ps angle =>
    mixPauliInPlace ts cs ps ⟨Scalar.cos (Scalar.half angle), 0⟩ ⟨0, -Scalar.sin (Scalar.half angle)⟩

end Kernels

/-! ### What programs in place come to -/

section Steps

variable {R α β : Type}

/-- A program that never fails, and makes of the amplitudes what a function makes of them. -/
def Writes (p : InPlace R Unit) (f : Array (Amplitude R) → Array (Amplitude R)) : Prop :=
  ∀ s : StateVector R, p s = .ok () { s with amplitudes := f s.amplitudes }

variable {p q : InPlace R Unit} {f g : Array (Amplitude R) → Array (Amplitude R)}

theorem writes_nothing : Writes (R := R) (pure ()) fun amps => amps := fun _ => rfl

theorem writes_write (i : ℕ) (value : Amplitude R) :
    Writes (write i value) fun amps => amps.setIfInBounds i value := fun _ => rfl

theorem Writes.congr (hp : Writes p f) (h : ∀ amps, f amps = g amps) : Writes p g := by
  intro s
  rw [hp s, h]

theorem Writes.andThen (hp : Writes p f) (hq : Writes q g) :
    Writes (p >>= fun _ => q) fun amps => g (f amps) := by
  intro s
  show EStateM.bind p (fun _ => q) s = _
  rw [EStateM.bind, hp s]
  exact hq _

/-- Only one of two programs is carried out. -/
theorem Writes.either (c : Bool) (hp : Writes p f) (hq : Writes q g) :
    Writes (if c then p else q) fun amps => if c then f amps else g amps := by
  cases c
  · exact hq
  · exact hp

/-- What is written may depend on what has been read. -/
theorem writes_look {x : StateVector R → α} {p : α → InPlace R Unit}
    {f : α → Array (Amplitude R) → Array (Amplitude R)} (h : ∀ a, Writes (p a) (f a))
    {g : Array (Amplitude R) → Array (Amplitude R)}
    (hg : ∀ s : StateVector R, f (x s) s.amplitudes = g s.amplitudes) :
    Writes (look (fun s => .ok (x s)) >>= p) g := by
  intro s
  rw [look_bind, ← hg s]
  exact h (x s) s

/-- A loop does what its steps do, one after the other. -/
theorem writes_forBelow {step : ℕ → InPlace R Unit}
    {f : ℕ → Array (Amplitude R) → Array (Amplitude R)} (h : ∀ k, Writes (step k) (f k)) (n : ℕ) :
    Writes (forBelow step n) fun amps => Nat.fold n (fun k _ amps => f k amps) amps := by
  induction n with
  | zero => exact writes_nothing
  | succ n ih =>
    simp only [Nat.fold_succ]
    exact ih.andThen (h n)

theorem writes_forEach {step : ℕ → InPlace R Unit}
    {f : ℕ → Array (Amplitude R) → Array (Amplitude R)} (h : ∀ k, Writes (step k) (f k)) :
    Writes (forEach step) fun amps => Nat.fold amps.size (fun k _ amps => f k amps) amps :=
  writes_look (fun size => writes_forBelow h size) fun _ => rfl

end Steps

section Sweeps

variable {R : Type} [Scalar R]

theorem writes_block (matrix : Array (Amplitude R)) (offsets : Array ℕ) (base : ℕ) :
    Writes (blockInPlace matrix offsets base) (writeBlock matrix offsets base) :=
  writes_look (fun _ => writes_forBelow (fun _ => writes_write _ _) offsets.size) fun _ => rfl

theorem writes_scale (masks : PauliMasks) (stay flip : Amplitude R) (b : ℕ) :
    Writes (scaleInPlace masks stay flip b) fun amps =>
      amps.setIfInBounds b (amps.getD b 0 * (stay + flip * masks.phase b)) :=
  writes_look (fun _ => writes_write _ _) fun _ => rfl

theorem writes_pair (masks : PauliMasks) (stay flip : Amplitude R) (b : ℕ) :
    Writes (pairInPlace masks stay flip b) fun amps =>
      (amps.setIfInBounds b (stay * amps.getD b 0 +
        flip * masks.phase (b ^^^ masks.flips) * amps.getD (b ^^^ masks.flips) 0)).setIfInBounds
        (b ^^^ masks.flips) (stay * amps.getD (b ^^^ masks.flips) 0 +
          flip * masks.phase b * amps.getD b 0) :=
  fun _ => rfl

theorem writes_denseSweep (matrix : Array (Amplitude R)) (offsets : Array ℕ) (o : Operands) :
    Writes (forEach fun base =>
      if base &&& o.targets == 0 && o.isActive base then blockInPlace matrix offsets base
      else pure ()) (denseSweep matrix offsets o) :=
  writes_forEach fun base => (writes_block matrix offsets base).either _ writes_nothing

theorem writes_pairSweep (masks : PauliMasks) (o : Operands) (stay flip : Amplitude R) :
    Writes (forEach fun b =>
      if b &&& lowestBit masks.flips == 0 && o.isActive b then pairInPlace masks stay flip b
      else pure ()) (masks.pairSweep o stay flip) :=
  writes_forEach fun b => (writes_pair masks stay flip b).either _ writes_nothing

/-- Amplitudes that are scaled one after the other are scaled as by the sweep over all of them. -/
theorem writes_scaleSweep (masks : PauliMasks) (o : Operands) (stay flip : Amplitude R) :
    Writes (forEach fun b => if o.isActive b then scaleInPlace masks stay flip b else pure ())
      (masks.scaleSweep o stay flip) := by
  have hsteps := writes_forEach fun b =>
    (writes_scale masks stay flip b).either (o.isActive b) writes_nothing
  refine hsteps.congr fun amps => ?_
  rw [PauliMasks.scaleSweep, ← fold_entrywise (d := 0)]
  congr 1
  funext b _ amps
  -- an amplitude that is not scaled might as well be written back
  cases o.isActive b
  · exact (setIfInBounds_getD amps b).symm
  · rfl

/-- Zeros are written one after the other. -/
theorem writes_zeros : Writes (R := R) (forEach fun i => write i 0) fun amps =>
    Array.replicate amps.size 0 := by
  refine (writes_forEach fun i => writes_write i 0).congr fun amps => ?_
  rw [fold_entrywise (d := 0) fun _ _ => 0]
  exact Array.ext (by simp) (by simp)

end Sweeps

section Calls

variable {R : Type} [Scalar R]

theorem applyMatrixInPlace_eq (ts cs : List Qubit) (matrix : Array (Amplitude R))
    (s : StateVector R) :
    applyMatrixInPlace ts cs matrix s = settled s (s.applyMatrix ts cs matrix) := by
  have hbind : s.applyMatrix ts cs matrix = (do
      let o ← s.operands ts cs
      checkMatrix ts.length matrix
      let offsets := (Array.range (blockSize ts.length)).map (spread ts)
      pure { s with amplitudes := denseSweep matrix offsets o s.amplitudes }) := by
    unfold applyMatrix checkMatrix
    congr 1
    funext o
    dsimp only
    by_cases hsize : matrix.size = blockEntries (blockSize ts.length)
    · rw [if_pos hsize, if_pos hsize]
      rfl
    · rw [if_neg hsize, if_neg hsize]
      rfl
  rw [hbind]
  refine look_bind_settled fun o _ => look_bind_settled fun _ _ => ?_
  exact writes_denseSweep matrix _ o s

theorem mixPauliInPlace_eq (ts cs : List Qubit) (ps : List Pauli) (stay flip : Amplitude R)
    (s : StateVector R) :
    mixPauliInPlace ts cs ps stay flip s = settled s (s.mixPauli ts cs ps stay flip) := by
  have hbind : s.mixPauli ts cs ps stay flip = (do
      checkString ts ps
      let o ← s.operands ts cs
      let masks := PauliMasks.ofString ts ps
      let sweep := if masks.flips = 0 then masks.scaleSweep else masks.pairSweep
      pure { s with amplitudes := sweep o stay flip s.amplitudes }) := by
    unfold mixPauli checkString
    split <;> rfl
  rw [hbind]
  refine look_bind_settled fun _ _ => look_bind_settled fun o _ => ?_
  dsimp only
  by_cases hflips : (PauliMasks.ofString ts ps).flips = 0
  · rw [if_pos hflips, if_pos hflips]
    exact writes_scaleSweep _ o stay flip s
  · rw [if_neg hflips, if_neg hflips]
    exact writes_pairSweep _ o stay flip s

/-- **No check stands behind a write.** In place a call ends with the register that the kernel makes, or
with its error and the register as it was. -/
theorem callInPlace_eq (call : KernelCall R) (s : StateVector R) :
    callInPlace call s = settled s (s.perform call) := by
  cases call with
  | matrix ts cs entries => exact applyMatrixInPlace_eq ts cs entries s
  | pauli ts cs ps => exact mixPauliInPlace_eq ts cs ps _ _ s
  | rotation ts cs ps angle => exact mixPauliInPlace_eq ts cs ps _ _ s

/-- So the kernels may be taken for programs in place. -/
theorem callInPlace_eq_perform (call : KernelCall R) (s : StateVector R) :
    callInPlace call s = QuantumState.perform call s := by
  rw [callInPlace_eq]
  simp only [QuantumState.perform]
  cases s.perform call <;> rfl

theorem setBasisInPlace_eq (index : ℕ) (s : StateVector R) :
    setBasisInPlace index s = settled s (s.setBasis index) := by
  have hbind : s.setBasis index = (do
      checkBasis index s
      pure { s with amplitudes := basisAmplitudes s.amplitudes.size index }) := by
    unfold setBasis checkBasis
    split <;> rfl
  rw [hbind]
  exact look_bind_settled fun _ _ => writes_zeros.andThen (writes_write index 1) s

end Calls

/-! ### Registers that can be reached -/

section Reached

variable {R : Type} [Scalar R] {s : StateVector R}

/-- The registers that can be reached. A register is made with all qubits unset or from amplitudes; then
it is set to basis states and goes through kernel calls, which may succeed or fail. -/
inductive Reached : StateVector R → Prop
  | zeroState {n : ℕ} {s : StateVector R} (h : zeroState n = .ok s) : Reached s
  | ofAmplitudes {amps : Array (Amplitude R)} {s : StateVector R} (h : ofAmplitudes amps = .ok s) :
    Reached s
  | setBasis {s : StateVector R} (h : Reached s) (index : ℕ) :
    Reached (Circuit.endState (setBasisInPlace index s))
  | call {s : StateVector R} (h : Reached s) (call : KernelCall R) :
    Reached (Circuit.endState (callInPlace call s))

/-- Setting a register to a basis state keeps it well formed and as wide as it was, also if there is no
such state. -/
theorem setBasisInPlace_keeps (hs : s.WellFormed) (index : ℕ) :
    (Circuit.endState (setBasisInPlace index s)).WellFormed ∧
      (Circuit.endState (setBasisInPlace index s)).qubitCount = s.qubitCount := by
  rw [setBasisInPlace_eq]
  by_cases hindex : index < dimension s.qubitCount
  · rw [setBasis_eq hs hindex]
    exact ⟨wellFormed_basisState s.qubitCount index, rfl⟩
  · have hbeyond : s.amplitudes.size ≤ index := by
      rw [hs]
      exact Nat.le_of_not_lt hindex
    rw [setBasis, if_pos hbeyond]
    exact ⟨hs, rfl⟩

/-- **Registers stay well formed**, whatever is done to them. -/
theorem Reached.wellFormed (h : s.Reached) : s.WellFormed := by
  induction h with
  | zeroState h => exact wellFormed_zeroState h
  | ofAmplitudes h => exact wellFormed_ofAmplitudes h
  | setBasis _ index ih => exact (setBasisInPlace_keeps ih index).1
  | call _ call ih =>
    rw [callInPlace_eq_perform]
    exact (perform_keeps ih call).1

end Reached

/-! ### Which calls are refused -/

section Refusals

variable {R : Type} [Scalar R] {s u : StateVector R} {call : KernelCall R} {e : CircuitError R}

theorem setBasisInPlace_error {index : ℕ} (h : setBasisInPlace index s = .error e u) : u = s := by
  rw [setBasisInPlace_eq, settled_eq_error] at h
  exact h.1

theorem callInPlace_error (h : callInPlace call s = .error e u) : u = s := by
  rw [callInPlace_eq, settled_eq_error] at h
  exact h.1

theorem callInPlace_succeeds_iff :
    (∃ t, callInPlace call s = .ok () t) ↔ call.Fits s.qubitCount := by
  simp only [callInPlace_eq, settled_eq_ok]
  exact ⟨fun ⟨_, h⟩ => fits_of_perform_ok h, perform_ok_of_fits⟩

/-- If the sizes are right then a call is refused for the first operand that does not fit. -/
theorem callInPlace_error_iff (hsize : call.FitSize) :
    callInPlace call s = .error e u ↔
      u = s ∧ FirstFault s.qubitCount (call.targets ++ call.controls) e := by
  rw [callInPlace_eq, settled_eq_error, perform_error hsize, operands_eq_error]

end Refusals

/-! ### Matrices -/

section Matrices

variable {R : Type} {n : ℕ} {ts cs : List Qubit}

/-- On registers of fewer than 32 qubits the entries of a matrix can be counted in a word. -/
theorem blockEntries_of_fit (hn : n < 32) (hfit : FitOperands n (ts ++ cs)) :
    blockEntries (blockSize ts.length) = 4 ^ ts.length := by
  have hlength := hfit.length_le
  rw [List.length_append] at hlength
  exact blockEntries_blockSize (by omega)

theorem fits_matrix_iff (hn : n < 32) {entries : Array (Amplitude R)} :
    (KernelCall.matrix ts cs entries).Fits n ↔
      FitOperands n (ts ++ cs) ∧ entries.size = 4 ^ ts.length := by
  constructor
  · intro h
    exact ⟨h.operands, h.size.trans (blockEntries_of_fit hn h.operands)⟩
  · intro h
    exact ⟨h.1, h.2.trans (blockEntries_of_fit hn h.1).symm⟩

/-- A matrix is measured once all operands fit. -/
theorem callInPlace_matrix_error_iff [Scalar R] {s u : StateVector R} (hn : s.qubitCount < 32)
    {entries : Array (Amplitude R)} {e : CircuitError R} :
    callInPlace (.matrix ts cs entries) s = .error e u ↔
      u = s ∧ (FirstFault s.qubitCount (ts ++ cs) e ∨
        (FitOperands s.qubitCount (ts ++ cs) ∧ entries.size ≠ 4 ^ ts.length ∧
          e = .invalidMatrix (4 ^ ts.length) entries.size)) := by
  rw [callInPlace_eq, settled_eq_error, perform, applyMatrix, bind_eq_error,
    operands_eq_error]
  refine and_congr_right fun _ => or_congr_right ?_
  simp only [operands_eq_ok]
  constructor
  · rintro ⟨_, ⟨hfit, rfl⟩, h⟩
    rw [blockEntries_of_fit hn hfit] at h
    split at h
    · cases h
    · rename_i hsize
      exact ⟨hfit, hsize, (Except.error.inj h).symm⟩
  · rintro ⟨hfit, hsize, rfl⟩
    refine ⟨_, ⟨hfit, rfl⟩, ?_⟩
    rw [blockEntries_of_fit hn hfit, if_neg hsize]
    rfl

end Matrices

end StateVector

/-! ### Pauli strings -/

/-- The two calls on a Pauli string: it is applied, or rotated about. -/
inductive KernelCall.OnString {R : Type} (ts cs : List Qubit) (ps : List Pauli) : KernelCall R → Prop
  | pauli : OnString ts cs ps (.pauli ts cs ps)
  | rotation (angle : R) : OnString ts cs ps (.rotation ts cs ps angle)

namespace KernelCall.OnString

variable {R : Type} {ts cs : List Qubit} {ps : List Pauli} {call : KernelCall R}

theorem operands (h : call.OnString ts cs ps) : call.targets ++ call.controls = ts ++ cs := by
  cases h <;> rfl

theorem fitSize_iff (h : call.OnString ts cs ps) : call.FitSize ↔ ts.length = ps.length := by
  cases h <;> rfl

theorem fits_iff {n : ℕ} (h : call.OnString ts cs ps) :
    call.Fits n ↔ ts.length = ps.length ∧ FitOperands n (ts ++ cs) := by
  rw [← h.fitSize_iff, ← h.operands]
  exact ⟨fun hfits => ⟨hfits.size, hfits.operands⟩, fun hfits => ⟨hfits.2, hfits.1⟩⟩

/-- A string is measured before any operand is looked at. -/
theorem refused [Scalar R] (h : call.OnString ts cs ps) (hlen : ts.length ≠ ps.length)
    (s : StateVector R) : StateVector.callInPlace call s =
      .error (.qubitCountMismatch "pauli" (min ps.length maxCount) (min ts.length maxCount)) s := by
  rw [StateVector.callInPlace_eq, settled_eq_error]
  refine ⟨rfl, ?_⟩
  cases h
  · rw [StateVector.perform, StateVector.applyPauli, StateVector.mixPauli, if_pos hlen]
    rfl
  · rw [StateVector.perform, StateVector.applyRotation, StateVector.mixPauli, if_pos hlen]
    rfl

end KernelCall.OnString

/-! ### All calls on all registers -/

open StateVector (callInPlace setBasisInPlace)

/-- **Calls on a register that can be reached.** The register has an amplitude for every basis state. In
place a call ends as the kernel does; if it fails the register is as it was, and the same holds if the
register is to be set to a basis state that it does not have. A matrix is accepted exactly if all operands
lie inside the register, none is listed twice and there are `4 ^ k` entries for `k` targets; a Pauli string,
applied or rotated about, exactly if it has an operator for each target and the same holds of the operands.
Operands are refused for the first one that does not fit, the targets coming before the controls. -/
theorem reached_register_calls {R : Type} [Scalar R] {s : StateVector R} (hs : s.Reached) :
    s.amplitudes.size = 2 ^ s.qubitCount ∧
    (∀ call, callInPlace call s = QuantumState.perform call s) ∧
    (∀ call u e, callInPlace call s = .error e u → u = s) ∧
    (∀ index u e, setBasisInPlace index s = .error e u → u = s) ∧
    (s.qubitCount < 32 → ∀ (ts cs : List Qubit) (entries : Array (Amplitude R)),
      ((∃ t, callInPlace (.matrix ts cs entries) s = .ok () t) ↔
        FitOperands s.qubitCount (ts ++ cs) ∧ entries.size = 4 ^ ts.length) ∧
      ∀ e, callInPlace (.matrix ts cs entries) s = .error e s ↔
        FirstFault s.qubitCount (ts ++ cs) e ∨
          (FitOperands s.qubitCount (ts ++ cs) ∧ entries.size ≠ 4 ^ ts.length ∧
            e = .invalidMatrix (4 ^ ts.length) entries.size)) ∧
    ∀ (ts cs : List Qubit) (ps : List Pauli) (call : KernelCall R), call.OnString ts cs ps →
      ((∃ t, callInPlace call s = .ok () t) ↔
        ts.length = ps.length ∧ FitOperands s.qubitCount (ts ++ cs)) ∧
      (ts.length = ps.length → ∀ e, callInPlace call s = .error e s ↔
        FirstFault s.qubitCount (ts ++ cs) e) ∧
      (ts.length ≠ ps.length → ∃ expected got,
        callInPlace call s = .error (.qubitCountMismatch "pauli" expected got) s) := by
  refine ⟨hs.wellFormed.trans (dimension_eq _), fun call => StateVector.callInPlace_eq_perform call s,
    fun call u e h => StateVector.callInPlace_error h,
    fun index u e h => StateVector.setBasisInPlace_error h, ?_, ?_⟩
  · intro hn ts cs entries
    refine ⟨StateVector.callInPlace_succeeds_iff.trans (StateVector.fits_matrix_iff hn), fun e => ?_⟩
    rw [StateVector.callInPlace_matrix_error_iff hn]
    exact and_iff_right rfl
  · intro ts cs ps call hcall
    refine ⟨StateVector.callInPlace_succeeds_iff.trans hcall.fits_iff, fun hlen e => ?_,
      fun hlen => ⟨_, _, hcall.refused hlen s⟩⟩
    rw [StateVector.callInPlace_error_iff (hcall.fitSize_iff.mpr hlen), hcall.operands]
    exact and_iff_right rfl

/-- On three qubits set to a basis state, a string is refused because its first control is also a target,
before the second one, which lies beyond the register. Under another control it is accepted. -/
theorem reached_register_calls_repeated :
    let s := Circuit.endState (setBasisInPlace 5 (basisState 3 0 : StateVector ℝ))
    s.Reached ∧ s.amplitudes.size = 2 ^ 3 ∧
      callInPlace (.pauli [2, 0] [2, 7] [.X, .Y]) s = .error (.duplicateQubit 2 none) s ∧
      ∃ t, callInPlace (.pauli [2, 0] [1] [.X, .Y]) s = .ok () t := by
  intro s
  have hzero : StateVector.zeroState 3 = .ok (basisState 3 0 : StateVector ℝ) := rfl
  have hs : s.Reached := .setBasis (.zeroState hzero) 5
  have hwidth : s.qubitCount = 3 :=
    (StateVector.setBasisInPlace_keeps (StateVector.wellFormed_basisState 3 0) 5).2
  have hfault : FirstFault 3 ([2, 0] ++ [2, 7]) (.duplicateQubit 2 none : CircuitError ℝ) :=
    ⟨[2, 0], 2, [7], rfl, ⟨by decide, by decide⟩, .inr ⟨by decide, by decide, rfl⟩⟩
  have hfit : FitOperands 3 ([2, 0] ++ [1]) := ⟨by decide, by decide⟩
  obtain ⟨hsize, -, -, -, -, hstrings⟩ := reached_register_calls hs
  rw [hwidth] at hsize hstrings
  exact ⟨hs, hsize, ((hstrings _ _ _ _ .pauli).2.1 rfl _).mpr hfault,
    (hstrings _ _ _ _ .pauli).1.mpr ⟨rfl, hfit⟩⟩

end GateCircuit
