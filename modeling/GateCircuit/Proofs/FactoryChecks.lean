/-
# What the factory accepts

A recipe passes three checks on its way to a gate, one after the other: a gate other than a Pauli string
has a target, the matrix or the list of operators has the size that the targets ask for, and no operand is
listed twice. A one-qubit gate is not checked, and would pass. So the factory gives the gate that is asked
for to exactly the recipes that are well formed, and the first check that fails to all others. Sizes are
counted in words; lists and matrices that a machine can hold in memory are too short to notice it.

Key definitions: `Recipe.gate`, `Recipe.FitsMemory`, `Recipe.WellFormed`, `Recipe.Refused`,
`GateKind.FitsTargets`.
Key theorems: `Recipe.build_eq_ok`, `Recipe.build_eq_error`, `GateKind.matrix_of_fits`,
`factory_outcomes`.
-/
import Mathlib
import GateCircuit.Proofs.Building

namespace GateCircuit

open Outcome

/-! ### Recipes -/

namespace Recipe

variable {R : Type}

/-- The gate that a recipe asks for, whether or not there is such a gate. -/
def gate (r : Recipe R) : Gate R := { kind := r.kind, targets := r.targets, controls := r.controls }

/-- The lists of a recipe are shorter than `2 ^ 31`, and its matrix has fewer entries than memory can
hold. -/
def FitsMemory : Recipe R → Prop
  | dense targets matrix => targets.length < 2 ^ 31 ∧ matrix.size < 2 ^ 59
  | pauli targets paulis => targets.length < 2 ^ 31 ∧ paulis.length < 2 ^ 31
  | rotation targets paulis _ => targets.length < 2 ^ 31 ∧ paulis.length < 2 ^ 31
  | _ => True

/-- The recipe is for a gate that there is. -/
def WellFormed : Recipe R → Prop
  | single _ _ => True
  | cx control target => control ≠ target
  | cz control target => control ≠ target
  | swap first second => first ≠ second
  | dense targets matrix => targets ≠ [] ∧ matrix.size = 4 ^ targets.length ∧ targets.Nodup
  | pauli targets paulis => targets.length = paulis.length ∧ targets.Nodup
  | rotation targets paulis _ => targets.length = paulis.length ∧ targets.Nodup

/-- The matrix or the list of operators has the size that the targets ask for. -/
def Sized : Recipe R → Prop
  | dense targets matrix => targets ≠ [] ∧ matrix.size = 4 ^ targets.length
  | pauli targets paulis => targets.length = paulis.length
  | rotation targets paulis _ => targets.length = paulis.length
  | _ => True

/-- Why a recipe is refused: the first thing that is wrong with it. -/
inductive Refused : Recipe R → CircuitError R → Prop
  | noTargets {matrix : Array (Amplitude R)} : Refused (.dense [] matrix) (.noQubits "dense_matrix")
  | matrixSize {targets : List Qubit} {matrix : Array (Amplitude R)} (htargets : targets ≠ [])
      (hsize : matrix.size ≠ 4 ^ targets.length) :
    Refused (.dense targets matrix) (.invalidMatrix (min (4 ^ targets.length) maxWord) matrix.size)
  | stringLength {targets : List Qubit} {paulis : List Pauli}
      (hlen : targets.length ≠ paulis.length) :
    Refused (.pauli targets paulis) (.qubitCountMismatch "pauli" paulis.length targets.length)
  | rotationLength {targets : List Qubit} {paulis : List Pauli} {angle : R}
      (hlen : targets.length ≠ paulis.length) :
    Refused (.rotation targets paulis angle)
      (.qubitCountMismatch "pauli_rotation" paulis.length targets.length)
  | repeated {r : Recipe R} {q : Qubit} (hsized : r.Sized)
      (hrepeated : FirstRepeated (r.targets ++ r.controls) q) :
    Refused r (.duplicateQubit q (some r.kind.name))

theorem wellFormed_iff {r : Recipe R} :
    r.WellFormed ↔ r.Sized ∧ (r.targets ++ r.controls).Nodup := by
  cases r <;> simp [WellFormed, Sized, targets, controls, and_assoc, eq_comm]

end Recipe

/-! ### The checks -/

/-- A word of 32 bits holds what is smaller than `2 ^ 32`. -/
theorem mod_maxCount_succ {k : ℕ} (hk : k < 2 ^ 32) : k % (maxCount + 1) = k :=
  Nat.mod_eq_of_lt (by unfold maxCount; omega)

/-- Within memory, the entries asked of a matrix are as many as a word can count at most. -/
theorem matrixSize_eq_min {k : ℕ} (hk : k < 2 ^ 31) : matrixSize k = min (4 ^ k) maxWord := by
  rw [matrixSize, mod_maxCount_succ (by omega)]
  by_cases hsmall : 2 * k < 64
  · have hpow : 4 ^ k ≤ maxWord :=
      (Nat.pow_le_pow_right (by decide) (show k ≤ 31 by omega)).trans (by decide)
    rw [if_pos hsmall, Nat.one_shiftLeft, pow_mul, min_eq_left hpow]
    rfl
  · have hpow : maxWord ≤ 4 ^ k :=
      (show maxWord ≤ 4 ^ 32 by decide).trans (Nat.pow_le_pow_right (by decide) (by omega))
    rw [if_neg hsmall, min_eq_right hpow]

theorem size_eq_matrixSize_iff {k size : ℕ} (hk : k < 2 ^ 31) (hsize : size < 2 ^ 59) :
    size = matrixSize k ↔ size = 4 ^ k := by
  have hword : size < maxWord := hsize.trans (by decide)
  rw [matrixSize_eq_min hk]
  omega

theorem exists_firstRepeated {qs : List Qubit} (h : ¬ qs.Nodup) : ∃ q, FirstRepeated qs q := by
  have hrepeat : firstRepeat [] qs ≠ none := fun hnone => h (firstRepeat_eq_none.mp hnone).1
  obtain ⟨q, hq⟩ := Option.ne_none_iff_exists'.mp hrepeat
  exact ⟨q, firstRepeat_nil_eq_some.mp hq⟩

namespace Gate

variable {R : Type} {kind : GateKind R} {ts cs : List Qubit}

/-- Lengths of lists that memory holds are reported as they are. -/
theorem checkSize_of_short {k : ℕ} (hts : ts.length < 2 ^ 31) (hk : k < 2 ^ 31)
    (h : checkSize kind ts = .error (.qubitCountMismatch kind.name (k % (maxCount + 1))
      (ts.length % (maxCount + 1)))) :
    checkSize kind ts = .error (.qubitCountMismatch kind.name k ts.length) := by
  rwa [mod_maxCount_succ (by omega), mod_maxCount_succ (by omega)] at h

/-- The size is checked before the operands are compared. -/
theorem make_of_checkSize_error {e : CircuitError R} (hts : ts = [] → kind.isPauliString = true)
    (hsize : checkSize kind ts = .error e) : Gate.make kind ts cs = .error e := by
  have hempty : ¬ (ts.isEmpty && !kind.isPauliString) = true := by
    cases ts with
    | nil => simp [hts rfl]
    | cons => simp
  rw [make, if_neg hempty, hsize]
  rfl

end Gate

/-! ### Accepted and refused recipes -/

namespace Recipe

variable {R : Type} {r : Recipe R}

/-- Recipes of the right size are those that pass the first two checks. -/
theorem sized_iff (hr : r.FitsMemory) : r.Sized ↔
    (r.targets = [] → r.kind.isPauliString = true) ∧ Gate.checkSize r.kind r.targets = .ok () := by
  cases r with
  | single gate target => exact iff_of_true trivial ⟨fun h => absurd h (List.cons_ne_nil _ _), rfl⟩
  | cx control target => exact iff_of_true trivial ⟨fun h => absurd h (List.cons_ne_nil _ _), rfl⟩
  | cz control target => exact iff_of_true trivial ⟨fun h => absurd h (List.cons_ne_nil _ _), rfl⟩
  | swap first second => exact iff_of_true trivial ⟨fun h => absurd h (List.cons_ne_nil _ _), rfl⟩
  | dense ts matrix =>
    have hsize := size_eq_matrixSize_iff hr.1 hr.2
    have hstring : (ts = [] → (GateKind.dense matrix).isPauliString = true) ↔ ts ≠ [] :=
      ⟨fun h hnil => Bool.false_ne_true (h hnil), fun h hnil => absurd hnil h⟩
    exact and_congr hstring.symm (hsize.symm.trans check_eq_ok.symm)
  | pauli ts ps =>
    have hlen : ts.length = ps.length ↔ Gate.checkSize (R := R) (.pauli ps) ts = .ok () :=
      check_eq_ok.symm
    exact hlen.trans (and_iff_right fun _ => rfl).symm
  | rotation ts ps angle =>
    have hlen : ts.length = ps.length ↔ Gate.checkSize (.rotation ps angle) ts = .ok () :=
      check_eq_ok.symm
    exact hlen.trans (and_iff_right fun _ => rfl).symm

/-- **The factory accepts what is well formed**, and gives the gate that was asked for. -/
theorem build_eq_ok (hr : r.FitsMemory) {g : Gate R} :
    r.build = .ok g ↔ r.WellFormed ∧ g = r.gate := by
  rw [build_eq_make, Gate.make_eq_ok, wellFormed_iff, sized_iff hr]
  simp only [and_assoc]
  rfl

theorem build_of_refused (hr : r.FitsMemory) {e : CircuitError R} (h : r.Refused e) :
    r.build = .error e := by
  cases h with
  | noTargets => rfl
  | matrixSize htargets hsize =>
    refine Gate.make_of_checkSize_error (fun h => absurd h htargets) ?_
    have hno := mt (size_eq_matrixSize_iff hr.1 hr.2).mp hsize
    rw [Gate.checkSize, if_neg hno, matrixSize_eq_min hr.1]
  | stringLength hlen =>
    exact Gate.make_of_checkSize_error (fun _ => rfl)
      (Gate.checkSize_of_short hr.1 hr.2 (if_neg hlen))
  | rotationLength hlen =>
    exact Gate.make_of_checkSize_error (fun _ => rfl)
      (Gate.checkSize_of_short hr.1 hr.2 (if_neg hlen))
  | repeated hsized hrepeated =>
    obtain ⟨htargets, hsize⟩ := (sized_iff hr).mp hsized
    rw [build_eq_make]
    exact (Gate.make_eq_error htargets hsize).mpr ⟨_, hrepeated, rfl⟩

/-- Something is wrong with a recipe that is not well formed, and one thing is the first. -/
theorem exists_refused (h : ¬ r.WellFormed) : ∃ e, r.Refused e := by
  by_cases hsized : r.Sized
  · have hrepeat : ¬ (r.targets ++ r.controls).Nodup := fun hnd => h (wellFormed_iff.mpr ⟨hsized, hnd⟩)
    obtain ⟨q, hq⟩ := exists_firstRepeated hrepeat
    exact ⟨_, .repeated hsized hq⟩
  · cases r with
    | dense ts matrix =>
      by_cases hts : ts = []
      · subst hts
        exact ⟨_, .noTargets⟩
      · exact ⟨_, .matrixSize hts fun hsize => hsized ⟨hts, hsize⟩⟩
    | pauli ts ps => exact ⟨_, .stringLength hsized⟩
    | rotation ts ps angle => exact ⟨_, .rotationLength hsized⟩
    | _ => exact absurd trivial hsized

/-- **A recipe that is refused is refused for the first thing wrong with it.** -/
theorem build_eq_error (hr : r.FitsMemory) {e : CircuitError R} :
    r.build = .error e ↔ r.Refused e := by
  constructor
  · intro h
    have hno : ¬ r.WellFormed := by
      intro hwf
      rw [(build_eq_ok hr).mpr ⟨hwf, rfl⟩] at h
      cases h
    obtain ⟨e', he'⟩ := exists_refused hno
    rw [build_of_refused hr he'] at h
    exact Except.error.inj h ▸ he'
  · exact build_of_refused hr

end Recipe

/-! ### Built gates -/

namespace GateKind

variable {R : Type}

/-- An operation acts on `k` targets. -/
def FitsTargets : GateKind R → ℕ → Prop
  | named gate, k => k = gate.targetCount
  | pauli paulis, k => k = paulis.length
  | rotation paulis _, k => k = paulis.length
  | dense matrix, k => 0 < k ∧ matrix.size = 4 ^ k

variable [Scalar R]

/-- The matrix of a string is written out up to a width. -/
theorem tensor_outcome (ps : List Pauli) :
    (maxMatrixQubits < ps.length →
      tensor (R := R) ps = .error (.tooManyQubits (min ps.length maxCount) maxMatrixQubits)) ∧
    (ps.length ≤ maxMatrixQubits → ∃ m : Array (Amplitude R), tensor ps = .ok m ∧
      m.size = 4 ^ ps.length) := by
  have hmax : maxMatrixQubits < maxCount := by decide
  unfold tensor
  constructor
  · intro hwide
    rw [if_pos (lt_min hwide hmax)]
  · intro hnarrow
    have hwidth : min ps.length maxCount = ps.length := min_eq_left (hnarrow.trans hmax.le)
    rw [hwidth]
    refine ⟨_, if_neg (Nat.not_lt.mpr hnarrow), ?_⟩
    rw [Array.size_map, Array.size_range, dimension_eq, ← mul_pow]
    rfl

/-- **The matrix of a kind that fits its targets** has `4 ^ k` entries, unless it is that of a wide
string. -/
theorem matrix_of_fits {kind : GateKind R} {k : ℕ} (h : kind.FitsTargets k) :
    (kind.isPauliString = true ∧ maxMatrixQubits < k →
      kind.matrix = .error (.tooManyQubits (min k maxCount) maxMatrixQubits)) ∧
    (¬ (kind.isPauliString = true ∧ maxMatrixQubits < k) →
      ∃ m, kind.matrix = .ok m ∧ m.size = 4 ^ k) := by
  cases kind with
  | named gate =>
    have hno : ¬ ((named gate : GateKind R).isPauliString = true ∧ maxMatrixQubits < k) :=
      fun hstring => Bool.false_ne_true hstring.1
    have hcount : gate.targetCount < 32 := by
      cases gate <;> simp [NamedGate.targetCount]
    obtain rfl : k = gate.targetCount := h
    refine ⟨fun hstring => absurd hstring hno, fun _ => ⟨gate.matrix, rfl, ?_⟩⟩
    rw [size_namedMatrix, blockEntries_blockSize hcount]
  | pauli ps =>
    obtain rfl : k = ps.length := h
    obtain ⟨hwide, hnarrow⟩ := tensor_outcome (R := R) ps
    exact ⟨fun hstring => hwide hstring.2,
      fun hno => hnarrow (Nat.le_of_not_lt fun hlt => hno ⟨rfl, hlt⟩)⟩
  | rotation ps angle =>
    obtain rfl : k = ps.length := h
    obtain ⟨hwide, hnarrow⟩ := tensor_outcome (R := R) ps
    refine ⟨fun hstring => ?_, fun hno => ?_⟩
    · rw [matrix, hwide hstring.2]
      rfl
    · obtain ⟨m, hm, hsize⟩ := hnarrow (Nat.le_of_not_lt fun hlt => hno ⟨rfl, hlt⟩)
      refine ⟨rotationMatrix (dimension ps.length) angle m, ?_, ?_⟩
      · rw [matrix, hm]
        rfl
      · rw [rotationMatrix, Array.size_mapIdx, hsize]
  | dense entries =>
    have hno : ¬ ((dense entries : GateKind R).isPauliString = true ∧ maxMatrixQubits < k) :=
      fun hstring => Bool.false_ne_true hstring.1
    exact ⟨fun hstring => absurd hstring hno, fun _ => ⟨entries, rfl, h.2⟩⟩

end GateKind

/-- A well-formed recipe is for an operation that fits its targets. -/
theorem Recipe.WellFormed.fitsTargets {R : Type} {r : Recipe R} (h : r.WellFormed) :
    r.kind.FitsTargets r.targets.length := by
  cases r with
  | dense ts matrix => exact ⟨List.length_pos_iff.mpr h.1, h.2.1⟩
  | pauli ts ps => exact h.1
  | rotation ts ps angle => exact h.1
  | _ => rfl

/-- **What the factory makes of a recipe** whose lists and matrix are held in memory. It gives the gate
that is asked for exactly if the recipe is well formed, and fails with an error exactly if that is the
first thing wrong with the recipe. A gate that it gives has no operand twice and as many targets and
controls as gates of its kind have; its matrix is too wide to be written out exactly if the gate is a Pauli
string or a rotation about one on more than ten qubits, and otherwise it has `4 ^ k` entries for `k`
targets. -/
theorem factory_outcomes {R : Type} [Scalar R] {r : Recipe R} (hr : r.FitsMemory) :
    (∀ g, r.build = .ok g ↔ r.WellFormed ∧ g = r.gate) ∧
    (∀ e, r.build = .error e ↔ r.Refused e) ∧
    ∀ g, r.build = .ok g →
      (g.targets ++ g.controls).Nodup ∧ g.kind.FitsTargets g.targets.length ∧
      g.controls.length = g.kind.controlCount ∧
      ((∃ requested limit, g.matrix = .error (.tooManyQubits requested limit)) ↔
        g.kind.isPauliString = true ∧ maxMatrixQubits < g.targets.length) ∧
      (¬ (g.kind.isPauliString = true ∧ maxMatrixQubits < g.targets.length) →
        ∃ m, g.matrix = .ok m ∧ m.size = 4 ^ g.targets.length) := by
  refine ⟨fun g => Recipe.build_eq_ok hr, fun e => Recipe.build_eq_error hr, fun g hg => ?_⟩
  obtain ⟨hwf, rfl⟩ := (Recipe.build_eq_ok hr).mp hg
  obtain ⟨hwide, hnarrow⟩ := GateKind.matrix_of_fits hwf.fitsTargets
  refine ⟨(Recipe.wellFormed_iff.mp hwf).2, hwf.fitsTargets, r.length_controls, ?_, hnarrow⟩
  constructor
  · rintro ⟨requested, limit, herror⟩
    by_contra hno
    obtain ⟨m, hm, -⟩ := hnarrow hno
    have hm : r.gate.matrix = .ok m := hm
    rw [hm] at herror
    cases herror
  · exact fun hstring => ⟨_, _, hwide hstring⟩

/-- A matrix on two qubits is accepted. A string of the right length is refused for the first of two
qubits that it lists twice. -/
theorem factory_outcomes_repeated :
    let r : Recipe ℝ := .dense [1, 0] (Array.replicate 16 0)
    let r' : Recipe ℝ := .pauli [1, 3, 3, 1] [.X, .Y, .Z, .I]
    r.FitsMemory ∧ r.build = .ok r.gate ∧ (∃ m, r.gate.matrix = .ok m ∧ m.size = 4 ^ 2) ∧
      r'.FitsMemory ∧ r'.build = .error (.duplicateQubit 3 (some "pauli")) := by
  intro r r'
  have hr : r.FitsMemory := ⟨by decide, by simp⟩
  have hr' : r'.FitsMemory := ⟨by decide, by decide⟩
  have hwf : r.WellFormed := ⟨by decide, by simp, by decide⟩
  have hrefused : r'.Refused (.duplicateQubit 3 (some "pauli")) :=
    .repeated rfl ⟨[1, 3], [1], rfl, by decide, by decide⟩
  obtain ⟨hok, -, hbuilt⟩ := factory_outcomes hr
  obtain ⟨-, herror, -⟩ := factory_outcomes hr'
  have hgate := (hok r.gate).mpr ⟨hwf, rfl⟩
  obtain ⟨-, -, -, -, hmatrix⟩ := hbuilt r.gate hgate
  exact ⟨hr, hgate, hmatrix fun hstring => Bool.false_ne_true hstring.1, hr',
    (herror _).mpr hrefused⟩

end GateCircuit
