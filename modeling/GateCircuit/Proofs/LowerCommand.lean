/-
# The command lowers as the library does

The command settles the default number of repeats itself and hands the library the number it will report;
the library, asked for zero repeats, settles on the same number by the same rule, and this number is never
zero. So the circuit of the command is the one that the library makes of the options as they stand. The
command simulates what it has lowered on a register that no limit forbids, and whatever the library lowers
runs there. So of the errors that the command can word, the two of the simulation never occur.

Key definitions: `LowerOptions.policy`, `Policy.settled`, `HamiltonianConfig.Describes`,
`LowerOptions.select`, `LowerOptions.Reports`, `LowerOptions.Prints`.
Key theorems: `lowerBy_settled`, `finalState_succeeds`, `hamiltonian_eq_ok`, `lowerAlone_eq_ok`,
`report_succeeds`, `reports_of_report_eq_ok`, `lower_command_reports`.
-/
import Mathlib
import GateCircuit.Command.Reply
import GateCircuit.Proofs.BuiltCircuits
import GateCircuit.Proofs.DiagonalLowering
import GateCircuit.Proofs.RepeatCounts

namespace GateCircuit

open Outcome

/-! ### Policies -/

/-- The policy that the options ask for. -/
def LowerOptions.policy (o : LowerOptions) : Policy :=
  if o.diagonal then .diagonal else .steps o.repeats

/-- The policy with the number of repeats that it comes to. -/
def Policy.settled (angle : Float) (qubitCount : ℕ) : Policy → Policy
  | .diagonal => .diagonal
  | .steps repeats => .steps (chosenRepeats angle qubitCount repeats)

/-- A number of repeats that has been settled is kept. -/
theorem chosenRepeats_chosenRepeats (angle : Float) (n repeats : ℕ) :
    chosenRepeats angle n (chosenRepeats angle n repeats) = chosenRepeats angle n repeats :=
  if_neg (double_chosenRepeats_pos angle n repeats).ne'

section Lowering

variable {c c' : Circuit (Gate Float)} {h : Hamiltonian Float} {angle : Float} {p : Policy}

/-- **The two copies of the default rule agree.** -/
theorem lowerBy_settled (c : Circuit (Gate Float)) (h : Hamiltonian Float) (angle : Float) (p : Policy) :
    c.lowerBy h angle (p.settled angle h.qubitCount) = c.lowerBy h angle p := by
  cases p with
  | diagonal => rfl
  | steps repeats =>
    rw [Policy.settled, Circuit.lowerBy, Circuit.lowerBy, Circuit.lower, Circuit.lower]
    simp only [chosenRepeats_chosenRepeats]

/-- A lowering appends one rotation per term for every slice. -/
theorem size_of_lowerBy (hlower : c.lowerBy h angle p = .ok c') :
    c'.size = c.size + p.slices angle h.qubitCount * h.terms.length := by
  obtain ⟨-, -, rfl⟩ := lowerBy_eq_ok.mp hlower
  simp [Circuit.size, Circuit.append]

/-- A policy is an operation on circuits, and takes in nothing but a Hamiltonian. -/
theorem exists_operation_lowerBy (h : Hamiltonian Float) (angle : Float) (p : Policy) :
    ∃ op : Operation (Gate Float) Float, op.FromFactory ∧
      ∀ c : Circuit (Gate Float), c.operate id op = c.lowerBy h angle p := by
  cases p with
  | diagonal => exact ⟨.edit (.lowerDiagonal h angle), trivial, fun _ => rfl⟩
  | steps repeats => exact ⟨.edit (.lower h angle repeats), trivial, fun _ => rfl⟩

/-- What is lowered to a new circuit is a circuit of built gates. -/
theorem madeFromFactory_of_lowerBy {n : ℕ} (hnew : Circuit.new (R := Float) n = .ok c)
    (hlower : c.lowerBy h angle p = .ok c') : c'.MadeFromFactory := by
  obtain ⟨op, hop, hoperate⟩ := exists_operation_lowerBy h angle p
  refine ⟨n, c, [op], hnew, List.forall_mem_singleton.mpr hop, ?_⟩
  rw [Circuit.operations, List.foldl_cons, List.foldl_nil, hoperate, hlower]

end Lowering

/-! ### Headed errors -/

theorem attempt_eq_ok {α : Type} {heading : CircuitError Float → LowerError}
    {x : Except (CircuitError Float) α} {a : α} : attempt heading x = .ok a ↔ x = .ok a :=
  mapError_eq_ok

theorem attempt_eq_error {α : Type} {heading : CircuitError Float → LowerError}
    {x : Except (CircuitError Float) α} {e : LowerError} :
    attempt heading x = .error e ↔ ∃ cause, x = .error cause ∧ e = heading cause :=
  mapError_eq_error

/-! ### Simulations -/

/-- A circuit of built gates runs on a register that is wide enough. -/
theorem Circuit.MadeFromFactory.run_succeeds {R : Type} [Scalar R] {c : Circuit (Gate R)}
    (hc : c.MadeFromFactory) {s : StateVector R} (hs : s.WellFormed)
    (hwide : c.qubitCount ≤ s.qubitCount) : ∃ t : StateVector R, c.run s = .ok () t := by
  obtain ⟨hin, hbuilt⟩ := hc.built
  obtain ⟨t, ht, -⟩ := applyAll_guarded hs fun g hg =>
    ⟨((hbuilt g hg).kernel_fits (hin g hg)).mono hwide, (hbuilt g hg).kernel_hasRows⟩
  exact ⟨t, (Circuit.run_eq_applyAll hwide).trans ht⟩

/-- **A simulation cannot fail** within the width that the command allows. -/
theorem finalState_succeeds {c : Circuit (Gate Float)} (hc : c.MadeFromFactory)
    (hwidth : c.qubitCount ≤ maxSimulatedQubits) :
    ∃ s t : StateVector Float, StateVector.zeroState c.qubitCount = .ok s ∧ c.run s = .ok () t ∧
      finalState c = .ok t := by
  -- the limit of the command lies below the one of a state
  have hlimit : ¬ maxStateQubits < c.qubitCount := Nat.not_lt.mpr (hwidth.trans (by decide))
  have hstart : (StateVector.zeroState c.qubitCount : Except (CircuitError Float) _) =
      .ok (basisState c.qubitCount 0) := if_neg hlimit
  obtain ⟨t, ht⟩ := hc.run_succeeds (StateVector.wellFormed_basisState c.qubitCount 0) le_rfl
  refine ⟨_, t, hstart, ht, ?_⟩
  rw [finalState, bind_eq_ok]
  exact ⟨_, attempt_eq_ok.mpr hstart, by rw [ht]; rfl⟩

/-! ### Descriptions -/

/-- The texts of a description are those of the terms, one by one, with the weights it gives. -/
def HamiltonianConfig.Describes (config : HamiltonianConfig) (terms : List (PauliTerm Float)) : Prop :=
  List.Forall₂ (fun described term =>
    PauliTerm.read ⟨described.coef, described.imag⟩ described.pauli = .ok term) config.terms terms

theorem readTerms_eq_ok {ts : List TermConfig} {terms : List (PauliTerm Float)} {k : ℕ} :
    HamiltonianConfig.readTerms k ts = .ok terms ↔ List.Forall₂ (fun described term =>
      PauliTerm.read ⟨described.coef, described.imag⟩ described.pauli = .ok term) ts terms := by
  induction ts generalizing k terms with
  | nil => rw [HamiltonianConfig.readTerms, List.forall₂_nil_left_iff, Except.ok.injEq, eq_comm]
  | cons t ts ih =>
    rw [HamiltonianConfig.readTerms, List.forall₂_cons_left_iff]
    cases hread : PauliTerm.read ⟨t.coef, t.imag⟩ t.pauli with
    | error cause => simp
    | ok term =>
      simp only [map_eq_ok, ih]
      constructor
      · rintro ⟨rest, hrest, rfl⟩
        exact ⟨term, rest, rfl, hrest, rfl⟩
      · rintro ⟨term', rest, hterm, hrest, rfl⟩
        obtain rfl := Except.ok.inj hterm
        exact ⟨rest, hrest, rfl⟩

/-- **A description is read exactly if all its texts are.** -/
theorem hamiltonian_eq_ok {config : HamiltonianConfig} {h : Hamiltonian Float} :
    config.hamiltonian = .ok h ↔
      ∃ terms, config.Describes terms ∧ h = ⟨config.qubitCount, terms⟩ := by
  rw [HamiltonianConfig.hamiltonian, map_eq_ok]
  exact exists_congr fun terms => and_congr readTerms_eq_ok eq_comm

/-! ### The steps of the command -/

/-- The lowering of the library that the options select, with the repeats as they stand. -/
def LowerOptions.select (o : LowerOptions) (start : Circuit (Gate Float)) (h : Hamiltonian Float) :
    Except (CircuitError Float) (Circuit (Gate Float)) :=
  if o.diagonal then start.lowerDiagonal h o.angle else start.lower h o.angle o.repeats

theorem select_eq_lowerBy (o : LowerOptions) (start : Circuit (Gate Float)) (h : Hamiltonian Float) :
    o.select start h = start.lowerBy h o.angle o.policy := by
  unfold LowerOptions.select LowerOptions.policy
  split <;> rfl

section Steps

variable {o : LowerOptions} {h : Hamiltonian Float}

/-- An error of the two steps of a simulation. -/
def LowerError.OfSimulation : LowerError → Prop
  | .allocation _ => True
  | .simulation _ => True
  | _ => False

/-- **The command lowers as the library does** if asked for the repeats as they stand, and reports the
number that they come to. -/
theorem lowerAlone_eq_ok {p : Policy} {c : Circuit (Gate Float)} :
    lowerAlone h o.angle o.diagonal o.repeats = .ok (p, c) ↔
      ∃ start, Circuit.new (R := Float) h.qubitCount = .ok start ∧ o.select start h = .ok c ∧
        p = o.policy.settled o.angle h.qubitCount := by
  -- the command hands over a settled number of repeats, so the library is compared at that number
  have hsettled := fun start => lowerBy_settled start h o.angle o.policy
  simp only [select_eq_lowerBy, ← hsettled]
  rw [lowerAlone, bind_eq_ok]
  simp only [attempt_eq_ok]
  refine exists_congr fun start => and_congr_right fun _ => ?_
  unfold LowerOptions.policy
  cases o.diagonal <;>
    simp only [Bool.false_eq_true, if_true, if_false, bind_eq_ok, attempt_eq_ok, pure_eq_ok,
      Prod.mk.injEq]
  all_goals
    constructor
    · rintro ⟨_, hc, rfl, rfl⟩
      exact ⟨hc, rfl⟩
    · rintro ⟨hc, rfl⟩
      exact ⟨_, hc, rfl, rfl⟩

theorem lowerAlone_error {e : LowerError} (he : lowerAlone h o.angle o.diagonal o.repeats = .error e) :
    ¬ e.OfSimulation := by
  have hheading : ∀ {α : Type} {heading : CircuitError Float → LowerError}
      {x : Except (CircuitError Float) α}, (∀ cause, ¬ (heading cause).OfSimulation) →
      attempt heading x = .error e → ¬ e.OfSimulation := by
    intro α heading x hno hx
    obtain ⟨cause, -, rfl⟩ := attempt_eq_error.mp hx
    exact hno cause
  rcases bind_eq_error.mp he with hnew | ⟨start, -, hlower⟩
  · exact hheading (fun _ => id) hnew
  · split at hlower
    all_goals
      rcases bind_eq_error.mp hlower with hlower | ⟨_, -, hpure⟩
      · exact hheading (fun _ => id) hlower
      · exact absurd hpure pure_ne_error

/-- What a report says of the circuit `c` to which the Hamiltonian has been lowered. -/
structure LowerOptions.Reports (o : LowerOptions) (h : Hamiltonian Float) (c : Circuit (Gate Float))
    (r : LowerReport) : Prop where
  termCount : r.termCount = h.terms.length
  policy : r.policy = o.policy.settled o.angle h.qubitCount
  summary : r.summary = c.summary
  silent : o.simulate = false → r.outcomes = none
  simulated : o.simulate = true → ∃ s t : StateVector Float,
    StateVector.zeroState c.qubitCount = .ok s ∧ c.run s = .ok () t ∧
      r.outcomes = some (topOutcomes t reportedOutcomes)

/-- With the width settled, a report is what the lowering gives and what the simulation adds. -/
theorem report_eq_bind (hwidth : o.simulate = true → h.qubitCount ≤ maxSimulatedQubits) :
    o.report h = (do
      let (policy, c) ← lowerAlone h o.angle o.diagonal o.repeats
      let outcomes ←
        if o.simulate then (finalState c).map fun s => some (topOutcomes s reportedOutcomes)
        else pure none
      pure { termCount := h.terms.length, policy, summary := c.summary, outcomes }) := by
  have hno : ¬ (o.simulate && decide (maxSimulatedQubits < h.qubitCount)) = true := by
    rw [Bool.and_eq_true, decide_eq_true_eq]
    exact fun ⟨hsim, hwide⟩ => absurd (hwidth hsim) (Nat.not_le.mpr hwide)
  rw [LowerOptions.report, if_neg hno]

/-- **The command reports every lowering that succeeds.** If it simulates, the simulation succeeds. -/
theorem report_succeeds {start c : Circuit (Gate Float)}
    (hwidth : o.simulate = true → h.qubitCount ≤ maxSimulatedQubits)
    (hnew : Circuit.new (R := Float) h.qubitCount = .ok start) (hselect : o.select start h = .ok c) :
    ∃ r, o.report h = .ok r ∧ o.Reports h c r := by
  have hmade : c.MadeFromFactory :=
    madeFromFactory_of_lowerBy hnew ((select_eq_lowerBy o start h).symm.trans hselect)
  have hcount : c.qubitCount = h.qubitCount := by
    rw [select_eq_lowerBy] at hselect
    obtain ⟨-, rfl⟩ := Circuit.new_eq_ok.mp hnew
    obtain ⟨-, -, rfl⟩ := lowerBy_eq_ok.mp hselect
    rfl
  have hlower := lowerAlone_eq_ok.mpr ⟨start, hnew, hselect, rfl⟩
  rw [report_eq_bind hwidth, hlower]
  -- the circuit has the width of the Hamiltonian, which has been compared with the limit
  cases hsim : o.simulate with
  | false => exact ⟨_, rfl, rfl, rfl, rfl, fun _ => rfl, fun h => by simp [hsim] at h⟩
  | true =>
    obtain ⟨s, t, hs, ht, hfinal⟩ := finalState_succeeds hmade (hcount ▸ hwidth hsim)
    have hdone : (finalState c).map (fun s => some (topOutcomes s reportedOutcomes)) =
        .ok (some (topOutcomes t reportedOutcomes)) := by
      rw [hfinal]
      rfl
    refine ⟨_, bind_eq_ok.mpr ⟨_, rfl, bind_eq_ok.mpr ⟨_, hdone, rfl⟩⟩, rfl, rfl, rfl, ?_, ?_⟩
    · exact fun h => by simp [hsim] at h
    · exact fun _ => ⟨s, t, hs, ht, rfl⟩

/-- A Hamiltonian that is too wide to simulate is refused before it is lowered. -/
theorem report_too_wide (hwide : ¬ (o.simulate = true → h.qubitCount ≤ maxSimulatedQubits)) :
    o.report h = .error (.tooWideToSimulate h.qubitCount) := by
  rw [Classical.not_imp, Nat.not_le] at hwide
  rw [LowerOptions.report, hwide.1, decide_eq_true hwide.2]
  rfl

/-- **The command reports no other lowering.** -/
theorem reports_of_report_eq_ok {r : LowerReport} (hr : o.report h = .ok r) :
    (o.simulate = true → h.qubitCount ≤ maxSimulatedQubits) ∧ ∃ start c,
      Circuit.new (R := Float) h.qubitCount = .ok start ∧ o.select start h = .ok c ∧ o.Reports h c r := by
  by_cases hwidth : o.simulate = true → h.qubitCount ≤ maxSimulatedQubits
  · have hsteps := hr
    rw [report_eq_bind hwidth, bind_eq_ok] at hsteps
    obtain ⟨⟨p, c⟩, hlower, -⟩ := hsteps
    obtain ⟨start, hnew, hselect, -⟩ := lowerAlone_eq_ok.mp hlower
    obtain ⟨r', hr', hreports⟩ := report_succeeds hwidth hnew hselect
    obtain rfl : r = r' := Except.ok.inj (hr.symm.trans hr')
    exact ⟨hwidth, start, c, hnew, hselect, hreports⟩
  · rw [report_too_wide hwidth] at hr
    cases hr

theorem report_error {e : LowerError} (he : o.report h = .error e) : ¬ e.OfSimulation := by
  by_cases hwidth : o.simulate = true → h.qubitCount ≤ maxSimulatedQubits
  · cases hlower : lowerAlone h o.angle o.diagonal o.repeats with
    | error e' =>
      rw [report_eq_bind hwidth, hlower] at he
      obtain rfl := Except.error.inj he
      exact lowerAlone_error hlower
    | ok lowered =>
      obtain ⟨start, hnew, hselect, -⟩ := lowerAlone_eq_ok.mp hlower
      obtain ⟨r, hr, -⟩ := report_succeeds hwidth hnew hselect
      rw [hr] at he
      cases he
  · rw [report_too_wide hwidth] at he
    obtain rfl := Except.error.inj he
    exact id

end Steps

/-! ### The command -/

section Command

variable {o : LowerOptions} {content : String} {config : HamiltonianConfig}

theorem run_eq_bind (hload : readConfig o.input content = .ok config) (hfinite : o.angle.isFinite = true) :
    o.run (.text content) = (config.hamiltonian.mapError .invalidTerm >>= o.report) := by
  rw [LowerOptions.run, hfinite, loadHamiltonian, hload]
  rfl

theorem run_infinite (hfinite : o.angle.isFinite = false) (file : FileContent) :
    o.run file = .error (.infiniteAngle o.angle) := by
  rw [LowerOptions.run, hfinite]
  rfl

/-- The command succeeds with a report on the Hamiltonian that the description is read as. -/
theorem run_eq_ok (hload : readConfig o.input content = .ok config) {r : LowerReport} :
    o.run (.text content) = .ok r ↔ o.angle.isFinite = true ∧
      ∃ terms, config.Describes terms ∧ o.report ⟨config.qubitCount, terms⟩ = .ok r := by
  cases hfinite : o.angle.isFinite with
  | false => simp [run_infinite hfinite]
  | true =>
    rw [run_eq_bind hload hfinite, bind_eq_ok]
    simp only [mapError_eq_ok, hamiltonian_eq_ok, true_and]
    constructor
    · rintro ⟨_, ⟨terms, hterms, rfl⟩, hr⟩
      exact ⟨terms, hterms, hr⟩
    · rintro ⟨terms, hterms, hr⟩
      exact ⟨_, ⟨terms, hterms, rfl⟩, hr⟩

/-- **No simulation fails.** -/
theorem run_error (hload : readConfig o.input content = .ok config) {e : LowerError}
    (he : o.run (.text content) = .error e) : ¬ e.OfSimulation := by
  cases hfinite : o.angle.isFinite with
  | false =>
    rw [run_infinite hfinite] at he
    obtain rfl := Except.error.inj he
    exact id
  | true =>
    rw [run_eq_bind hload hfinite] at he
    rcases bind_eq_error.mp he with hread | ⟨h, -, hreport⟩
    · obtain ⟨cause, -, rfl⟩ := mapError_eq_error.mp hread
      exact id
    · exact report_error hreport

/-- What the answer shows: the number of repeats, which is null or left out where nothing is repeated,
and the summary after it. -/
def LowerOptions.Prints (o : LowerOptions) (repeats? : Option ℕ) (summary : CircuitSummary)
    (reply : Reply) : Prop :=
  if o.json then
    ∃ policy rest, reply = .document (.ofFields ([("policy", policy),
      ("repeats", repeats?.elim .null Json.ofNat), ("summary", summary.toJson)] ++ rest))
  else
    ∃ before after, reply = .text (before ++ repeats?.elim "" (fun n => s!", {n} repeats") ++ "\n" ++
      summary.report ++ after)

theorem prints_reply {file : FileContent} {r : LowerReport} (hr : o.run file = .ok r) :
    o.Prints r.policy.repeats? r.summary (o.reply file) := by
  rw [LowerOptions.Prints, LowerOptions.reply, hr]
  cases o.json with
  | true => exact ⟨_, _, rfl⟩
  | false => exact ⟨_, _, rfl⟩

/-- The gates of a lowering, by the number of repeats that is reported. -/
theorem gateCount_of_reports {terms : List (PauliTerm Float)} {start c : Circuit (Gate Float)}
    {r : LowerReport} (hterms : config.Describes terms)
    (hnew : Circuit.new (R := Float) config.qubitCount = .ok start)
    (hselect : o.select start ⟨config.qubitCount, terms⟩ = .ok c)
    (hreports : o.Reports ⟨config.qubitCount, terms⟩ c r) :
    (o.diagonal = true → r.policy.repeats? = none ∧ r.summary.gateCount = config.terms.length) ∧
      (o.diagonal = false → ∃ k, r.policy.repeats? = some k ∧ 1 ≤ k ∧
        r.summary.gateCount = k * config.terms.length) := by
  have hsize : r.summary.gateCount =
      o.policy.slices o.angle config.qubitCount * config.terms.length := by
    rw [select_eq_lowerBy] at hselect
    obtain ⟨-, rfl⟩ := Circuit.new_eq_ok.mp hnew
    rw [hreports.summary, hterms.length_eq]
    exact (size_of_lowerBy hselect).trans (Nat.zero_add _)
  have hpolicy := hreports.policy
  constructor
  · intro hdiagonal
    have ho : o.policy = .diagonal := by rw [LowerOptions.policy, hdiagonal, if_pos rfl]
    rw [ho] at hsize hpolicy
    exact ⟨by rw [hpolicy]; rfl, hsize.trans (Nat.one_mul _)⟩
  · intro hdiagonal
    have ho : o.policy = .steps o.repeats := by
      rw [LowerOptions.policy, hdiagonal, if_neg Bool.false_ne_true]
    rw [ho] at hsize hpolicy
    exact ⟨_, by rw [hpolicy]; rfl, double_chosenRepeats_pos o.angle config.qubitCount o.repeats, hsize⟩

end Command

/-- **The command reports exactly what the library does.** On a description that has been loaded, it
succeeds exactly if the angle is finite, every text of a term is read, there is a qubit, there are at
most twenty if it simulates, and the lowering that the options select succeeds. The summary that it
prints is the one of the circuit that the library makes of the repeats as they stand. The gates are as
many as the terms, for every repeat that is reported, and repeats are reported unless the lowering is
diagonal. A simulation never fails. -/
theorem lower_command_reports (o : LowerOptions) {content : String} {config : HamiltonianConfig}
    (hload : readConfig o.input content = .ok config) :
    ((∃ r, o.run (.text content) = .ok r) ↔
      o.angle.isFinite = true ∧ 1 ≤ config.qubitCount ∧ (o.simulate = true → config.qubitCount ≤ 20) ∧
        ∃ terms, config.Describes terms ∧ ∃ start c, Circuit.new (R := Float) config.qubitCount = .ok start ∧
          o.select start ⟨config.qubitCount, terms⟩ = .ok c) ∧
    (∀ r, o.run (.text content) = .ok r → ∃ terms start c, config.Describes terms ∧
      Circuit.new (R := Float) config.qubitCount = .ok start ∧
      o.select start ⟨config.qubitCount, terms⟩ = .ok c ∧
      o.Reports ⟨config.qubitCount, terms⟩ c r ∧
      o.Prints r.policy.repeats? c.summary (o.reply (.text content)) ∧
      (o.diagonal = true → r.policy.repeats? = none ∧ c.summary.gateCount = config.terms.length) ∧
      (o.diagonal = false → ∃ k, r.policy.repeats? = some k ∧ 1 ≤ k ∧
        c.summary.gateCount = k * config.terms.length)) ∧
    ∀ cause, o.run (.text content) ≠ .error (.allocation cause) ∧
      o.run (.text content) ≠ .error (.simulation cause) := by
  refine ⟨⟨?_, ?_⟩, ?_, ?_⟩
  · rintro ⟨r, hr⟩
    obtain ⟨hfinite, terms, hterms, hreport⟩ := (run_eq_ok hload).mp hr
    obtain ⟨hwidth, start, c, hnew, hselect, -⟩ := reports_of_report_eq_ok hreport
    have hpos := Nat.one_le_iff_ne_zero.mpr (Circuit.new_eq_ok.mp hnew).1
    exact ⟨hfinite, hpos, hwidth, terms, hterms, start, c, hnew, hselect⟩
  · rintro ⟨hfinite, -, hwidth, terms, hterms, start, c, hnew, hselect⟩
    obtain ⟨r, hreport, -⟩ := report_succeeds hwidth hnew hselect
    exact ⟨r, (run_eq_ok hload).mpr ⟨hfinite, terms, hterms, hreport⟩⟩
  · intro r hr
    obtain ⟨-, terms, hterms, hreport⟩ := (run_eq_ok hload).mp hr
    obtain ⟨-, start, c, hnew, hselect, hreports⟩ := reports_of_report_eq_ok hreport
    have hprints := prints_reply hr
    have hgates := gateCount_of_reports hterms hnew hselect hreports
    rw [hreports.summary] at hprints hgates
    exact ⟨terms, start, c, hterms, hnew, hselect, hreports, hprints, hgates⟩
  · exact fun cause => ⟨fun he => run_error hload he trivial, fun he => run_error hload he trivial⟩

/-! An Ising pair in a transverse field, with the default number of repeats. -/

/-- An Ising pair with a field on one of its qubits. -/
def isingText : String :=
  "\x7b\"qubit_count\": 2, \"terms\": [\x7b\"coef\": 1.0, \"pauli\": \"Z 0 Z 1\"\x7d, " ++
    "\x7b\"coef\": -0.5, \"pauli\": \"X 0\"\x7d]\x7d"

/-- What the text of the pair describes. -/
def isingConfig : HamiltonianConfig := ⟨2, [⟨1.0, 0, "Z 0 Z 1"⟩, ⟨-0.5, 0, "X 0"⟩]⟩

/-- The options by which the pair is lowered. -/
def isingOptions : LowerOptions := ⟨"ising.json", 0.05, 0, false, true, true⟩

theorem lower_command_reports_ising :
    readConfig isingOptions.input isingText = .ok isingConfig ∧
      (∃ r, isingOptions.run (.text isingText) = .ok r ∧
        ∃ k, r.policy.repeats? = some k ∧ 1 ≤ k ∧ r.summary.gateCount = k * 2) ∧
      ∀ cause, isingOptions.run (.text isingText) ≠ .error (.simulation cause) := by
  have hload : readConfig isingOptions.input isingText = .ok isingConfig :=
    toOption_eq_some.mp (by decide +kernel)
  obtain ⟨hiff, hreports, hnever⟩ := lower_command_reports isingOptions hload
  -- without a simulation the whole run can be evaluated
  have hquiet : ({ isingOptions with simulate := false }.run (.text isingText)).toOption.isSome = true := by
    decide +kernel
  have hrun : ∃ r, isingOptions.run (.text isingText) = .ok r := by
    obtain ⟨r, hr⟩ := Option.isSome_iff_exists.mp hquiet
    obtain ⟨hfinite, hpos, -, hlowered⟩ :=
      (lower_command_reports { isingOptions with simulate := false } hload).1.mp
        ⟨r, toOption_eq_some.mp hr⟩
    exact hiff.mpr ⟨hfinite, hpos, fun _ => by decide, hlowered⟩
  obtain ⟨r, hr⟩ := hrun
  obtain ⟨terms, start, c, -, -, -, hc, -, -, hgates⟩ := hreports r hr
  exact ⟨hload, ⟨r, hr, hc.summary ▸ hgates rfl⟩, fun cause => (hnever cause).2⟩

end GateCircuit
