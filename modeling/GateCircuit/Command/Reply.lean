/-
# Replies

What the program answers to a request: text, a document, a message about a failure, or nothing but
the fact that the arguments make no request.

Key definitions: `Reply`, `LowerReport.text`, `LowerReport.toJson`, `Request.reply`.
-/
import GateCircuit.Command.Lower
import GateCircuit.Document.Gate
import GateCircuit.Double.Fixed

namespace GateCircuit

/-- What the program answers. -/
inductive Reply where
  | text (content : String)
  | document (content : Json)
  | failure (message : String)
  | usage
  deriving Repr

/-- The version of the program. -/
def versionNumber : String := "1.9.5"

/-- The line that names the program and its version. -/
def programLine : String := "qcircuit " ++ versionNumber ++ "\n"

/-- What the program and its parts are. -/
def versionText : String :=
  "qcircuit v" ++ versionNumber ++ " - quantum circuit IR and Hamiltonian lowering\n\n" ++
    "Components:\n" ++
    "  qcircuit      Circuit container, analysis passes and lowering\n" ++
    "  qcircuit-cli  Command-line interface\n\n" ++
    "License:    Apache-2.0\n"

/-- How the program is used. -/
def helpText : String :=
  "qcircuit - quantum circuit IR and Hamiltonian lowering\n\n" ++
    "Usage: qcircuit [OPTIONS] <COMMAND>\n\n" ++
    "Commands:\n" ++
    "  lower    Lower a Hamiltonian into a circuit of Pauli rotations\n" ++
    "           -i, --input <INPUT>      Hamiltonian file (YAML or JSON)\n" ++
    "           -a, --angle <ANGLE>      Evolution angle\n" ++
    "           -r, --repeats <REPEATS>  Number of steps, 0 for the default\n" ++
    "               --diagonal           Exact lowering of I and Z terms\n" ++
    "               --simulate           Print the most likely outcomes\n" ++
    "               --json               Print the report as JSON\n" ++
    "  version  Show version information\n" ++
    "  help     Print this message\n\n" ++
    "Options:\n" ++
    "  -v, --verbose  Increase verbosity\n" ++
    "  -h, --help     Print help\n" ++
    "  -V, --version  Print version\n"

/-- The name of a policy in reports. -/
def Policy.name : Policy → String
  | diagonal => "diagonal"
  | steps _ => "trotter"

/-- The number of repeats, for a policy that repeats. -/
def Policy.repeats? : Policy → Option Nat
  | diagonal => none
  | steps repeats => some repeats

namespace Outcome

/-- An outcome as a record. -/
def toJson (o : Outcome Float) : Json :=
  .ofFields [("bitstring", .ofText o.bitstring), ("probability", .ofDouble o.probability)]

/-- An outcome as a line of a table: two places of its percentage, at least six characters wide, and
a bar of a block for every two percent. -/
def line (o : Outcome Float) : String :=
  let percentage := o.probability * 100
  let shown := Double.fixed 2 percentage
  let blocks := (percentage / 2).round.toUInt64.toNat
  "  " ++ o.bitstring ++ ": " ++ String.ofList (List.replicate (6 - shown.length) ' ') ++ shown ++
    "% " ++ String.ofList (List.replicate blocks '█') ++ "\n"

end Outcome

namespace LowerReport

/-- A report as text. -/
def text (r : LowerReport) (o : LowerOptions) : String :=
  let repeats := r.policy.repeats?.elim "" fun n => s!", {n} repeats"
  let outcomes :=
    r.outcomes.elim "" fun list =>
      "\n✓ Most likely outcomes:\n" ++ String.join (list.map Outcome.line)
  "→ Lowered " ++ o.input ++ s!" ({r.termCount} terms, angle " ++ Double.text o.angle ++
    ") with " ++ r.policy.name ++ " policy" ++ repeats ++ "\n" ++ r.summary.report ++ outcomes

/-- A report as a record; outcomes are left out if nothing was simulated. -/
def toJson (r : LowerReport) : Json :=
  .ofFields
    ([("policy", .ofText r.policy.name),
      ("repeats", r.policy.repeats?.elim .null Json.ofNat),
      ("summary", r.summary.toJson)] ++
      r.outcomes.toList.map fun list => ("outcomes", .array (list.map Outcome.toJson)))

end LowerReport

/-- The answer of the command `lower`. -/
def LowerOptions.reply (o : LowerOptions) (file : FileContent) : Reply :=
  match o.run file with
  | .error e => .failure e.message
  | .ok r => if o.json then .document r.toJson else .text (r.text o)

/-- The answer to a request, where `lookup` says what stands at a path. -/
def Request.reply (lookup : String → FileContent) : Request → Reply
  | .lower o => o.reply (lookup o.input)
  | .version => .text versionText
  | .programVersion => .text programLine
  | .help => .text helpText

/-- The answer to command-line arguments. -/
def answer (lookup : String → FileContent) (arguments : List String) : Reply :=
  (Request.ofArguments? arguments).elim .usage (Request.reply lookup)

end GateCircuit
