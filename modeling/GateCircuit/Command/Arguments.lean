/-
# Command-line arguments

The command `lower` needs an input file and an angle and takes further options; the command
`version` takes none. The switch for verbosity may stand anywhere, and may be repeated. The value
of an option follows it as the next argument or in the same one. An argument that begins with a
dash is no value, save that a negative number is one for the angle. Options are not repeated, and
nothing is left over.

Key definitions: `LowerOptions`, `Request`, `Request.ofArguments?`.
-/
import GateCircuit.Double.Reading
import GateCircuit.Text.Words

namespace GateCircuit

/-- What the command `lower` is asked to do. -/
structure LowerOptions where
  input : String
  angle : Float
  /-- zero asks for the default number -/
  repeats : Nat
  diagonal : Bool
  simulate : Bool
  json : Bool
  deriving Repr

/-- What the program is asked to do. -/
inductive Request where
  | lower (options : LowerOptions)
  | version
  /-- the line that names the program and its version -/
  | programVersion
  | help
  deriving Repr

namespace Arguments

/-- The form of an argument. -/
inductive Form where
  /-- neither an option nor a switch -/
  | word
  /-- two dashes, after which nothing is an option -/
  | escape
  /-- a long name, perhaps with a value after an equals sign -/
  | long (name : List Char) (value : Option (List Char))
  /-- single-letter names, the last perhaps with a value -/
  | short (letters : List Char)
  deriving DecidableEq, Repr

/-- The form of an argument, by its dashes. A single dash is a word. -/
def form (argument : List Char) : Form :=
  match argument with
  | ['-', '-'] => .escape
  | '-' :: '-' :: body =>
    let name := body.takeWhile (· ≠ '=')
    .long name (if name.length = body.length then none else some (body.drop (name.length + 1)))
  | ['-'] => .word
  | '-' :: letters => .short letters
  | _ => .word

/-- An option of the command `lower` that takes a value. -/
inductive Setting where
  | input
  | angle
  | repeats
  deriving DecidableEq, Repr

/-- A switch of the command `lower`. -/
inductive Switch where
  | diagonal
  | simulate
  | json
  deriving DecidableEq, Repr

/-- The options read so far. -/
structure Draft where
  input : Option String := none
  angle : Option Float := none
  repeats : Option Nat := none
  switches : List Switch := []

/-- Whether letters after a dash make a negative number: digits, a point that is not in front, and
an exponent without sign. -/
def isNumber (letters : List Char) : Bool :=
  let mantissa := letters.takeWhile fun c => c != 'e' && c != 'E'
  let exponent := letters.drop (mantissa.length + 1)
  let whole := mantissa.takeWhile (· ≠ '.')
  let fraction := mantissa.drop (whole.length + 1)
  whole.all Decimal.isDigit && fraction.all Decimal.isDigit && exponent.all Decimal.isDigit &&
    !(whole.isEmpty && !letters.isEmpty) && !(exponent.isEmpty && mantissa.length < letters.length)

/-- Whether an argument can be the value of the option before it. -/
def isValue (setting : Setting) (argument : List Char) : Bool :=
  match form argument with
  | .word => true
  | .short letters => setting == .angle && isNumber letters
  | _ => false

/-- A number of repeats: digits with or without a sign, where only zero may be negative. -/
def readRepeats (text : List Char) : Option Nat :=
  match text with
  | '-' :: digits => (readNatural digits).filter (· = 0)
  | _ => readCount text

/-- Sets an option that has not been set. -/
def Draft.set (d : Draft) (setting : Setting) (value : List Char) : Option Draft :=
  match setting with
  | .input => if d.input.isSome then none else some { d with input := some (String.ofList value) }
  | .angle =>
    if d.angle.isSome then none
    else (Double.read (String.ofList value)).map fun x => { d with angle := some x }
  | .repeats =>
    if d.repeats.isSome then none else (readRepeats value).map fun n => { d with repeats := some n }

/-- Turns a switch on that has not been turned on. -/
def Draft.turnOn (d : Draft) (switch : Switch) : Option Draft :=
  if d.switches.contains switch then none else some { d with switches := switch :: d.switches }

/-- The request, if all that is needed has been given. -/
def Draft.finish (d : Draft) : Option Request := do
  some (.lower {
    input := ← d.input
    angle := ← d.angle
    repeats := d.repeats.getD 0
    diagonal := d.switches.contains .diagonal
    simulate := d.switches.contains .simulate
    json := d.switches.contains .json })

/-- What becomes of the draft at an argument. -/
inductive Step where
  | refused
  | help
  | next (draft : Draft)
  /-- the next argument is the value of an option -/
  | awaiting (setting : Setting)

/-- A step that sets an option or fails. -/
def Step.ofDraft? (d : Option Draft) : Step := d.elim .refused .next

/-- Single-letter names in one argument. -/
def Draft.letters (d : Draft) : List Char → Step
  | [] => .next d
  | 'v' :: rest => d.letters rest
  | 'h' :: _ => .help
  | c :: rest =>
    let setting? : Option Setting :=
      if c = 'i' then some .input else if c = 'a' then some .angle
      else if c = 'r' then some .repeats else none
    match setting?, rest with
    | none, _ => .refused
    | some setting, [] => .awaiting setting
    | some setting, '=' :: value => .ofDraft? (d.set setting value)
    | some setting, value => .ofDraft? (d.set setting value)

/-- A long name with or without a value. -/
def Draft.long (d : Draft) (name : String) (value : Option (List Char)) : Step :=
  let option (setting : Setting) : Step :=
    value.elim (.awaiting setting) fun text => .ofDraft? (d.set setting text)
  let switch (step : Step) : Step := if value.isSome then .refused else step
  match name with
  | "input" => option .input
  | "angle" => option .angle
  | "repeats" => option .repeats
  | "diagonal" => switch (.ofDraft? (d.turnOn .diagonal))
  | "simulate" => switch (.ofDraft? (d.turnOn .simulate))
  | "json" => switch (.ofDraft? (d.turnOn .json))
  | "verbose" => switch (.next d)
  | "help" => switch .help
  | _ => .refused

/-- The arguments after the word `lower`. -/
def lower (d : Draft) : List (List Char) → Option Request
  | [] => d.finish
  | argument :: rest =>
    let step : Step :=
      match form argument with
      | .word => .refused
      | .escape => if rest.isEmpty then .next d else .refused
      | .long name value => d.long (String.ofList name) value
      | .short letters => d.letters letters
    match step, rest with
    | .refused, _ => none
    | .help, _ => some .help
    | .next d, rest => lower d rest
    | .awaiting _, [] => none
    | .awaiting setting, value :: rest =>
      if isValue setting value then
        match d.set setting value with
        | some d => lower d rest
        | none => none
      else none

/-- What a run of single-letter switches asks for where only `v` and `h` are known, and `V` if
`versioned`; none in the outer option if a letter is unknown, and in the inner one if nothing is
asked for. -/
def plainLetters (versioned : Bool) : List Char → Option (Option Request)
  | [] => some none
  | c :: rest =>
    if c = 'v' then plainLetters versioned rest
    else if c = 'h' then some (some .help)
    else if c = 'V' && versioned then some (some .programVersion)
    else none

/-- The same for a long name. -/
def plainName (versioned : Bool) (name : String) (value : Option (List Char)) :
    Option (Option Request) :=
  if value.isSome then none
  else if name = "verbose" then some none
  else if name = "help" then some (some .help)
  else if name = "version" && versioned then some (some .programVersion)
  else none

/-- The arguments after the word `version`. -/
def version : List (List Char) → Option Request
  | [] => some .version
  | argument :: rest =>
    let asked : Option (Option Request) :=
      match form argument with
      | .word => none
      | .escape => if rest.isEmpty then some none else none
      | .long name value => plainName false (String.ofList name) value
      | .short letters => plainLetters false letters
    match asked with
    | none => none
    | some (some request) => some request
    | some none => version rest

/-- The arguments after the word `help`: at most one command. -/
def help : List (List Char) → Option Request
  | [] => some .help
  | [command] =>
    if ["lower", "version", "help"].contains (String.ofList command) then some .help else none
  | _ => none

/-- All arguments: switches, and then a command with its own arguments. -/
def program : List (List Char) → Option Request
  | [] => none
  | argument :: rest =>
    let onwards (asked : Option (Option Request)) (continued : Option Request) : Option Request :=
      match asked with
      | none => none
      | some (some request) => some request
      | some none => continued
    match form argument with
    | .word =>
      match String.ofList argument with
      | "lower" => lower {} rest
      | "version" => version rest
      | "help" => help rest
      | _ => none
    | .escape => none
    | .long name value => onwards (plainName true (String.ofList name) value) (program rest)
    | .short letters => onwards (plainLetters true letters) (program rest)

end Arguments

/-- The request that command-line arguments make, if they make one. -/
def Request.ofArguments? (arguments : List String) : Option Request :=
  Arguments.program (arguments.map String.toList)

end GateCircuit
