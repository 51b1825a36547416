import PhaseLang.Compile

/-!
# Command line options

`phasec [OPTIONS] INPUT`. Arguments are read from left to right and the first thing that
ends the reading decides: a fault, or a request for the version or the help. Every option
may be given once.
-/

namespace PhaseLang.Command

structure Options where
  input : String
  /-- Where the output goes; without it, to standard output. -/
  output : Option String := none
  version : Nat := defaultVersion
  /-- Where types of other files are looked for; without it, beside the input. -/
  root : Option String := none
  dumpTree : Bool := false
  verbose : Bool := false
deriving DecidableEq, Repr

inductive Setting where
  | output | version | root
deriving DecidableEq, Repr

inductive Switch where
  | dumpTree | verbose | showVersion | showHelp
deriving DecidableEq, Repr

inductive UsageError where
  | unknown (argument : String)
  | missingInput
  | missingValue (setting : Setting)
  | badValue (setting : Setting) (value : String)
  | emptyInput
  | unexpectedValue (switch : Switch)
  | repeatedSetting (setting : Setting)
  | repeatedSwitch (switch : Switch)
deriving DecidableEq, Repr

inductive Interruption where
  | usage (error : UsageError)
  | version
  | help
deriving DecidableEq, Repr

namespace Setting

def text : Setting → String
  | output => "--output <OUTPUT>"
  | version => "--php-version <PHP_VERSION>"
  | root => "--root <ROOT>"

def ofName? : String → Option Setting
  | "output" => some output
  | "php-version" => some version
  | "root" => some root
  | _ => none

end Setting

namespace Switch

def text : Switch → String
  | dumpTree => "--dump-ast"
  | verbose => "--verbose"
  | showVersion => "--version"
  | showHelp => "--help"

def ofName? : String → Option Switch
  | "dump-ast" => some dumpTree
  | "verbose" => some verbose
  | "version" => some showVersion
  | "help" => some showHelp
  | _ => none

end Switch

namespace UsageError

def text : UsageError → String
  | unknown argument => s!"unexpected argument `{argument}` found"
  | missingInput => "an input file is required"
  | missingValue setting => s!"a value is required for `{setting.text}`"
  | badValue setting value => s!"invalid value `{value}` for `{setting.text}`"
  | emptyInput => "the name of the input file is empty"
  | unexpectedValue switch => s!"`{switch.text}` takes no value"
  | repeatedSetting setting => s!"`{setting.text}` cannot be used multiple times"
  | repeatedSwitch switch => s!"`{switch.text}` cannot be used multiple times"

end UsageError

/-- A number of at most 32 bits: decimal digits after an optional sign. -/
def number32? (text : String) : Option Nat :=
  let (negative, digits) := match text.toList with
    | '+' :: cs => (false, cs)
    | '-' :: cs => (true, cs)
    | cs => (false, cs)
  if digits.isEmpty || !digits.all Char.isDigit then none
  else
    let value := digits.foldl (fun n c => 10 * n + (c.toNat - '0'.toNat)) 0
    if value < UInt32.size && !(negative && value != 0) then some value else none

structure Draft where
  input : Option String := none
  output : Option String := none
  version : Option Nat := none
  root : Option String := none
  dumpTree : Bool := false
  verbose : Bool := false

abbrev Reads := Except Interruption

def fault {α : Type} (error : UsageError) : Reads α := .error (.usage error)

namespace Draft

/-- Stores the value of an option. Paths are not empty. -/
def store (d : Draft) (setting : Setting) (value : String) : Reads Draft :=
  match setting with
  | .output =>
    if d.output.isSome then fault (.repeatedSetting setting)
    else if value.isEmpty then fault (.badValue setting value)
    else .ok { d with output := some value }
  | .root =>
    if d.root.isSome then fault (.repeatedSetting setting)
    else if value.isEmpty then fault (.badValue setting value)
    else .ok { d with root := some value }
  | .version =>
    if d.version.isSome then fault (.repeatedSetting setting)
    else match number32? value with
      | none => fault (.badValue setting value)
      | some n => .ok { d with version := some n }

def turnOn (d : Draft) (switch : Switch) : Reads Draft :=
  match switch with
  | .showVersion => .error .version
  | .showHelp => .error .help
  | .dumpTree =>
    if d.dumpTree then fault (.repeatedSwitch switch) else .ok { d with dumpTree := true }
  | .verbose =>
    if d.verbose then fault (.repeatedSwitch switch) else .ok { d with verbose := true }

def storeInput (d : Draft) (argument : String) : Reads Draft :=
  if d.input.isSome then fault (.unknown argument)
  else if argument.isEmpty then fault .emptyInput
  else .ok { d with input := some argument }

def finish (d : Draft) : Reads Options :=
  match d.input with
  | none => fault .missingInput
  | some input =>
    .ok {
      input
      output := d.output
      version := d.version.getD defaultVersion
      root := d.root
      dumpTree := d.dumpTree
      verbose := d.verbose }

/-- Reads the letters after a single dash. What follows the letter of an option with a value
is its value; if nothing follows, the value is the next argument. -/
def letters (d : Draft) : List Char → Reads (Draft × Option Setting)
  | [] => .ok (d, none)
  | ['o'] => .ok (d, some .output)
  | 'o' :: '=' :: value => do return (← d.store .output (String.ofList value), none)
  | 'o' :: value => do return (← d.store .output (String.ofList value), none)
  | 'v' :: cs => do letters (← d.turnOn .verbose) cs
  | 'V' :: cs => do letters (← d.turnOn .showVersion) cs
  | 'h' :: cs => do letters (← d.turnOn .showHelp) cs
  | c :: _ => fault (.unknown s!"-{c}")

def word (d : Draft) (name : String) (value : Option String) : Reads (Draft × Option Setting) :=
  match Setting.ofName? name, Switch.ofName? name, value with
  | some setting, _, some value => do return (← d.store setting value, none)
  | some setting, _, none => .ok (d, some setting)
  | none, some switch, some _ => fault (.unexpectedValue switch)
  | none, some switch, none => do return (← d.turnOn switch, none)
  | none, none, _ => fault (.unknown s!"--{name}")

end Draft

inductive Form where
  | plain
  /-- `--`: no options follow. -/
  | divider
  | letters (cs : List Char)
  | word (name : String) (value : Option String)
deriving DecidableEq, Repr

def Form.of (argument : String) : Form :=
  match argument.toList with
  | ['-', '-'] => .divider
  | '-' :: '-' :: cs =>
    let name := String.ofList (cs.takeWhile (· ≠ '='))
    match cs.dropWhile (· ≠ '=') with
    | [] => .word name none
    | _ :: value => .word name (some (String.ofList value))
  | '-' :: c :: cs => .letters (c :: cs)
  | _ => .plain

/-- Reads arguments; `pending` is an option that waits for its value, and `divided` says
that no options follow. -/
def readArguments (d : Draft) (pending : Option Setting) (divided : Bool) :
    List String → Reads Options
  | [] =>
    match pending with
    | some setting => fault (.missingValue setting)
    | none => d.finish
  | argument :: rest => do
    match pending, if divided then .plain else Form.of argument with
    | some setting, .plain => readArguments (← d.store setting argument) none divided rest
    | some setting, _ => fault (.missingValue setting)
    | none, .plain => readArguments (← d.storeInput argument) none divided rest
    | none, .divider => readArguments d none true rest
    | none, .letters cs =>
      let (d, pending) ← d.letters cs
      readArguments d pending divided rest
    | none, .word name value =>
      let (d, pending) ← d.word name value
      readArguments d pending divided rest

def Options.parse (arguments : List String) : Reads Options := readArguments {} none false arguments

end PhaseLang.Command
