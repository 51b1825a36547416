import PhaseLang.Command.Options
import PhaseLang.Diagnostic.Excerpt
import PhaseLang.Tree.Outline

/-!
# The command

`phasec` compiles one file. What it prints follows from its arguments and the files it
reads; reports go to standard output before the result does.
-/

namespace PhaseLang.Command

structure Exit where
  code : Nat
  stdout : String := ""
  stderr : String := ""
deriving DecidableEq, Repr

def versionText : String := "phasec 0.0.1\n"

def helpText : String :=
  "Compiles a Phase source file to PHP

Usage: phasec [OPTIONS] <INPUT>

Arguments:
  <INPUT>  The Phase source file

Options:
  -o, --output <OUTPUT>            Write the output here instead of to standard output
      --php-version <PHP_VERSION>  Target PHP major version. Types and attributes need 8 or newer [default: 8]
      --root <ROOT>                Directory other files' types are resolved from. Defaults to the directory of the input
      --dump-ast                   Print the syntax tree instead of PHP
  -v, --verbose                    Log every compilation stage to standard error
  -h, --help                       Print help
  -V, --version                    Print version
"

def Interruption.exit : Interruption → Exit
  | .usage error => { code := 2, stderr := s!"error: {error.text}\n" }
  | .version => { code := 0, stdout := versionText }
  | .help => { code := 0, stdout := helpText }

structure Product where
  /-- The reports, as they are printed. -/
  reports : String
  /-- What is said on standard error. -/
  complaint : String := ""
  /-- The tree or the PHP; there is none if the grammar was violated. -/
  text : Option String
  /-- Nothing was reported. -/
  clean : Bool
  /-- The files that were looked for. -/
  consulted : List String := []

namespace Options

/-- Prints diagnostics, each on lines of its own. Only the input's own text can be quoted. -/
def printed (o : Options) (source : String) (ds : List Diagnostic) : String :=
  String.join (ds.map fun d => d.excerpt (if d.pos.file = o.input then some source else none) ++ "\n")

def loader (o : Options) (read : Files.Reader) : Loader :=
  { root := o.root.getD ((Files.Path.parent? o.input).getD ""), read }

def outline (o : Options) (source : String) : Product :=
  let reading := readSource source o.input 0
  { reports := o.printed source reading.diagnostics
    text := match reading.result with
      | .ok (program, _) => some (Outline.plain program)
      | .error _ => none
    clean := reading.diagnostics.isEmpty }

def php (o : Options) (source : String) (read : Files.Reader) : Product :=
  let loader := o.loader read
  let compilation := compile source o.input o.version { loader := some loader }
  { reports := o.printed source compilation.diagnostics
    complaint := match compilation.outcome, compilation.outcome.failure? with
      | .reported _ _, some failure => s!"error: {failure}\n"
      | _, _ => ""
    text := compilation.outcome.php?
    clean := compilation.diagnostics.isEmpty
    consulted := compilation.context.types.map fun entry => loader.pathOf entry.1 }

def product (o : Options) (source : String) (read : Files.Reader) : Product :=
  if o.dumpTree then o.outline source else o.php source read

def unreadable (o : Options) (failure : Files.Failure) : Exit :=
  { code := 1, stderr := s!"error: failed to read {o.input}: {failure.message}\n" }

end Options

namespace Product

def code (p : Product) : Nat := if p.clean && p.text.isSome then 0 else 1

def shown (p : Product) : Exit :=
  { code := p.code, stdout := p.reports ++ p.text.getD "", stderr := p.complaint }

def written (p : Product) : Exit :=
  { code := p.code, stdout := p.reports, stderr := p.complaint }

def unwritable (p : Product) (path : String) (failure : Files.Failure) : Exit :=
  { code := 1
    stdout := p.reports
    stderr := p.complaint ++ s!"error: failed to write {path}: {failure.message}\n" }

end Product

def run (directory : Files.Directory) (arguments : List String) : Exit × Files.Directory :=
  match Options.parse arguments with
  | .error interruption => (interruption.exit, directory)
  | .ok options =>
    match directory.read options.input with
    | .error failure => (options.unreadable failure, directory)
    | .ok source =>
      let product := options.product source directory.read
      match product.text, options.output with
      | some text, some path =>
        match directory.write path text with
        | .ok directory => (product.written, directory)
        | .error failure => (product.unwritable path failure, directory)
      | _, _ => (product.shown, directory)

end PhaseLang.Command
