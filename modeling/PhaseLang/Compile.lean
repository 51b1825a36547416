import PhaseLang.Php.Lowering
import PhaseLang.Php.Printer
import PhaseLang.Typing.Program

/-!
# Compilation

From source text to PHP text. Only a violation of the grammar stops a compilation, and then
the context stays as it was; anything else that is reported leaves the PHP usable.
-/

namespace PhaseLang

def defaultVersion : Nat := 8

structure Generated where
  php : String
  context : Context
  diagnostics : List Diagnostic

/-- Writes a typed program as PHP. Attributes and the types of properties and results need
version 8. -/
def generate (program : List Stmt) (types : TypeTable) (context : Context) (version : Nat) :
    Generated :=
  let scene : Php.Scene :=
    { typed := decide (8 ≤ version)
      names := { types, imported := importedFunctions program } }
  let (php, progress) := (Php.Lower.stmts scene program).run { context }
  ⟨Php.Printer.program php, progress.context, progress.diagnostics⟩

inductive CompileOutcome where
  | ok (php : String)
  /-- Something was reported, `count` times. -/
  | reported (count : Nat) (php : String)
  | violation (error : SyntaxError)

namespace CompileOutcome

def php? : CompileOutcome → Option String
  | ok php => some php
  | reported _ php => some php
  | violation _ => none

def failure? : CompileOutcome → Option String
  | ok _ => none
  | reported count _ => some s!"compilation failed with {count} reported error(s)"
  | violation error => some error.text

end CompileOutcome

structure Compilation where
  outcome : CompileOutcome
  context : Context
  diagnostics : List Diagnostic

def compile (source file : String) (version : Nat) (context : Context) : Compilation :=
  let reading := readSource source file context.nextId
  match reading.result with
  | .error e => ⟨.violation e, context, reading.diagnostics⟩
  | .ok (program, nextId) =>
    let typed := typeProgram program { context with nextId }
    let generated := generate program typed.table typed.context version
    let diagnostics := reading.diagnostics ++ typed.diagnostics ++ generated.diagnostics
    let outcome :=
      if diagnostics.isEmpty then .ok generated.php
      else .reported diagnostics.length generated.php
    ⟨outcome, generated.context, diagnostics⟩

end PhaseLang
