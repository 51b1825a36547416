import PhaseLang.Grammar.Program

/-!
# Snippets

Source text that stands in for a place in another file: it is read like any other text,
but a violation is reported at that place. Diagnostics of the scanner keep their position
in the snippet.
-/

namespace PhaseLang.Snippet

/-- What reading a snippet gives, and everything that was reported. -/
structure Outcome (α : Type) where
  result : Except SyntaxError α
  diagnostics : List Diagnostic

variable {α : Type}

/-- Reads a snippet at a place; `select` takes what is asked for from its statements. -/
def read (code : String) (place : Position)
    (select : List Stmt → Except SyntaxProblem α) : Outcome α :=
  let scan := scan code Synthesis.file
  let result : Except SyntaxProblem α := match parse scan.tokens 0 with
    | .error e => .error e.problem
    | .ok (program, _) => select program
  match result with
  | .ok a => ⟨.ok a, scan.diagnostics⟩
  | .error problem =>
    let e : SyntaxError := ⟨place, problem⟩
    ⟨.error e, scan.diagnostics ++ [e.diagnostic]⟩

def single : List Stmt → Except SyntaxProblem Stmt
  | [s] => .ok s
  | program => .error (.statementCount program.length)

def singleExpr (program : List Stmt) : Except SyntaxProblem Expr := do
  match (← single program).kind with
  | .expr e => .ok e
  | _ => .error (.expected "an expression")

def statements (code : String) (place : Position) : Outcome (List Stmt) := read code place .ok

def statement (code : String) (place : Position) : Outcome Stmt := read code place single

def expression (code : String) (place : Position) : Outcome Expr := read code place singleExpr

end PhaseLang.Snippet
