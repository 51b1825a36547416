import PhaseLang.Grammar.Declaration
import PhaseLang.Token.Scanner

/-!
# Programs

The rules of the grammar, closed over themselves. `Rules.upTo n` are the rules for rows of
fewer than `n` tokens: a rule calls another only after reading a token, so those rules never
run out.
-/

namespace PhaseLang

namespace Rules

/-- The rules whose recursive calls go to the given rules. -/
def next (r : Rules) : Rules where
  typePath := Grammar.typePath r
  expression := Grammar.expression r
  unary := Grammar.unary r
  statement := Grammar.statement r
  declaration := Grammar.declaration r

def upTo : Nat → Rules
  | 0 => exhausted
  | n + 1 => (upTo n).next

end Rules

namespace Grammar

open PhaseLang.Parser

def program (r : Rules) : Parser (List Stmt) := do
  newlines
  itemsUntil (fun _ => false) r.declaration

end Grammar

abbrev Parsed := Except SyntaxError (List Stmt × Nat)

def parse (tokens : List Token) (nextId : Nat) : Parsed :=
  match Cursor.ofTokens? tokens nextId with
  | none => .ok ([], nextId)
  | some cursor =>
    match (Grammar.program (.upTo (cursor.rest.length + 1))).run cursor with
    | .ok (program, cursor) => .ok (program, cursor.nextId)
    | .error e => .error e

/-- What reading a source text gives: its statements or the violation, and everything that
was reported. -/
structure Reading where
  result : Parsed
  diagnostics : List Diagnostic

/-- Scans and parses a source text. A violation is reported last. -/
def readSource (source file : String) (nextId : Nat) : Reading :=
  let scan := scan source file
  match parse scan.tokens nextId with
  | .ok parsed => ⟨.ok parsed, scan.diagnostics⟩
  | .error e => ⟨.error e, scan.diagnostics ++ [e.diagnostic]⟩

end PhaseLang
