import PhaseLang.FunctionNames

/-!
# Captures

A PHP closure lists the variables that it takes from around it. They are found in two steps:
`Mention`s are the variables that a piece of code uses and binds, in order, and `free` keeps
the uses of what was not bound before.

A PHP function has one scope, so a binding holds for the rest of the closure, also past the
block it stands in. Named functions and classes see nothing of what is around them and are
not entered.
-/

namespace PhaseLang

inductive Mention where
  | use (name : String)
  | bind (name : String)
deriving DecidableEq, Repr

namespace Mention

/-- The variables bound so far, and the free ones in the order of first use. -/
structure Tally where
  bound : List String := []
  free : List String := []

namespace Tally

def add (t : Tally) : Mention → Tally
  | .bind name => { t with bound := name :: t.bound }
  | .use name =>
    if name = "this" ∨ name ∈ t.bound ∨ name ∈ t.free then t
    else { t with free := t.free ++ [name] }

end Tally

/-- The variables used before they are bound, in the order of first use. `this` is always
at hand. -/
def free (mentions : List Mention) : List String := (mentions.foldl Tally.add {}).free

end Mention

namespace Captures

mutual

def ofExpr (names : FunctionNames) : Expr → List Mention
  | ⟨id, _, .ident name⟩ => if names.contains id name then [] else [.use name]
  | ⟨_, _, kind⟩ => ofKind names kind

def ofKind (names : FunctionNames) : ExprKind → List Mention
  | .attribute _ args => ofArgs names args
  | .assign name value => ofExpr names value ++ [.use name]
  | .binary lhs _ rhs => ofExpr names lhs ++ ofExpr names rhs
  | .unary _ operand _ => ofExpr names operand
  | .isType operand _ => ofExpr names operand
  | .logical lhs _ rhs => ofExpr names lhs ++ ofExpr names rhs
  | .range lower upper => ofExpr names lower ++ ofExpr names upper
  | .call callee args => ofExpr names callee ++ ofArgs names args
  | .get target ⟨_, _, .ident _⟩ => ofExpr names target
  | .get target field => ofExpr names target ++ ofExpr names field
  | .set target ⟨_, _, .ident _⟩ value => ofExpr names target ++ ofExpr names value
  | .set target field value => ofExpr names target ++ ofExpr names field ++ ofExpr names value
  | .indexGet target index => ofExpr names target ++ ofOption names index
  | .indexSet target index value =>
    ofExpr names target ++ ofOption names index ++ ofExpr names value
  | .ternary cond yes no => ofExpr names cond ++ ofExpr names yes ++ ofExpr names no
  | .group inner => ofExpr names inner
  | .list items _ => ofExprs names items
  | .map entries _ => ofEntries names entries
  | .lambda f => (Mention.free (ofFunc names f)).map .use
  | .choose target cases => ofExpr names target ++ ofCases names cases
  | .super _ | .path _ | .this | .static | .literal _ | .ident _ => []

def ofOption (names : FunctionNames) : Option Expr → List Mention
  | none => []
  | some e => ofExpr names e

def ofExprs (names : FunctionNames) : List Expr → List Mention
  | [] => []
  | e :: es => ofExpr names e ++ ofExprs names es

def ofArgs (names : FunctionNames) : List Arg → List Mention
  | [] => []
  | ⟨_, e⟩ :: as => ofExpr names e ++ ofArgs names as

def ofEntries (names : FunctionNames) : List Entry → List Mention
  | [] => []
  | ⟨key, value⟩ :: es => ofExpr names key ++ ofExpr names value ++ ofEntries names es

def ofCases (names : FunctionNames) : List Case → List Mention
  | [] => []
  | ⟨condition, body⟩ :: cs => ofOption names condition ++ ofStmts names body ++ ofCases names cs

def ofStmt (names : FunctionNames) : Stmt → List Mention
  | ⟨_, .expr e⟩ => ofExpr names e
  | ⟨_, .raise e⟩ => ofExpr names e
  | ⟨_, .var name _ init⟩ => ofOption names init ++ [.bind name]
  | ⟨_, .global name⟩ => [.bind name]
  | ⟨_, .attempt body handlers⟩ => ofStmt names body ++ ofStmts names handlers
  | ⟨_, .handler name _ body⟩ => .bind name :: ofStmt names body
  | ⟨_, .loop cond body _⟩ => ofExpr names cond ++ ofStmt names body
  | ⟨_, .forIn key value target body⟩ =>
    ofExpr names target ++ .bind key :: value.toList.map .bind ++ ofStmt names body
  | ⟨_, .branch cond yes no⟩ => ofExpr names cond ++ ofStmt names yes ++ ofBody names no
  | ⟨_, .switch target cases⟩ => ofExpr names target ++ ofCases names cases
  | ⟨_, .block stmts⟩ => ofStmts names stmts
  | ⟨_, .ret value⟩ => ofOption names value
  | ⟨_, .func f⟩ => [.bind f.name]
  | ⟨_, .use _ _ _⟩ | ⟨_, .inNamespace _ _⟩ | ⟨_, .cls _⟩ => []

def ofStmts (names : FunctionNames) : List Stmt → List Mention
  | [] => []
  | s :: ss => ofStmt names s ++ ofStmts names ss

def ofBody (names : FunctionNames) : Option Stmt → List Mention
  | none => []
  | some s => ofStmt names s

def ofFunc (names : FunctionNames) : Func → List Mention
  | ⟨_, ps, body, _, _, _⟩ =>
    ps.map (fun p => .bind p.name) ++ ofDefaults names ps ++ ofBody names body

def ofDefaults (names : FunctionNames) : List Param → List Mention
  | [] => []
  | ⟨_, _, default, _, _⟩ :: ps => ofOption names default ++ ofDefaults names ps

end

end Captures

def capturesOf (names : FunctionNames) (f : Func) : List String :=
  Mention.free (Captures.ofFunc names f)

/-- What statements capture when they become a closure of their own. -/
def capturesIn (names : FunctionNames) (stmts : List Stmt) : List String :=
  Mention.free (Captures.ofStmts names stmts)

end PhaseLang
