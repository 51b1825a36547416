import PhaseLang.Grammar.Synthesis

/-!
# Function bodies

Changes to the bodies of a program's functions: of its functions and methods, and of the
lambdas that its variables start with, at the top level and in its namespaces.
-/

namespace PhaseLang

namespace Func

/-- Takes synthesized statements out of the body. -/
def withoutSynthesized (f : Func) : Func :=
  match f.body with
  | some ⟨pos, .block stmts⟩ =>
    { f with body := some ⟨pos, .block (stmts.filter (·.pos.file ≠ Synthesis.file))⟩ }
  | _ => f

/-- Takes the block away from around a single statement. -/
def unwrapped (f : Func) : Func :=
  match f.body with
  | some ⟨_, .block [s]⟩ => { f with body := some s }
  | _ => f

def bodiless (f : Func) : Func := { f with body := none }

end Func

namespace Member

def mapMethod (change : Func → Func) (m : Member) : Member :=
  match m.kind with
  | .method f => { m with kind := .method (change f) }
  | _ => m

end Member

namespace Stmt

/-- Changes the functions that a statement declares. -/
def mapFunctions (change : Func → Func) (s : Stmt) : Stmt :=
  match s.kind with
  | .func f => { s with kind := .func (change f) }
  | .var name type (some ⟨id, pos, .lambda f⟩) =>
    { s with kind := .var name type (some ⟨id, pos, .lambda (change f)⟩) }
  | .cls c => { s with kind := .cls { c with members := c.members.map (·.mapMethod change) } }
  | _ => s

end Stmt

def mapFunctions (change : Func → Func) (program : List Stmt) : List Stmt :=
  program.map fun s =>
    match s.kind with
    | .inNamespace path decls =>
      { s with kind := .inNamespace path (decls.map (·.mapFunctions change)) }
    | _ => s.mapFunctions change

end PhaseLang
