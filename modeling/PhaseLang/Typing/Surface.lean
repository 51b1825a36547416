import PhaseLang.Typing.Scopes

/-!
# Surfaces

The surface of a program is what other files can see of it: its classes and functions,
also those inside namespaces, by qualified name. Bodies are not looked into.
-/

namespace PhaseLang

structure Declaration where
  ns : List String
  name : String
  type : Ty

namespace Declaration

def qualifiedName (d : Declaration) : String := ((TypePath.ofName d.name).qualify d.ns).qualifiedName

mutual

def ofStmt (ns : List String) : Stmt → List Declaration
  | ⟨_, .inNamespace path decls⟩ => ofStmts path.segments decls
  | ⟨_, .cls c⟩ => [⟨ns, c.name, .classOf c⟩]
  | ⟨_, .func f⟩ => [⟨ns, f.name, .func f⟩]
  | _ => []

def ofStmts (ns : List String) : List Stmt → List Declaration
  | [] => []
  | s :: ss => ofStmt ns s ++ ofStmts ns ss

end

end Declaration

/-- Types by qualified name, without a leading `::`. -/
abbrev Surface := Bindings Ty

namespace Surface

/-- The surface of a program. A later declaration of a name replaces an earlier one. -/
def ofProgram (program : List Stmt) : Surface :=
  Bindings.insertAll [] ((Declaration.ofStmts [] program).map fun d => (d.qualifiedName, d.type))

/-- The declaration that a name asks for: the one of that name, or else the first one that
ends in the same segment. -/
def declared? (surface : Surface) (name : String) : Option Ty :=
  match surface.get? name with
  | some type => some type
  | none =>
    (List.find? (fun entry => QualifiedName.last entry.1 == QualifiedName.last name) surface).map
      (·.2)

end Surface

end PhaseLang
