import PhaseLang.Php.Name
import PhaseLang.Typing.Type

/-!
# Function names

PHP writes variables with a dollar and functions without one. A plain name stands for a
function if it was declared as one under that name, or imported as one.
-/

namespace PhaseLang

namespace UseTarget

def function? : UseTarget → Option String
  | func name => some name
  | type _ => none

end UseTarget

def UseKind.functions (path : TypePath) : UseKind → List String
  | .plain => if Php.startsLower path.name then [path.name] else []
  | .alias target => target.function?.toList
  | .group targets => targets.filterMap (·.function?)

mutual

/-- The functions that a statement imports, also inside a namespace. -/
def Stmt.importedFunctions : Stmt → List String
  | ⟨_, .inNamespace _ decls⟩ => PhaseLang.importedFunctions decls
  | ⟨_, .use path kind _⟩ => kind.functions path
  | _ => []

def importedFunctions : List Stmt → List String
  | [] => []
  | s :: ss => s.importedFunctions ++ importedFunctions ss

end

structure FunctionNames where
  types : TypeTable
  imported : List String

namespace FunctionNames

def contains (names : FunctionNames) (id : Nat) (name : String) : Bool :=
  match names.types.get? id with
  | some (.func f) => f.name == name
  | some (.unknown (some _)) => names.imported.contains name
  | _ => false

end FunctionNames

end PhaseLang
