import PhaseLang.Files.Directory
import PhaseLang.Grammar.Program
import PhaseLang.Typing.Surface

/-!
# Loaders

A loader looks for the declaration of a qualified name, unless it is told otherwise in the
file that the name leads to: `A::B` is declared in `A/B.phs` under the loader's root.
-/

namespace PhaseLang

inductive LoadError where
  | unreadable (path : String) (failure : Files.Failure)
  | malformed (path : String) (error : SyntaxError)

namespace LoadError

def text : LoadError → String
  | unreadable path failure => s!"failed to read {path}: {failure.message}"
  | malformed path _ => s!"failed to parse {path}"

end LoadError

/-- What looking for a declaration gives: the declaration if there is one, the next unused
expression id, and everything that was reported. -/
structure Loading where
  result : Except LoadError (Option Ty)
  nextId : Nat
  diagnostics : List Diagnostic

namespace Loading

/-- Looks for the declaration of a name in one file. A file that is not there declares
nothing. -/
def ofFile (read : Files.Reader) (path name : String) (nextId : Nat) : Loading :=
  match read path with
  | .error .notFound => ⟨.ok none, nextId, []⟩
  | .error failure => ⟨.error (.unreadable path failure), nextId, []⟩
  | .ok source =>
    let reading := readSource source path nextId
    match reading.result with
    | .error e => ⟨.error (.malformed path e), nextId, reading.diagnostics⟩
    | .ok (program, nextId) =>
      ⟨.ok ((Surface.ofProgram program).declared? (QualifiedName.key name)), nextId,
        reading.diagnostics⟩

end Loading

def Files.Path.ofName (root extension name : String) : String :=
  Files.Path.withExtension ((QualifiedName.segments name).foldl Files.Path.push root) extension

structure Loader where
  root : String
  extension : String := "phs"
  read : Files.Reader
  /-- What looking for a name gives, when the next unused expression id is known. -/
  load : String → Nat → Loading := fun name =>
    Loading.ofFile read (Files.Path.ofName root extension name) name

namespace Loader

def pathOf (loader : Loader) (name : String) : String :=
  Files.Path.ofName loader.root loader.extension name

end Loader

end PhaseLang
