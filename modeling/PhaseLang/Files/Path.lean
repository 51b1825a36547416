/-!
# File paths

Paths as text, with `/` between their parts. Empty parts and `.` parts say nothing, except
for a `.` in front; `..` has no name of its own.
-/

namespace PhaseLang.Files.Path

/-- Appends a part. A part that starts at the root replaces the path. -/
def push (path part : String) : String :=
  if part.startsWith "/" then part
  else if path.isEmpty || path.endsWith "/" then path ++ part
  else path ++ "/" ++ part

/-- A path read backwards, without the separators and `.` parts at its end. -/
def trimBack : List Char → List Char
  | '/' :: cs => trimBack cs
  | '.' :: '/' :: cs => trimBack cs
  | cs => cs

/-- The last part of a path and what stands before it, both read backwards. -/
def lastPart (path : String) : List Char × List Char :=
  let back := trimBack path.toList.reverse
  (back.takeWhile (· ≠ '/'), back.dropWhile (· ≠ '/'))

/-- The name before its last point, both read backwards. A point in front starts no
extension. -/
def stem (name : List Char) : List Char :=
  match name.dropWhile (· ≠ '.') with
  | [] => name
  | ['.'] => name
  | _ :: before => before

/-- Replaces what follows the last point of the last part; an empty extension takes the
point away too. A path without a last name stays as it is. -/
def withExtension (path extension : String) : String :=
  let (name, before) := lastPart path
  if name = [] ∨ name = ['.'] ∨ name = ['.', '.'] then path
  else
    String.ofList ((stem name ++ before).reverse) ++
      if extension.isEmpty then "" else "." ++ extension

def parent? (path : String) : Option String :=
  let (name, before) := lastPart path
  if name = [] then none
  else match trimBack before with
    | [] => some (if path.startsWith "/" then "/" else "")
    | back => some (String.ofList back.reverse)

def names (path : String) : List String :=
  (path.splitOn "/").filter fun part => part ≠ "" ∧ part ≠ "."

end PhaseLang.Files.Path
