import PhaseLang.Files.Path

/-!
# Directories

A directory as the list of what it holds. Reading and writing can fail the way they fail
on disk; the failures say why.
-/

namespace PhaseLang.Files

inductive Failure where
  | notFound
  | notDirectory
  | isDirectory
  | invalidName
  | other (text : String)
deriving DecidableEq, Repr

namespace Failure

def message : Failure → String
  | notFound => "No such file or directory (os error 2)"
  | notDirectory => "Not a directory (os error 20)"
  | isDirectory => "Is a directory (os error 21)"
  | invalidName => "file name contained an unexpected NUL byte"
  | other text => text

end Failure

abbrev Reader := String → Except Failure String

/-- The files of a directory by relative path; a path without content is a directory. -/
structure Directory where
  entries : List (String × Option String) := []
deriving Repr, Inhabited

namespace Directory

def content? (d : Directory) (place : List String) : Option (Option String) :=
  (d.entries.find? fun entry => Path.names entry.1 = place).map (·.2)

/-- Whether a place is a directory: it is listed as one, or something lies under it. -/
def isDirectory (d : Directory) (place : List String) : Bool :=
  place.isEmpty || d.content? place = some none ||
    d.entries.any fun entry =>
      let full := Path.names entry.1
      place.isPrefixOf full && place.length < full.length

/-- Follows the parts of a path. All but the last part must lead through directories, and no
path leads out of the whole directory. -/
def follow (d : Directory) (place : List String) : List String → Except Failure (List String)
  | [] => .ok place
  | part :: parts =>
    if !d.isDirectory place then
      .error (if (d.content? place).isSome then .notDirectory else .notFound)
    else if part = "" ∨ part = "." then d.follow place parts
    else if part ≠ ".." then d.follow (place ++ [part]) parts
    else if place.isEmpty then .error .notFound
    else d.follow place.dropLast parts

/-- The place that a path leads to. Paths from the root lie outside the directory. -/
def locate (d : Directory) (path : String) : Except Failure (List String) :=
  if path.toList.contains '\x00' then .error .invalidName
  else if path.isEmpty || path.startsWith "/" then .error .notFound
  else d.follow [] (path.splitOn "/")

def read (d : Directory) : Reader := fun path => do
  let place ← d.locate path
  match d.content? place with
  | some (some text) => .ok text
  | _ => .error (if d.isDirectory place then .isDirectory else .notFound)

def write (d : Directory) (path text : String) : Except Failure Directory := do
  let place ← d.locate path
  if d.isDirectory place then .error .isDirectory
  else
    let others := d.entries.filter fun entry => Path.names entry.1 ≠ place
    .ok ⟨others ++ [("/".intercalate place, some text)]⟩

end Directory

end PhaseLang.Files
