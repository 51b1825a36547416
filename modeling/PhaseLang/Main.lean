import PhaseLang.Command

/-!
# Entry point

The command on the files of the machine. The files of other types are found by compiling
with the files read so far, until a compilation looks for no further file.
-/

open PhaseLang

def fileFailure : IO.Error → Files.Failure
  | .noFileOrDirectory .. => .notFound
  | .inappropriateType _ code _ => if code = 21 then .isDirectory else .notDirectory
  | error => .other (toString error)

def readFile (path : String) : IO (Except Files.Failure String) := do
  try return .ok (← IO.FS.readFile path)
  catch error => return .error (fileFailure error)

def writeFile (path text : String) : IO (Except Files.Failure Unit) := do
  try return .ok (← IO.FS.writeFile path text)
  catch error => return .error (fileFailure error)

/-- Files that were read, or could not be. -/
abbrev KnownFiles := List (String × Except Files.Failure String)

def KnownFiles.read (known : KnownFiles) : Files.Reader := fun path =>
  (List.lookup path known).getD (.error .notFound)

/-- Compiles until every file that is looked for is known. -/
partial def settle (options : Command.Options) (source : String) (known : KnownFiles) :
    IO Command.Product := do
  let product := options.product source known.read
  let wanted := product.consulted.eraseDups.filter fun path => (List.lookup path known).isNone
  if wanted.isEmpty then return product
  if options.verbose then IO.eprintln ("looking for " ++ ", ".intercalate wanted)
  let found ← wanted.mapM fun path => return (path, ← readFile path)
  settle options source (known ++ found)

def runOnDisk (arguments : List String) : IO Command.Exit := do
  match Command.Options.parse arguments with
  | .error interruption => return interruption.exit
  | .ok options =>
    if options.verbose then IO.eprintln s!"reading {options.input}"
    match ← readFile options.input with
    | .error failure => return options.unreadable failure
    | .ok source =>
      let product ← settle options source []
      match product.text, options.output with
      | some text, some path =>
        match ← writeFile path text with
        | .ok () => return product.written
        | .error failure => return product.unwritable path failure
      | _, _ => return product.shown

def main (arguments : List String) : IO UInt32 := do
  let exit ← runOnDisk arguments
  IO.print exit.stdout
  IO.eprint exit.stderr
  return exit.code.toUInt32
