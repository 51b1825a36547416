import PhaseLang.Diagnostic

/-!
# Diagnostics beside the line they point at

`Diagnostic.excerpt` quotes the line on which a diagnostic starts and underlines the
part of its span that lies on that line. Any position can be shown: one beyond the end
points at the end, and one inside a character points at that character.
-/

namespace PhaseLang

/-- Where a span starts in a source, seen as lines. -/
structure Excerpt where
  /-- Counted from one. -/
  lineNumber : Nat
  /-- The characters of the line before the span. -/
  before : List Char
  /-- The characters of the line from the start of the span on. -/
  after : List Char
  /-- How many characters of the line the span covers. -/
  covered : Nat

namespace Excerpt

def of (source : List Char) (pos : Position) : Excerpt :=
  let (before, after) := Text.splitAtByte pos.start source
  let after := after.takeWhile (· ≠ '\n')
  { lineNumber := before.count '\n' + 1
    before := Text.lastLine before
    after
    covered := (Text.splitAtByte (pos.stop - Text.byteLength before) after).1.length }

def line (e : Excerpt) : String := String.ofList (Text.trimEnd (e.before ++ e.after))

def underline (e : Excerpt) : String :=
  Text.fill e.before.length ' ' ++ Text.fill (max 1 e.covered) '^'

/-- The lines under the message: place, empty gutter, quoted line, underline. -/
def render (e : Excerpt) (file : String) : String :=
  let number := toString e.lineNumber
  let width := max 2 number.length
  let gutter := Text.fill width ' ' ++ " |"
  s!"--> {file}:{number}:{e.before.length + 1}\n{gutter}\n" ++
    s!"{Text.alignRight width number} | {e.line}\n{gutter} {e.underline}"

end Excerpt

namespace Diagnostic

def excerpt (d : Diagnostic) (source : Option String) : String :=
  s!"error: {d.message}\n" ++
    match source with
    | none => s!"--> {d.pos.text}"
    | some text => (Excerpt.of text.toList d.pos).render d.pos.file

end Diagnostic

end PhaseLang
