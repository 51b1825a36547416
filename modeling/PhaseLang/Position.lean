import PhaseLang.Text

/-!
# Positions

A position is a span of bytes in a named file. Positions built by the scanner run
forwards; `of?` and `merge?` are the checked ways to build one from outside data.
-/

namespace PhaseLang

/-- The bytes from `start` up to, but not including, `stop` of `file`. -/
structure Position where
  start : Nat
  stop : Nat
  file : String
deriving DecidableEq, Repr, Inhabited

namespace Position

/-- A span that does not run backwards. -/
def of? (start stop : Nat) (file : String) : Option Position :=
  if start ≤ stop then some ⟨start, stop, file⟩ else none

/-- Spans from the start of `a` to the end of `b`, and never ends before it starts. -/
def merge (a b : Position) : Position := ⟨a.start, max b.stop a.start, a.file⟩

/-- `merge`, for two positions of one file only. -/
def merge? (a b : Position) : Option Position :=
  if a.file = b.file then some (a.merge b) else none

def length (p : Position) : Nat := p.stop - p.start

def isEmpty (p : Position) : Bool := p.start == p.stop

def slice? (p : Position) (source : String) : Option String :=
  (Text.slice? p.start p.stop source.toList).map String.ofList

def text (p : Position) : String := s!"{p.file}:{p.start}..{p.stop}"

/-- The span with its type, for listings. -/
def label (p : Position) : String := s!"Position({p.text})"

end Position

end PhaseLang
