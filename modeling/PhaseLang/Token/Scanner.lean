import PhaseLang.Diagnostic
import PhaseLang.Token

/-!
# Scanning

Source text becomes tokens and diagnostics. Scanning is a loop over steps: `lex` reads
one lexeme from the front of the text, and each step takes at least one character. The
only memory between steps is the stack of `Hole`s, the interpolations still open: a `}`
outside all braces of the innermost hole resumes the string that the hole interrupted.

A problem never stops the scan. The token list always ends with one `eof`.
-/

namespace PhaseLang

inductive ScanProblem where
  | unexpectedCharacter (c : Char)
  | unterminatedString
  | interpolationTooDeep
deriving DecidableEq, Repr

namespace Scanner

/-- Interpolations may nest this deep. -/
def maxDepth : Nat := 6

end Scanner

namespace ScanProblem

def message : ScanProblem → String
  | unexpectedCharacter c => s!"Unexpected character: {c}"
  | unterminatedString => "Unterminated string"
  | interpolationTooDeep => s!"Interpolation too deep: only {Scanner.maxDepth} levels allowed"

end ScanProblem

namespace Scanner

/-- An open interpolation: the quote of the string around it, and how many braces are
open inside it. -/
structure Hole where
  quote : Char
  braces : Nat
deriving DecidableEq, Repr

/-- The result of one step: `lexeme ++ gap ++ rest` is the text that it was given. A step
that yields no token has skipped its lexeme. -/
structure Step where
  kind : Option TokenKind
  lexeme : List Char
  literal : Option (List Char) := none
  problem : Option ScanProblem := none
  gap : List Char := []
  rest : List Char
  holes : List Hole
deriving Repr

/-! ## Lexical classes -/

def isDigit (c : Char) : Bool := '0' ≤ c && c ≤ '9'

def isUpper (c : Char) : Bool := 'A' ≤ c && c ≤ 'Z'

def isLower (c : Char) : Bool := 'a' ≤ c && c ≤ 'z'

def isWordStart (c : Char) : Bool := isUpper c || isLower c || c == '_'

def isWordPart (c : Char) : Bool := isWordStart c || isDigit c

def isSpace (c : Char) : Bool := c == ' ' || c == '\r' || c == '\t'

def isQuote (c : Char) : Bool := c == '\x22' || c == '\x27'

/-- A comment runs up to a line break, a NUL character or the end. -/
def endsComment (c : Char) : Bool := c == '\n' || c == '\x00'

def symbolTable : List (List Char × TokenKind) :=
  TokenKind.symbols.map fun kind => (kind.text.toList, kind)

def symbol? (cs : List Char) : Option (List Char × TokenKind) :=
  symbolTable.find? fun entry => entry.1.isPrefixOf cs

def wordKind (word : List Char) (next : Option Char) : TokenKind :=
  if word.head?.any isUpper then .typeIdentifier
  else match TokenKind.keyword? (String.ofList word) with
    | some kind => kind
    | none => if next.any isQuote then .templateTag else .identifier

/-- How long a number is: digits, and a fraction only if a digit follows the point. -/
def numberLength (cs : List Char) : Nat :=
  let whole := cs.takeWhile isDigit
  match cs.drop whole.length with
  | '.' :: d :: more =>
    if isDigit d then whole.length + 2 + (more.takeWhile isDigit).length else whole.length
  | _ => whole.length

/-- How long the blank and comment lines at the front are. -/
def blankLength : (inComment : Bool) → List Char → Nat
  | _, [] => 0
  | true, c :: cs =>
    if c == '\n' then 1 + blankLength false cs
    else if endsComment c then 0
    else 1 + blankLength true cs
  | false, '/' :: '/' :: cs => 2 + blankLength true cs
  | false, c :: cs => if c == '\n' || isSpace c then 1 + blankLength false cs else 0

/-! ## Strings -/

inductive FragmentEnd where
  | quote | hole | missing
deriving DecidableEq, Repr

/-- How long the content of a fragment is, and what ends it. A backslash takes the next
character with it. -/
def fragmentLength (quote : Char) : List Char → Nat × FragmentEnd
  | [] => (0, .missing)
  | ['\\'] => (1, .missing)
  | '\\' :: _ :: cs => let (n, e) := fragmentLength quote cs; (n + 2, e)
  | '$' :: '\x7b' :: _ => (0, .hole)
  | c :: cs =>
    if c == quote then (0, .quote)
    else let (n, e) := fragmentLength quote cs; (n + 1, e)

/-- Reads a string fragment after its opening character, which is the quote itself or the
brace that closes a hole. -/
def fragment (quote opening : Char) (cs : List Char) (holes : List Hole) : Step :=
  let (n, e) := fragmentLength quote cs
  let content := cs.take n
  match e with
  | .quote =>
    { kind := some .string, lexeme := opening :: content ++ [quote], literal := some content,
      rest := cs.drop (n + 1), holes }
  | .hole =>
    { kind := some .interpolation, lexeme := opening :: content ++ ['$', '\x7b'],
      literal := some content,
      problem := if maxDepth < holes.length + 1 then some .interpolationTooDeep else none,
      rest := cs.drop (n + 2), holes := ⟨quote, 0⟩ :: holes }
  | .missing =>
    { kind := none, lexeme := opening :: content, problem := some .unterminatedString,
      rest := cs.drop n, holes }

/-! ## Steps -/

/-- The stack of holes after a token: braces are counted in the innermost hole. -/
def countBrace (kind : TokenKind) : List Hole → List Hole
  | [] => []
  | h :: hs =>
    match kind with
    | .leftBrace => { h with braces := h.braces + 1 } :: hs
    | .rightBrace => { h with braces := h.braces - 1 } :: hs
    | _ => h :: hs

/-- A step over the first `n` characters of the text that yields a token. -/
def take (kind : TokenKind) (n : Nat) (cs : List Char) (holes : List Hole) : Step :=
  { kind := some kind, lexeme := cs.take n, rest := cs.drop n, holes := countBrace kind holes }

def skip (n : Nat) (cs : List Char) (holes : List Hole) : Step :=
  { kind := none, lexeme := cs.take n, rest := cs.drop n, holes }

def lexCode (c : Char) (cs : List Char) (holes : List Hole) : Step :=
  if isSpace c then skip 1 (c :: cs) holes
  else if c == '\n' then
    let n := blankLength false cs
    { kind := some .newline, lexeme := ['\n'], gap := cs.take n, rest := cs.drop n, holes }
  else if c == '/' && cs.head? == some '/' then
    skip (1 + (cs.takeWhile (!endsComment ·)).length) (c :: cs) holes
  else if isDigit c then
    let n := numberLength (c :: cs)
    { take .number n (c :: cs) holes with literal := some ((c :: cs).take n) }
  else if isWordStart c then
    let word := (c :: cs).takeWhile isWordPart
    let rest := (c :: cs).drop word.length
    take (wordKind word rest.head?) word.length (c :: cs) holes
  else match symbol? (c :: cs) with
    | some (text, kind) => take kind text.length (c :: cs) holes
    | none => { skip 1 (c :: cs) holes with problem := some (.unexpectedCharacter c) }

def lex (holes : List Hole) (c : Char) (cs : List Char) : Step :=
  if isQuote c then fragment c c cs holes
  else match holes with
    | ⟨quote, 0⟩ :: outer =>
      if c == '\x7d' then fragment quote c cs outer else lexCode c cs holes
    | _ => lexCode c cs holes

end Scanner

/-! ## Whole texts -/

structure Scan where
  tokens : List Token
  diagnostics : List Diagnostic
deriving Repr

namespace Scanner

def Step.token? (s : Step) (file : String) (lo : Nat) : Option Token :=
  s.kind.map fun kind =>
    { kind, lexeme := String.ofList s.lexeme, literal := s.literal.map String.ofList,
      pos := ⟨lo, lo + Text.byteLength s.lexeme, file⟩ }

def Step.diagnostic? (s : Step) (file : String) (lo : Nat) : Option Diagnostic :=
  s.problem.map fun p => ⟨⟨lo, lo + Text.byteLength s.lexeme, file⟩, p.message⟩

/-- The end of the text at byte `lo`, when the last step started at byte `mark`: every hole
still open belongs to a string that never ends. -/
def finish (file : String) (mark lo : Nat) (holes : List Hole) : Scan :=
  { tokens := [⟨.eof, "", none, ⟨lo, lo, file⟩⟩]
    diagnostics := holes.map fun _ => ⟨⟨mark, lo, file⟩, ScanProblem.unterminatedString.message⟩ }

/-- Scans the rest of a text from byte `lo` on, in at most as many steps as given. -/
def scanFrom (file : String) : Nat → (mark lo : Nat) → List Hole → List Char → Scan
  | steps + 1, _, lo, holes, c :: cs =>
    let s := lex holes c cs
    let next := lo + Text.byteLength s.lexeme + Text.byteLength s.gap
    let tail := scanFrom file steps lo next s.holes s.rest
    { tokens := (s.token? file lo).toList ++ tail.tokens
      diagnostics := (s.diagnostic? file lo).toList ++ tail.diagnostics }
  | _, mark, lo, holes, _ => finish file mark lo holes

end Scanner

/-- Scans a source text. Every step takes a character, so the text's length bounds them. -/
def scan (source file : String) : Scan :=
  let cs := source.toList
  Scanner.scanFrom file cs.length 0 0 [] cs

end PhaseLang
