import PhaseLang.Position

/-!
# Tokens

The kinds of token of the language and the tokens that the scanner makes. A symbol
or keyword is always written the same way; `TokenKind.text` is that spelling, and a
bracketed description for the kinds whose spelling varies.
-/

namespace PhaseLang

inductive TokenKind where
  | atSign | hash | dollar
  | leftParen | rightParen | leftBrace | rightBrace | leftBracket | rightBracket
  | bar | comma | dot | minus | minusMinus | plus | plusPlus | plusEqual | concat
  | colon | semicolon | newline | slash | star | amp | question | andAnd | orOr | colonColon
  | bang | bangEqual | equal | equalEqual | greater | greaterEqual | less | lessEqual
  | range | pipe | arrow
  | classKw | interfaceKw | traitKw | enumKw | namespaceKw | extendsKw | implementsKw
  | staticKw | privateKw | publicKw | abstractKw | constKw | falseKw | trueKw | elseKw
  | functionKw | forKw | ifKw | nullKw | returnKw | superKw | thisKw | varKw | globalKw
  | doKw | whileKw | useKw | asKw | inKw | isKw | throwKw | tryKw | catchKw | switchKw
  | matchKw | caseKw | defaultKw
  | identifier | typeIdentifier | templateTag | string | number | interpolation
  | eof
deriving DecidableEq, Repr, Inhabited

namespace TokenKind

/-- The symbols, longer spellings before their beginnings. -/
def symbols : List TokenKind :=
  [concat, range, minusMinus, arrow, plusPlus, plusEqual, andAnd, orOr, pipe, colonColon,
   bangEqual, equalEqual, lessEqual, greaterEqual,
   atSign, hash, dollar, leftParen, rightParen, leftBrace, rightBrace, leftBracket, rightBracket,
   bar, comma, dot, minus, plus, colon, semicolon, slash, star, amp, question,
   bang, equal, greater, less]

def keywords : List TokenKind :=
  [classKw, interfaceKw, traitKw, enumKw, namespaceKw, extendsKw, implementsKw, staticKw,
   privateKw, publicKw, abstractKw, constKw, falseKw, trueKw, elseKw, functionKw, forKw, ifKw,
   nullKw, returnKw, superKw, thisKw, varKw, globalKw, doKw, whileKw, useKw, asKw, inKw, isKw,
   throwKw, tryKw, catchKw, switchKw, matchKw, caseKw, defaultKw]

def classes : List TokenKind :=
  [newline, identifier, typeIdentifier, templateTag, string, number, interpolation, eof]

def all : List TokenKind := symbols ++ keywords ++ classes

/-- The spelling of a symbol or keyword, or a description of the kind. -/
def text : TokenKind → String
  | atSign => "@" | hash => "#" | dollar => "$"
  | leftParen => "(" | rightParen => ")" | leftBrace => "\x7b" | rightBrace => "\x7d"
  | leftBracket => "[" | rightBracket => "]"
  | bar => "|" | comma => "," | dot => "." | minus => "-" | minusMinus => "--"
  | plus => "+" | plusPlus => "++" | plusEqual => "+=" | concat => "+++"
  | colon => ":" | semicolon => ";" | newline => "[newline]" | slash => "/" | star => "*"
  | amp => "&" | question => "?" | andAnd => "&&" | orOr => "||" | colonColon => "::"
  | bang => "!" | bangEqual => "!=" | equal => "=" | equalEqual => "=="
  | greater => ">" | greaterEqual => ">=" | less => "<" | lessEqual => "<="
  | range => "..." | pipe => "|>" | arrow => "->"
  | classKw => "class" | interfaceKw => "interface" | traitKw => "trait" | enumKw => "enum"
  | namespaceKw => "namespace" | extendsKw => "extends" | implementsKw => "implements"
  | staticKw => "static" | privateKw => "private" | publicKw => "public"
  | abstractKw => "abstract" | constKw => "const" | falseKw => "false" | trueKw => "true"
  | elseKw => "else" | functionKw => "function" | forKw => "for" | ifKw => "if"
  | nullKw => "null" | returnKw => "return" | superKw => "super" | thisKw => "this"
  | varKw => "var" | globalKw => "global" | doKw => "do" | whileKw => "while" | useKw => "use"
  | asKw => "as" | inKw => "in" | isKw => "is" | throwKw => "throw" | tryKw => "try"
  | catchKw => "catch" | switchKw => "switch" | matchKw => "match" | caseKw => "case"
  | defaultKw => "default"
  | identifier => "[identifier]" | typeIdentifier => "[type-identifier]"
  | templateTag => "[template]" | string => "[string]" | number => "[number]"
  | interpolation => "[interpolation]" | eof => "[eof]"

def name : TokenKind → String
  | atSign => "At" | hash => "Hash" | dollar => "Dollar"
  | leftParen => "LeftParen" | rightParen => "RightParen" | leftBrace => "LeftBrace"
  | rightBrace => "RightBrace" | leftBracket => "LeftBracket" | rightBracket => "RightBracket"
  | bar => "Bar" | comma => "Comma" | dot => "Dot" | minus => "Minus" | minusMinus => "MinusMinus"
  | plus => "Plus" | plusPlus => "PlusPlus" | plusEqual => "PlusEqual" | concat => "Concat"
  | colon => "Colon" | semicolon => "Semicolon" | newline => "Newline" | slash => "Slash"
  | star => "Star" | amp => "Amp" | question => "Question" | andAnd => "AndAnd" | orOr => "OrOr"
  | colonColon => "ColonColon" | bang => "Bang" | bangEqual => "BangEqual" | equal => "Equal"
  | equalEqual => "EqualEqual" | greater => "Greater" | greaterEqual => "GreaterEqual"
  | less => "Less" | lessEqual => "LessEqual" | range => "Range" | pipe => "Pipe"
  | arrow => "Arrow"
  | classKw => "Class" | interfaceKw => "Interface" | traitKw => "Trait" | enumKw => "Enum"
  | namespaceKw => "Namespace" | extendsKw => "Extends" | implementsKw => "Implements"
  | staticKw => "Static" | privateKw => "Private" | publicKw => "Public"
  | abstractKw => "Abstract" | constKw => "Const" | falseKw => "False" | trueKw => "True"
  | elseKw => "Else" | functionKw => "Function" | forKw => "For" | ifKw => "If"
  | nullKw => "Null" | returnKw => "Return" | superKw => "Super" | thisKw => "This"
  | varKw => "Var" | globalKw => "Global" | doKw => "Do" | whileKw => "While" | useKw => "Use"
  | asKw => "As" | inKw => "In" | isKw => "Is" | throwKw => "Throw" | tryKw => "Try"
  | catchKw => "Catch" | switchKw => "Switch" | matchKw => "Match" | caseKw => "Case"
  | defaultKw => "Default"
  | identifier => "Identifier" | typeIdentifier => "TypeIdentifier"
  | templateTag => "TemplateTag" | string => "String" | number => "Number"
  | interpolation => "Interpolation" | eof => "Eof"

/-- Whether a line that starts with this kind continues the expression before it. -/
def isContinuation : TokenKind → Bool
  | dot | plus | concat | pipe | minus | equalEqual | bangEqual | andAnd | orOr => true
  | _ => false

def keyword? (word : String) : Option TokenKind := keywords.find? (·.text == word)

end TokenKind

/-- A lexical unit. The literal of a string fragment is its content as written, that of
a number its digits. -/
structure Token where
  kind : TokenKind
  lexeme : String
  literal : Option String
  pos : Position
deriving DecidableEq, Repr, Inhabited

namespace Token

/-- The literal, or the lexeme where there is none. -/
def text (t : Token) : String := t.literal.getD t.lexeme

end Token

end PhaseLang
