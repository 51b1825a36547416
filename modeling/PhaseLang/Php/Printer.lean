import PhaseLang.Php.Name
import PhaseLang.Php.Tree
import PhaseLang.Text

/-!
# Printing PHP

The text of a PHP tree, with four spaces for each level of depth. A node's text starts
where the cursor stands and ends without a line break.
-/

namespace PhaseLang.Php.Printer

def indent (depth : Nat) : String := Text.fill (4 * depth) ' '

def newline (depth : Nat) : String := "\n" ++ indent depth

def commas (texts : List String) : String := ", ".intercalate texts

def braces (text : String) : String := "\x7b" ++ text ++ "\x7d"

def parens (texts : List String) : String := "(" ++ commas texts ++ ")"

def braced (depth : Nat) (lines : String) : String := braces (lines ++ newline depth)

def dollarNames (names : List String) : String := commas (names.map ("$" ++ ·))

def captured (names : List String) : String :=
  if names.isEmpty then "" else s!" use ({dollarNames names})"

def resultType : Option String → String
  | none => ""
  | some type => ": " ++ type

def importLine : Import → String
  | .single isFunction name => s!"use {keyword isFunction}{name};"
  | .renamed isFunction name newName => s!"use {keyword isFunction}{name} as {newName};"
  | .group isFunction ns names =>
    s!"use {keyword isFunction}{ns}\\" ++ braces (commas names) ++ ";"
where
  keyword (isFunction : Bool) : String := if isFunction then "function " else ""

def literal : Literal → String
  | .string value => quoted value
  | .number digits => digits
  | .true => "true"
  | .false => "false"
  | .null => "null"

def attributeLine (depth : Nat) (attributes : List String) : String :=
  if attributes.isEmpty then "" else "#[" ++ commas attributes ++ "]" ++ newline depth

/-- How much deeper than its head the body of a control statement stands: a block stands at
the same depth. -/
def inset : Stmt → Nat
  | .block _ => 0
  | _ => 1

def onNextLine (depth : Nat) (text : Nat → String) : String := newline depth ++ text depth

def initial : Option String → String
  | none => ""
  | some value => " = " ++ value

def classHead (c : Class) : String :=
  let inherits := match c.parent with
    | none => ""
    | some parent => " extends " ++ parent
  let conforms := if c.isInterface then " extends " else " implements "
  c.keyword ++ " " ++ c.name ++ inherits ++
    if c.interfaces.isEmpty then "" else conforms ++ commas c.interfaces

mutual

def expr (depth : Nat) : Expr → String
  | .var name => "$" ++ name
  | .this => "$this"
  | .static => "static"
  | .name text => text
  | .parent method => "parent::" ++ method
  | .literal value => literal value
  | .list items => "[" ++ commas (exprs depth items) ++ "]"
  | .map [] => "[]"
  | .map es => "[" ++ entries (depth + 1) es ++ newline depth ++ "]"
  | .group inner => "(" ++ expr depth inner ++ ")"
  | .assign target value => expr depth target ++ " = " ++ expr depth value
  | .binary lhs op rhs => expr depth lhs ++ " " ++ op.text ++ " " ++ expr depth rhs
  | .before op operand => op.text ++ expr depth operand
  | .after operand op => expr depth operand ++ op.text
  | .ternary cond yes no =>
    expr depth cond ++ " ? " ++ expr depth yes ++ " : " ++ expr depth no
  | .instanceOf operand type => expr depth operand ++ " instanceof " ++ type
  | .call callee as => expr depth callee ++ parens (args depth as)
  | .create cls as => "new " ++ expr depth cls ++ parens (args depth as)
  | .attribute type [] => type
  | .attribute type as => type ++ parens (args depth as)
  | .functionRef name => name ++ "(...)"
  | .member target name => expr depth target ++ "->" ++ name
  | .computed target field => expr depth target ++ "->" ++ braces (expr depth field)
  | .classMember target name => expr depth target ++ "::" ++ name
  | .classVar target name => expr depth target ++ "::$" ++ name
  | .index target i => expr depth target ++ "[" ++ (optional depth i).getD "" ++ "]"
  | .spread inner => "..." ++ expr depth inner
  | .raise inner => "throw " ++ expr depth inner
  | .closure ps captures result body =>
    "function " ++ parens (params depth ps) ++ captured captures ++ resultType result ++
      " " ++ braced depth (stmts (depth + 1) body)
  | .choose target as =>
    "match (" ++ expr depth target ++ ") " ++ braced depth (arms (depth + 1) as)

def optional (depth : Nat) : Option Expr → Option String
  | none => none
  | some e => some (expr depth e)

def exprs (depth : Nat) : List Expr → List String
  | [] => []
  | e :: es => expr depth e :: exprs depth es

def args (depth : Nat) : List Arg → List String
  | [] => []
  | ⟨none, value⟩ :: as => expr depth value :: args depth as
  | ⟨some name, value⟩ :: as => (name ++ ": " ++ expr depth value) :: args depth as

def entries (depth : Nat) : List Entry → String
  | [] => ""
  | ⟨key, value⟩ :: es =>
    newline depth ++ expr depth key ++ " => " ++ expr depth value ++ "," ++ entries depth es

def arms (depth : Nat) : List Arm → String
  | [] => ""
  | ⟨condition, value⟩ :: as =>
    newline depth ++ (optional depth condition).getD "default" ++ " => " ++ expr depth value ++ "," ++ arms depth as

def params (depth : Nat) : List Param → List String
  | [] => []
  | ⟨type, name, default, variadic⟩ :: ps =>
    let type := match type with
      | none => ""
      | some type => type ++ " "
    (type ++ (if variadic then "..." else "") ++ "$" ++ name ++ initial (optional depth default)) ::
      params depth ps

def stmt (depth : Nat) : Stmt → String
  | .expr e => expr depth e ++ ";"
  | .imports lines => (newline depth).intercalate (lines.map importLine)
  | .inNamespace name decls => "namespace " ++ name ++ " " ++ braced depth (stmts (depth + 1) decls)
  | .global name => "global $" ++ name ++ ";"
  | .attempt b handlers =>
    "try" ++ onNextLine (depth + inset b) (stmt · b) ++ stmts depth handlers
  | .handler type name b =>
    "catch (" ++ type ++ " $" ++ name ++ ")" ++ onNextLine (depth + inset b) (stmt · b)
  | .whileLoop cond b =>
    "while (" ++ expr depth cond ++ ")" ++ onNextLine (depth + inset b) (stmt · b)
  | .doLoop b cond =>
    "do" ++ onNextLine (depth + inset b) (stmt · b) ++ newline depth ++
      "while (" ++ expr depth cond ++ ");"
  | .forRange key lower upper b =>
    "for ($" ++ key ++ " = " ++ expr depth lower ++ "; $" ++ key ++ " < " ++ expr depth upper ++
      "; $" ++ key ++ "++)" ++ onNextLine (depth + inset b) (stmt · b)
  | .forEach target key value b =>
    let value := match value with
      | none => ""
      | some value => " => $" ++ value
    "foreach (" ++ expr depth target ++ " as $" ++ key ++ value ++ ")" ++
      onNextLine (depth + inset b) (stmt · b)
  | .branch cond yes no =>
    "if (" ++ expr depth cond ++ ")" ++ onNextLine (depth + inset yes) (stmt · yes) ++
      otherwise depth no
  | .switch target cs =>
    "switch (" ++ expr depth target ++ ")" ++ newline depth ++
      braced depth (cases (depth + 1) cs)
  | .block ss => braced depth (stmts (depth + 1) ss)
  | .ret none => "return;"
  | .ret (some e) => "return " ++ expr depth e ++ ";"
  | .func as ⟨name, ps, result, b⟩ =>
    attributeLine depth (exprs depth as) ++ "function " ++ name ++ parens (params depth ps) ++
      resultType result ++ newline depth ++ braced depth (stmts (depth + 1) b)
  | .cls c => cls depth c

def stmts (depth : Nat) : List Stmt → String
  | [] => ""
  | s :: ss => newline depth ++ stmt depth s ++ stmts depth ss

def otherwise (depth : Nat) : Option Stmt → String
  | none => ""
  | some no => newline depth ++ "else" ++ onNextLine (depth + inset no) (stmt · no)

def cases (depth : Nat) : List Case → String
  | [] => ""
  | ⟨condition, b⟩ :: cs =>
    let head := match optional depth condition with
      | none => "default:"
      | some e => "case " ++ e ++ ":"
    newline depth ++ head ++ stmts (depth + 1) b ++ newline (depth + 1) ++ "break;" ++
      cases depth cs

def cls (depth : Nat) : Class → String
  | ⟨as, keyword, name, parent, interfaces, isInterface, ms, afterwards⟩ =>
    attributeLine depth (exprs depth as) ++
      classHead ⟨[], keyword, name, parent, interfaces, isInterface, [], []⟩ ++
      newline depth ++ braced depth (members (depth + 1) ms) ++ stmts depth afterwards

def members (depth : Nat) : List Member → String
  | [] => ""
  | ⟨as, kind⟩ :: ms =>
    newline depth ++ attributeLine depth (exprs depth as) ++ memberKind depth kind ++
      members depth ms

def memberKind (depth : Nat) : MemberKind → String
  | .use type => "use " ++ type ++ ";"
  | .field words init => " ".intercalate words ++ initial (optional depth init) ++ ";"
  | .methods ms => (newline depth).intercalate (methods depth ms)

def methods (depth : Nat) : List Method → List String
  | [] => []
  | ⟨modifiers, name, ps, result, b⟩ :: ms =>
    (" ".intercalate modifiers ++ " function " ++ name ++ parens (params depth ps) ++
      resultType result ++ methodBody depth b) :: methods depth ms

def methodBody (depth : Nat) : Option (List Stmt) → String
  | none => ";"
  | some ss => newline depth ++ braced depth (stmts (depth + 1) ss)

end

def program : List Stmt → String
  | ss => "<?php\n" ++ String.join (ss.map fun s => stmt 0 s ++ "\n")

end PhaseLang.Php.Printer
