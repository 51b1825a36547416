import PhaseLang.Tree

/-!
# PHP trees

The part of PHP that programs are lowered to. Types are kept as their text.
-/

namespace PhaseLang.Php

inductive BinaryOp where
  | add | sub | mul | div | concat | identical | notIdentical
  | greater | greaterEq | less | lessEq | and | or
deriving DecidableEq, Repr

namespace BinaryOp

def text : BinaryOp → String
  | add => "+" | sub => "-" | mul => "*" | div => "/" | concat => "."
  | identical => "===" | notIdentical => "!=="
  | greater => ">" | greaterEq => ">=" | less => "<" | lessEq => "<="
  | and => "&&" | or => "||"

end BinaryOp

inductive Import where
  | single (isFunction : Bool) (name : String)
  | renamed (isFunction : Bool) (name newName : String)
  | group (isFunction : Bool) (ns : String) (names : List String)
deriving DecidableEq, Repr

mutual

inductive Expr where
  | var (name : String)
  | this
  | static
  /-- A class or a function by its name. -/
  | name (text : String)
  /-- `parent::method` -/
  | parent (method : String)
  | literal (value : Literal)
  | list (items : List Expr)
  /-- An array with keys, one entry on each line. -/
  | map (entries : List Entry)
  | group (inner : Expr)
  | assign (target value : Expr)
  | binary (lhs : Expr) (op : BinaryOp) (rhs : Expr)
  | before (op : UnaryOp) (operand : Expr)
  | after (operand : Expr) (op : UnaryOp)
  | ternary (cond yes no : Expr)
  | instanceOf (operand : Expr) (type : String)
  | call (callee : Expr) (args : List Arg)
  | create (cls : Expr) (args : List Arg)
  /-- An entry of an attribute list; without arguments it has no parentheses. -/
  | attribute (type : String) (args : List Arg)
  /-- A function as a value: `name(...)` -/
  | functionRef (name : String)
  /-- `target->name` -/
  | member (target : Expr) (name : String)
  /-- A member whose name is computed. -/
  | computed (target field : Expr)
  /-- `target::name`, a constant or a static method. -/
  | classMember (target : Expr) (name : String)
  /-- `target::$name` -/
  | classVar (target : Expr) (name : String)
  | index (target : Expr) (index : Option Expr)
  | spread (inner : Expr)
  | raise (inner : Expr)
  | closure (params : List Param) (captures : List String) (result : Option String)
      (body : List Stmt)
  | choose (target : Expr) (arms : List Arm)

structure Arg where
  name : Option String
  value : Expr

structure Entry where
  key : Expr
  value : Expr

structure Arm where
  condition : Option Expr
  value : Expr

structure Param where
  type : Option String
  name : String
  default : Option Expr
  variadic : Bool

inductive Stmt where
  | expr (e : Expr)
  | imports (lines : List Import)
  | inNamespace (name : String) (decls : List Stmt)
  | global (name : String)
  | attempt (body : Stmt) (handlers : List Stmt)
  | handler (type name : String) (body : Stmt)
  | whileLoop (cond : Expr) (body : Stmt)
  | doLoop (body : Stmt) (cond : Expr)
  /-- Counts from `lower` up to, but not including, `upper`. -/
  | forRange (key : String) (lower upper : Expr) (body : Stmt)
  | forEach (target : Expr) (key : String) (value : Option String) (body : Stmt)
  | branch (cond : Expr) (yes : Stmt) (no : Option Stmt)
  | switch (target : Expr) (cases : List Case)
  | block (stmts : List Stmt)
  | ret (value : Option Expr)
  | func (attributes : List Expr) (func : Function)
  | cls (cls : Class)

structure Case where
  condition : Option Expr
  body : List Stmt

structure Function where
  name : String
  params : List Param
  result : Option String
  body : List Stmt

/-- Without a body, a method is only declared. -/
structure Method where
  modifiers : List String
  name : String
  params : List Param
  result : Option String
  body : Option (List Stmt)

structure Member where
  attributes : List Expr
  kind : MemberKind

inductive MemberKind where
  | use (type : String)
  /-- The words before the initial value: modifiers, type and name. -/
  | field (words : List String) (init : Option Expr)
  /-- A method, or the accessors of a property. -/
  | methods (methods : List Method)

structure Class where
  attributes : List Expr
  /-- The words before the name. -/
  keyword : String
  name : String
  parent : Option String
  interfaces : List String
  isInterface : Bool
  members : List Member
  /-- Statements that follow the declaration. -/
  afterwards : List Stmt

end

end PhaseLang.Php
