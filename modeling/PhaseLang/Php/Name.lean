import PhaseLang.Tree

/-!
# Names and constants in PHP

How names and strings of the language are spelled in PHP, and which of its expressions are constant
ones. PHP evaluates the initial value of a field when it declares the class, and takes only
constant expressions there. Other initial values have to be assigned later.
-/

namespace PhaseLang.Php

/-- Namespace and name, joined by backslashes. Type parameters are left out. -/
def pathName (p : TypePath) : String := "\\".intercalate p.segments

/-- Types that have a name of their own in PHP. -/
def builtinType? : String → Option String
  | "String" => some "string"
  | "Int" => some "int"
  | "Array" => some "\\Std\\PhaseArray"
  | "Map" => some "\\Std\\PhaseMap"
  | "Callable" => some "callable"
  | "Any" => some "mixed"
  | "Scalar" => some "scalar"
  | "Bool" => some "bool"
  | _ => none

/-- A path as a type or class. `mixed` has null among its values and takes no `?`. -/
def typeName (p : TypePath) : String :=
  let name := pathName p
  let mark := if p.nullable && name != "Any" then "?" else ""
  match builtinType? name with
  | some builtin => mark ++ builtin
  | none => mark ++ (if p.absolute then "\\" else "") ++ name

/-- Constructors have a fixed name. -/
def methodName (name : String) : String := if name = "new" then "__construct" else name

/-- Puts a backslash before every quote and dollar that has none. -/
def escape : List Char → List Char
  | [] => []
  | ['\\'] => ['\\']
  | '\\' :: c :: cs => '\\' :: c :: escape cs
  | c :: cs => if c = '\x22' ∨ c = '$' then '\\' :: c :: escape cs else c :: escape cs

/-- A string literal in double quotes. Escape sequences stay as written. -/
def quoted (value : String) : String := "\"" ++ String.ofList (escape value.toList) ++ "\""

/-- Names are ASCII, so the case of a name is the case of its first ASCII letter. -/
def startsLower (name : String) : Bool := name.front?.any Char.isLower

def startsUpper (name : String) : Bool := name.front?.any Char.isUpper

end PhaseLang.Php

namespace PhaseLang

mutual

/-- Whether PHP takes the expression as an initial value. -/
def Expr.isConstant : Expr → Bool
  | ⟨_, _, kind⟩ => kind.isConstant

def ExprKind.isConstant : ExprKind → Bool
  | .literal _ => true
  | .unary .not operand _ => operand.isConstant
  | .unary .negate operand _ => operand.isConstant
  | .group inner => inner.isConstant
  | .binary lhs _ rhs => lhs.isConstant && rhs.isConstant
  | .logical lhs _ rhs => lhs.isConstant && rhs.isConstant
  | .list items true => allConstant items
  | .map entries true => allConstantEntries entries
  | .get ⟨_, _, .path _⟩ ⟨_, _, .ident name⟩ => Php.startsUpper name
  | _ => false

def allConstant : List Expr → Bool
  | [] => true
  | e :: es => e.isConstant && allConstant es

def allConstantEntries : List Entry → Bool
  | [] => true
  | ⟨key, value⟩ :: es => key.isConstant && value.isConstant && allConstantEntries es

end

/-- Whether the initial value of a field has to be assigned after the declaration. -/
def Member.isDeferred (m : Member) : Bool :=
  match m.kind with
  | .field _ (some init) => !m.has .isConst && !init.isConstant
  | _ => false

end PhaseLang
