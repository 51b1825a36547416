import PhaseLang.Tree.Equality

/-!
# Types

What is known about the value of an expression. `any` and `unknown` say nothing; an
`unknown` type may remember the path that could not be resolved. A `TypeTable` has the types of
a program's expressions, by expression id.
-/

namespace PhaseLang

inductive Ty where
  | nullable (inner : Ty)
  | void
  | any
  | unknown (path : Option TypePath)
  | func (func : Func)
  /-- The class itself, as a path names it. -/
  | classOf (cls : Class)
  /-- A value of the class. -/
  | objectOf (cls : Class)

instance : Inhabited Ty := ⟨.any⟩

namespace Ty

/-- A type that the language provides without a declaration. -/
def builtin (name : String) : Ty := .unknown (some (.ofQualified name))

def isInformative : Ty → Bool
  | any | unknown _ => false
  | _ => true

def nonNull : Ty → Ty
  | nullable inner => inner
  | t => t

def class? (t : Ty) : Option Class :=
  match t.nonNull with
  | classOf c | objectOf c => some c
  | _ => none

def unresolved? (t : Ty) : Option TypePath :=
  match t.nonNull with
  | unknown path => path
  | _ => none

def text : Ty → String
  | nullable inner => "?" ++ inner.text
  | void => "Void"
  | any => "Any"
  | unknown none => "Unknown"
  | unknown (some path) => path.text
  | func f => if f.name.isEmpty then "fun" else s!"fun {f.name}"
  | classOf c => s!"class {c.name}"
  | objectOf c => c.name

def same : Ty → Ty → Bool
  | nullable a, nullable b => a.same b
  | void, void => true
  | any, any => true
  | unknown p, unknown q => p == q
  | func f, func g => f.same g
  | classOf c, classOf d => c.same d
  | objectOf c, objectOf d => c.same d
  | _, _ => false

end Ty

inductive Builtin where
  | string | int | bool | null | array | map | nativeArray | nativeMap
deriving DecidableEq, Repr

namespace Builtin

def name : Builtin → String
  | string => "String"
  | int => "Int"
  | bool => "Bool"
  | null => "Null"
  | array => "Array"
  | map => "Map"
  | nativeArray => "NativeArray"
  | nativeMap => "NativeMap"

def ofLiteral : Literal → Builtin
  | .string _ => string
  | .number _ => int
  | .true | .false => bool
  | .null => null

end Builtin

/-! ## Tables -/

/-- Newest entry first; an older entry of the same id is out of reach. -/
structure TypeTable where
  entries : List (Nat × Ty) := []

namespace TypeTable

def insert (table : TypeTable) (id : Nat) (type : Ty) : TypeTable :=
  ⟨(id, type) :: table.entries⟩

def get? (table : TypeTable) (id : Nat) : Option Ty := table.entries.lookup id

def typeOf? (table : TypeTable) (e : Expr) : Option Ty := table.get? e.id

def size (table : TypeTable) : Nat := (table.entries.map (·.1)).eraseDups.length

/-- What an outline puts after an expression: its type. -/
def note (table : TypeTable) (id : Nat) : String :=
  match table.get? id with
  | none => ""
  | some type => s!" => {type.text}"

end TypeTable

end PhaseLang
