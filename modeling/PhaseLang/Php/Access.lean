import PhaseLang.Context
import PhaseLang.FunctionNames
import PhaseLang.Php.Tree

/-!
# Member access

PHP reads members of objects with `->` and members of classes with `::`. Which one a member
takes follows from what the target is and from how the member was declared.
-/

namespace PhaseLang.Php

/-- What lowering knows about the program, and where it stands in it. -/
structure Scene where
  /-- Attributes and the types of properties and results are written. -/
  typed : Bool
  names : FunctionNames
  ns : List String := []

namespace Scene

def typeOf (scene : Scene) (e : PhaseLang.Expr) : Ty := (scene.names.types.typeOf? e).getD .any

end Scene

/-- What lowering changes: the context may load files, and loading may report. -/
structure Progress where
  context : Context
  diagnostics : List Diagnostic := []

abbrev Lower := StateM Progress

def lookUp (name : String) : Lower Ty := do
  let s ← get
  let (type, context, reported) := s.context.getType name
  set { s with context, diagnostics := s.diagnostics ++ reported : Progress }
  return type

/-- Whether an expression is a string, perhaps a nullable one. -/
def isString (scene : Scene) (e : PhaseLang.Expr) : Lower Bool := do
  let type ← match (scene.typeOf e).nonNull with
    | .unknown (some path) => lookUp path.qualifiedName
    | type => pure type
  return type.same (← lookUp "String")

/-! ## Members -/

structure MemberInfo where
  isConst : Bool
  isStatic : Bool
  isState : Bool
deriving DecidableEq, Repr

namespace MemberInfo

def ofMember (m : PhaseLang.Member) : MemberInfo where
  isConst := m.has .isConst
  isStatic := m.has .isStatic
  isState := match m.kind with
    | .field _ _ | .property _ _ _ => true
    | _ => false

end MemberInfo

/-- Members are not looked for further up than this. -/
def inheritanceLimit : Nat := 32

def lookUpClass (scene : Scene) (path : TypePath) : Lower (Option PhaseLang.Class) := do
  let inner := (path.qualify scene.ns).qualifiedName
  let nearby ←
    if !path.absolute && !scene.ns.isEmpty && (← get).context.contains inner then
      pure (← lookUp inner).class?
    else pure none
  match nearby with
  | some c => return some c
  | none => return (← lookUp path.qualifiedName).class?

def ancestors (c : PhaseLang.Class) : List TypePath := c.parent.toList ++ c.interfaces ++ c.traits

/-- Searches some ancestors, one after the other. Those that are no class are passed over. -/
def searchAll (scene : Scene) (search : PhaseLang.Class → Lower (Option MemberInfo)) :
    List TypePath → Lower (Option MemberInfo)
  | [] => return none
  | path :: paths => do
    match ← lookUpClass scene path with
    | none => searchAll scene search paths
    | some c =>
      match ← search c with
      | some info => return some info
      | none => searchAll scene search paths

/-- A member of a class or of its ancestors, up to `limit` steps away. -/
def findMember (scene : Scene) (name : String) :
    (limit : Nat) → PhaseLang.Class → Lower (Option MemberInfo)
  | limit, c =>
    match c.ownMember? name with
    | some m => return some (.ofMember m)
    | none =>
      match limit with
      | 0 => return none
      | limit + 1 => searchAll scene (findMember scene name limit) (ancestors c)

/-! ## Access -/

inductive Access where
  | object
  | classMember
  | classVar
deriving DecidableEq, Repr

namespace Access

def apply (access : Access) (target : Expr) (name : String) : Expr :=
  match access with
  | object => .member target name
  | classMember => .classMember target name
  | classVar => .classVar target name

/-- How a member is reached, if it was found, from a target that is a class or not. -/
def choose (ofClass : Bool) : Option MemberInfo → Access
  | none => if ofClass then classMember else object
  | some info =>
    if info.isConst then classMember
    else if info.isStatic || ofClass then if info.isState then classVar else classMember
    else object

end Access

def namesClass (scene : Scene) (e : PhaseLang.Expr) : Bool :=
  match e.kind, (scene.typeOf e).nonNull with
  | .path _, _ => true
  | .static, _ => true
  | _, .classOf _ => true
  | _, _ => false

def accessTo (scene : Scene) (target : PhaseLang.Expr) (name : String) : Lower Access := do
  let info ← match (scene.typeOf target).class? with
    | none => pure none
    | some c => findMember scene name inheritanceLimit c
  return .choose (namesClass scene target) info

end PhaseLang.Php
