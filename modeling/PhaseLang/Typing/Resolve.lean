import PhaseLang.Context
import PhaseLang.Typing.Scopes

/-!
# Name resolution

The state of typing, and what names mean in it. A relative path is looked for in the scopes,
then among the program's own declarations, first in the current namespace and then as
written, and last in the context, in the same order. An absolute path skips the scopes and
the namespace. Members are looked for in a class and then in what it inherits from.
-/

namespace PhaseLang

structure Typing where
  scopes : Scopes := {}
  /-- The namespace of the current statement. -/
  ns : List String := []
  surface : Surface := []
  table : TypeTable := {}
  context : Context
  diagnostics : List Diagnostic := []

abbrev Typer := StateM Typing

namespace Typer

/-! ## Effects -/

def report (pos : Position) (message : String) : Typer Unit :=
  modify fun s => { s with diagnostics := s.diagnostics ++ [⟨pos, message⟩] }

def record (id : Nat) (type : Ty) : Typer Unit :=
  modify fun s => { s with table := s.table.insert id type }

def declare (name : String) (type : Ty) : Typer Unit :=
  modify fun s => { s with scopes := s.scopes.declare name type }

def inFrame {α : Type} (act : Typer α) : Typer α := do
  modify fun s => { s with scopes := s.scopes.enter }
  let a ← act
  modify fun s => { s with scopes := s.scopes.leave }
  return a

def inNamespace {α : Type} (ns : List String) (act : Typer α) : Typer α := do
  let outer := (← get).ns
  modify fun s => { s with ns }
  let a ← act
  modify fun s => { s with ns := outer }
  return a

def lookUp (name : String) : Typer Ty := do
  let s ← get
  let (type, context, reported) := s.context.getType name
  set { s with context, diagnostics := s.diagnostics ++ reported }
  return type

/-! ## Paths -/

def resolveName (path : TypePath) : Typer Ty := do
  let s ← get
  let name := path.qualifiedName
  let inner := if path.absolute || s.ns.isEmpty then none else some (path.qualify s.ns).qualifiedName
  let visible := if path.absolute then none else s.scopes.resolve name
  let own := (inner.bind s.surface.get?).or (s.surface.get? name)
  match visible.or own, inner with
  | some type, _ => return type
  | none, none => lookUp name
  | none, some inner =>
    let type ← lookUp inner
    if type.isInformative then return type else lookUp name

def resolve (path : TypePath) : Typer Ty := do
  let type ← resolveName path
  return if path.nullable then .nullable type else type

def resolveOr (default : Ty) : Option TypePath → Typer Ty
  | none => return default
  | some path => resolve path

def builtin (b : Builtin) : Typer Ty := resolve (.toAbsolute (.ofName b.name))

/-- What an imported path means: imports start at the root. -/
def load (path : TypePath) : Typer Ty := lookUp path.qualifiedName

/-! ## Members -/

/-- Longer chains of inheritance are taken as unknown, and so are cyclic ones. -/
def inheritanceLimit : Nat := 32

def ancestors (c : Class) : List TypePath :=
  c.parent.toList ++ c.traits ++ if c.kind = .interface then c.interfaces else []

def memberKindType : MemberKind → Typer Ty
  | .use _ => return .void
  | .field type _ => resolveOr .any type
  | .property type _ _ => resolveOr .any type
  | .method f => return .func f

/-- Searches some ancestors, one after the other. An ancestor that is no class could have
any member. -/
def searchAll (search : Class → Typer (Option Ty)) : List TypePath → Typer (Option Ty)
  | [] => return none
  | path :: paths => do
    match ← resolve path with
    | .classOf c | .objectOf c =>
      match ← search c with
      | some type => return some type
      | none => searchAll search paths
    | _ => return some .any

/-- The type of a member of a class or of its ancestors, up to `limit` steps away. There is
none only if the whole hierarchy is known and lacks the member. -/
def memberType (name : String) : (limit : Nat) → Class → Typer (Option Ty)
  | limit, c => do
    match c.ownMember? name with
    | some m => return some (← memberKindType m.kind)
    | none =>
      match limit with
      | 0 => searchAll (fun _ => return some .any) (ancestors c)
      | limit + 1 => searchAll (memberType name limit) (ancestors c)

def member (target : Ty) (name : String) (pos : Position) : Typer Ty := do
  match target.class? with
  | none => return .any
  | some c =>
    match ← memberType name inheritanceLimit c with
    | some type => return type
    | none =>
      report pos s!"The class {c.name} does not have a field {name}"
      return .any

def superMember (method : String) : Typer Ty := do
  let this := (← get).scopes.resolve "this"
  match this.bind (·.class?) |>.bind (·.parent) with
  | none => return .any
  | some parent =>
    match ← resolve parent with
    | .classOf c | .objectOf c => return (← memberType method (inheritanceLimit - 1) c).getD .any
    | _ => return .any

/-! ## Values -/

def classBinding (name : String) (pos : Position) : Typer Ty := do
  match (← get).scopes.resolve name with
  | some type => return type
  | none =>
    report pos s!"Used `{name}` outside of a class declaration"
    return .any

def named (name : String) (pos : Position) : Typer Ty := do
  match (← get).scopes.resolve name with
  | some type => return type
  | none =>
    report pos s!"Undeclared variable: {name}"
    return .any

def callKnown : Ty → Typer Ty
  | .func f => resolveOr .any f.result
  | .classOf c | .objectOf c => return .objectOf c
  | _ => return .any

/-- What a call gives. A callee that is not known is resolved once more. -/
def callResult (callee : Ty) : Typer Ty := do
  match callee.nonNull with
  | .unknown (some path) => callKnown (← resolve path)
  | type => callKnown type

end Typer

end PhaseLang
