import PhaseLang.Typing.Type

/-!
# Scopes

A tree of frames, numbered in the order in which they are opened, with the root in place 0.
A frame stays in the tree when it is left. One frame is the current one: names are bound
in it, and looked up from it outwards.

A frame's `Bindings` are names bound to values, in the order in which the names were first bound. A
name is bound once: binding it again replaces its value in place.
-/

namespace PhaseLang

abbrev Bindings (α : Type) := List (String × α)

namespace Bindings

variable {α : Type}

def get? (name : String) : Bindings α → Option α
  | [] => none
  | (n, a) :: rest => if n = name then some a else get? name rest

def insert (name : String) (value : α) : Bindings α → Bindings α
  | [] => [(name, value)]
  | (n, a) :: rest => if n = name then (n, value) :: rest else (n, a) :: insert name value rest

def has (name : String) (bs : Bindings α) : Bool := (bs.get? name).isSome

def insertAll (bs new : Bindings α) : Bindings α :=
  new.foldl (fun bs entry => bs.insert entry.1 entry.2) bs

theorem get?_insert (name other : String) (value : α) (bs : Bindings α) :
    (bs.insert name value).get? other = if name = other then some value else bs.get? other := by
  induction bs with
  | nil => rfl
  | cons entry rest ih =>
    obtain ⟨n, a⟩ := entry
    by_cases hn : n = name <;> by_cases ho : n = other <;> grind [insert, get?]

end Bindings

structure Frame where
  parent : Option Nat
  bindings : Bindings Ty := []
  /-- The frames opened in this one, oldest first. -/
  children : List Nat := []

structure Scopes where
  frames : Array Frame := #[{ parent := none }]
  current : Nat := 0

namespace Scopes

def size (s : Scopes) : Nat := s.frames.size

def enter (s : Scopes) : Scopes where
  frames := (s.frames.modify s.current fun f => { f with children := f.children ++ [s.size] }).push
    { parent := some s.current }
  current := s.size

def leave (s : Scopes) : Scopes :=
  match s.frames[s.current]?.bind (·.parent) with
  | none => s
  | some parent => { s with current := parent }

def declare (s : Scopes) (name : String) (type : Ty) : Scopes :=
  { s with frames := s.frames.modify s.current fun f =>
      { f with bindings := f.bindings.insert name type } }

/-- Looks a name up in a frame and the frames around it, `limit` frames in all. -/
def resolveFrom (s : Scopes) (name : String) : (limit frame : Nat) → Option Ty
  | 0, _ => none
  | limit + 1, frame =>
    match s.frames[frame]? with
    | none => none
    | some f =>
      match f.bindings.get? name with
      | some type => some type
      | none => f.parent.bind (s.resolveFrom name limit)

/-- The innermost binding of a name. A frame is opened after the one around it, so no chain
of frames is longer than the tree is large. -/
def resolve (s : Scopes) (name : String) : Option Ty := s.resolveFrom name s.size s.current

def isDeclared (s : Scopes) (name : String) : Bool := (s.resolve name).isSome

def children (s : Scopes) (frame : Nat) : List Nat :=
  match s.frames[frame]? with
  | none => []
  | some f => f.children

end Scopes

end PhaseLang
