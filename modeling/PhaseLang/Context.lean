import PhaseLang.Context.Loader

/-!
# Contexts

What is known about names outside the file at hand: a cache in front of an optional loader.
A name that nothing declares is kept as well, as an unknown type, so every file is looked
for once. Names that differ only in a leading `::` are one name. The context also hands out
expression ids, so that no two trees read under it share one, and it keeps a history of what
was put into the cache.
-/

namespace PhaseLang

inductive CacheEvent where
  | added (name : String) (type : Ty)
  | loaded (name : String) (loading : Loading)

structure Context where
  types : Bindings Ty := []
  loader : Option Loader := none
  /-- Ids are not bounded: those of 32 bits would start over after `2 ^ 32` expressions. -/
  nextId : Nat := 0
  /-- What happened to the cache so far, oldest first. -/
  history : List CacheEvent := []

namespace Context

/-- Adds types, usually a surface, one after the other. -/
def addTypes (c : Context) (types : Bindings Ty) : Context :=
  let entries := types.map fun entry => (QualifiedName.key entry.1, entry.2)
  { c with
    types := c.types.insertAll entries
    history := c.history ++ entries.map fun entry => .added entry.1 entry.2 }

def contains (c : Context) (name : String) : Bool := c.types.has (QualifiedName.key name)

def size (c : Context) : Nat := c.types.length

/-- Asks the loader for a name that is not cached. -/
def fetch (c : Context) (key : String) : Ty × Context × List Diagnostic :=
  let loading : Loading := match c.loader with
    | none => ⟨.ok none, c.nextId, []⟩
    | some loader => loader.load key c.nextId
  let type := match loading.result with
    | .ok (some type) => type
    | _ => .builtin key
  let context :=
    { c with
      types := c.types.insert key type
      nextId := loading.nextId
      history := c.history ++ [.loaded key loading] }
  (type, context, loading.diagnostics)

def getType (c : Context) (name : String) : Ty × Context × List Diagnostic :=
  let key := QualifiedName.key name
  match c.types.get? key with
  | some type => (type, c, [])
  | none => c.fetch key

end Context

end PhaseLang
