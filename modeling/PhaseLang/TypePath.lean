/-!
# Type paths

The way types are written: `?::A::B<C,D>`. Two paths are equal when they agree in every
part; the text of a path shows every part.

A qualified name is a row of segments joined by `::`. A leading `::` says that the name
starts at the root; names that differ only in it have the same `key`.
-/

namespace PhaseLang

namespace QualifiedName

def dropRoot : List Char → List Char
  | ':' :: ':' :: cs => dropRoot cs
  | cs => cs

/-- Splits at every `::`, from the left. -/
def split : List Char → List (List Char)
  | [] => [[]]
  | ':' :: ':' :: cs => [] :: split cs
  | c :: cs =>
    match split cs with
    | [] => [[c]]
    | segment :: segments => (c :: segment) :: segments

/-- The characters before the first `::`. -/
def firstPart : List Char → List Char
  | [] => []
  | ':' :: ':' :: _ => []
  | c :: cs => c :: firstPart cs

def key (name : String) : String := String.ofList (dropRoot name.toList)

def segments (name : String) : List String :=
  (split (dropRoot name.toList)).map String.ofList

def last (name : String) : String := String.ofList (firstPart name.toList.reverse).reverse

def join (parts : List String) : String := "::".intercalate parts

end QualifiedName

/-- A possibly nullable, possibly generic name of a type. -/
structure TypePath where
  ns : List String := []
  name : String
  params : List TypePath := []
  absolute : Bool := false
  nullable : Bool := false
deriving Repr, Inhabited

namespace TypePath

mutual

def decEq : (a b : TypePath) → Decidable (a = b)
  | ⟨ns, name, params, absolute, nullable⟩, ⟨ns', name', params', absolute', nullable'⟩ =>
    match decEqs params params' with
    | isTrue hp =>
      if h : ns = ns' ∧ name = name' ∧ absolute = absolute' ∧ nullable = nullable' then
        isTrue (by obtain ⟨rfl, rfl, rfl, rfl⟩ := h; subst hp; rfl)
      else isFalse (by rintro ⟨⟩; exact h ⟨rfl, rfl, rfl, rfl⟩)
    | isFalse hp => isFalse (by rintro ⟨⟩; exact hp rfl)

def decEqs : (as bs : List TypePath) → Decidable (as = bs)
  | [], [] => isTrue rfl
  | [], _ :: _ => isFalse (by simp)
  | _ :: _, [] => isFalse (by simp)
  | a :: as, b :: bs =>
    match decEq a b with
    | isFalse h => isFalse (by rintro ⟨⟩; exact h rfl)
    | isTrue h =>
      match decEqs as bs with
      | isTrue hs => isTrue (by subst h; subst hs; rfl)
      | isFalse hs => isFalse (by rintro ⟨⟩; exact hs rfl)

end

instance : DecidableEq TypePath := decEq

def ofName (name : String) : TypePath := { name }

/-- The absolute path that a qualified name stands for. -/
def ofQualified (name : String) : TypePath :=
  let segments := QualifiedName.segments name
  { ns := segments.dropLast, name := segments.getLastD "", absolute := true }

def toAbsolute (p : TypePath) : TypePath := { p with absolute := true }

def qualifiedName (p : TypePath) : String := QualifiedName.join (p.ns ++ [p.name])

/-- The path inside a namespace, from the root. -/
def qualify (p : TypePath) (ns : List String) : TypePath :=
  { p with ns := ns ++ p.ns, absolute := true }

def segments (p : TypePath) : List String := p.ns ++ [p.name]

mutual

def text : TypePath → String
  | ⟨ns, name, params, absolute, nullable⟩ =>
    (if nullable then "?" else "") ++ (if absolute then "::" else "") ++
      QualifiedName.join (ns ++ [name]) ++
      match params with
      | [] => ""
      | p :: ps => "<" ++ p.text ++ textMore ps ++ ">"

def textMore : List TypePath → String
  | [] => ""
  | p :: ps => "," ++ p.text ++ textMore ps

end

end TypePath

end PhaseLang
